import Tokuft.Locktree.WaitGraph

/-! What adding an edge does, and that the search finds a cycle exactly when there is one. -/

namespace Tokuft

/-- A set has its transactions. -/
@[simp]
theorem mem_txnidSetTxnids {txnid : Nat} {txnids : List Nat} :
    txnid ∈ txnidSetTxnids txnids ↔ txnid ∈ txnids := List.mem_insertionSort _

namespace Wfg

variable {graph : Wfg}

/-- There is an edge from a transaction with a node. -/
def Edge (graph : Wfg) (source target : Nat) : Prop :=
  ∃ node, graph.findNode source = some node ∧ target ∈ node.edges

/-- The transactions whose nodes are marked. -/
def marked (graph : Wfg) : Set Nat :=
  {txnid | ∃ node, graph.findNode txnid = some node ∧ node.visited = true}

/-- No transaction has two nodes. -/
def Ok (graph : Wfg) : Prop := (graph.map WfgNode.txnid).Nodup

variable {source : Nat} {node : WfgNode}

/-- Changing a node that keeps its transaction changes what is found for that one only. -/
theorem findNode_update {change : WfgNode → WfgNode}
    (keeps : ∀ node, (change node).txnid = node.txnid) (txnid : Nat) :
    (graph.update source change).findNode txnid =
      (graph.findNode txnid).map fun node => if txnid = source then change node else node := by
  -- By induction on the nodes: the change keeps the transaction that is looked for.
  induction graph with
  | nil => rfl
  | cons first rest ih =>
    simp only [update, findNode] at ih
    simp only [update, findNode, List.map_cons, List.find?_cons]
    have same : (if first.txnid = source then change first else first).txnid = first.txnid := by
      split
      · exact keeps first
      · rfl
    rw [same]
    by_cases here : first.txnid = txnid
    · subst here
      simp
    · simp only [here, decide_false]
      exact ih

/-- A new node is found for its transaction. -/
theorem findNode_insertNode (new : graph.findNode node.txnid = none) (txnid : Nat) :
    (insertNode node graph).findNode txnid =
      if txnid = node.txnid then some node else graph.findNode txnid := by
  -- The node goes in front of the first one with a greater transaction.
  have other {first : WfgNode} {rest : Wfg} (different : first.txnid ≠ txnid) :
      findNode (first :: rest) txnid = findNode rest txnid := by
    simp [findNode, different]
  have own {first : WfgNode} {rest : Wfg} (same : first.txnid = txnid) :
      findNode (first :: rest) txnid = some first := by
    simp [findNode, same]
  induction graph with
  | nil =>
    rw [insertNode]
    by_cases same : txnid = node.txnid
    · rw [if_pos same, own same.symm]
    · rw [if_neg same, other (Ne.symm same)]
  | cons first rest ih =>
    have different : first.txnid ≠ node.txnid := by
      intro same
      simp [findNode, same] at new
    have newInRest : findNode rest node.txnid = none := by
      rw [findNode, List.find?_eq_none] at new ⊢
      exact fun later member => new later (List.mem_cons_of_mem _ member)
    rw [insertNode]
    split
    · by_cases same : txnid = node.txnid
      · rw [if_pos same, own same.symm]
      · rw [if_neg same, other (Ne.symm same)]
    · by_cases here : first.txnid = txnid
      · rw [own here, if_neg (here ▸ different), own here]
      · rw [other here, ih newInRest, other here]

/-- Creating a node leaves those that exist. -/
theorem findNode_findCreateNode (source txnid : Nat) :
    (graph.findCreateNode source).findNode txnid =
      if txnid = source then
        some ((graph.findNode source).getD { txnid := source, edges := [], visited := false })
      else graph.findNode txnid := by
  unfold findCreateNode nodeExists
  rcases Option.eq_none_or_eq_some (graph.findNode source) with new | ⟨node, there⟩
  · rw [new, Option.isSome_none, if_neg Bool.false_ne_true]
    let node : WfgNode := { txnid := source, edges := [], visited := false }
    have isNew : graph.findNode node.txnid = none := new
    exact findNode_insertNode isNew txnid
  · rw [there, Option.isSome_some, if_pos rfl]
    split
    · rename_i same
      rw [same, there]
      rfl
    · rfl

/-- A node that is found is of the transaction, and in the graph. -/
theorem of_findNode {txnid : Nat} (found : graph.findNode txnid = some node) :
    node.txnid = txnid ∧ node ∈ graph := by
  rw [findNode] at found
  exact ⟨by simpa using List.find?_some found, List.mem_of_find?_eq_some found⟩

/-- A node of a graph is the one found for its transaction. -/
theorem Ok.findNode_of_mem (ok : graph.Ok) (member : node ∈ graph) :
    graph.findNode node.txnid = some node := by
  -- By induction on the nodes, no two of which have one transaction.
  induction graph with
  | nil => cases member
  | cons first rest ih =>
    obtain ⟨fresh, restOk⟩ := List.nodup_cons.mp ok
    rcases List.mem_cons.mp member with rfl | inRest
    · simp [findNode]
    · have different : first.txnid ≠ node.txnid := by
        intro same
        exact fresh (same ▸ List.mem_map_of_mem inRest)
      simpa [findNode, different] using ih restOk inRest

/-- The number of nodes that are not marked. -/
def unmarked (graph : Wfg) : Nat := graph.countP fun node => !node.visited

variable {head target : Nat}

/-- Marking a node leaves fewer that are not marked. -/
theorem unmarked_setVisited (found : graph.findNode head = some node)
    (fresh : node.visited = false) :
    (graph.setVisited head true).unmarked < graph.unmarked := by
  -- The marked node no longer counts, and no other node begins to.
  have fewer (rest : Wfg) : (rest.setVisited head true).unmarked ≤ rest.unmarked := by
    rw [unmarked, unmarked, setVisited, update, List.countP_map]
    refine List.countP_mono_left fun other _ unvisited => ?_
    simp only [Function.comp_apply] at unvisited
    split at unvisited
    · simp at unvisited
    · exact unvisited
  induction graph with
  | nil => cases found
  | cons first rest ih =>
    simp only [setVisited, update, unmarked] at ih fewer
    simp only [setVisited, update, unmarked, List.map_cons, List.countP_cons]
    by_cases here : first.txnid = head
    · have same : first = node := by simpa [findNode, here] using found
      rw [if_pos here, same, fresh]
      have below := fewer rest
      simp only [Bool.not_true, Bool.false_eq_true, if_false, Bool.not_false, if_true]
      omega
    · rw [if_neg here]
      have below := ih (by simpa [findNode, here] using found)
      omega

/-- A mark is found on the node it was set for only. -/
theorem findNode_setVisited (head : Nat) (visited : Bool) (txnid : Nat) :
    (graph.setVisited head visited).findNode txnid = (graph.findNode txnid).map fun node =>
      if txnid = head then { node with visited } else node :=
  @findNode_update graph head (fun node => { node with visited }) (fun _ => rfl) txnid

/-- Marks do not change the edges. -/
theorem edge_setVisited {visited : Bool} :
    (graph.setVisited head visited).Edge source target ↔ graph.Edge source target := by
  unfold Edge
  rw [findNode_setVisited]
  rcases Option.eq_none_or_eq_some (graph.findNode source) with none | ⟨node, there⟩
  · simp [none]
  · rw [there, Option.map_some]
    simp only [Option.some.injEq, exists_eq_left']
    split <;> rfl

/-- Marking a node adds its transaction to the marked ones. -/
theorem marked_setVisited (found : graph.findNode head = some node) :
    (graph.setVisited head true).marked = insert head graph.marked := by
  -- A transaction is marked when the node that is found for it is.
  ext txnid
  rw [marked, Set.mem_ofPred_eq, findNode_setVisited, Set.mem_insert_iff, marked,
    Set.mem_ofPred_eq]
  rcases Option.eq_none_or_eq_some (graph.findNode txnid) with none | ⟨other, there⟩
  · have different : txnid ≠ head := by
      rintro rfl
      rw [none] at found
      cases found
    simp [none, different]
  · rw [there, Option.map_some]
    by_cases same : txnid = head
    · simp [same]
    · simp [same]

/-- Marks do not change the transactions. -/
theorem Ok.setVisited (ok : graph.Ok) (head : Nat) (visited : Bool) :
    (graph.setVisited head visited).Ok := by
  have same : (graph.setVisited head visited).map WfgNode.txnid = graph.map WfgNode.txnid := by
    rw [Wfg.setVisited, update, List.map_map]
    refine List.map_congr_left fun node _ => ?_
    simp only [Function.comp_apply]
    split <;> rfl
  rw [Ok, same]
  exact ok

/-- Taking the mark of a node back restores the graph. -/
theorem Ok.setVisited_back (ok : graph.Ok) (found : graph.findNode head = some node)
    (fresh : node.visited = false) :
    (graph.setVisited head true).setVisited head false = graph := by
  rw [Wfg.setVisited, Wfg.setVisited, update, update, List.map_map]
  refine Eq.trans (List.map_congr_left fun other member => ?_) (List.map_id graph)
  simp only [Function.comp_apply, id_eq]
  by_cases here : other.txnid = head
  · -- The node is the only one of its transaction.
    have same := ok.findNode_of_mem member
    rw [here, found, Option.some.injEq] at same
    subst same
    obtain ⟨txnid, edges, visited⟩ := node
    cases fresh
    cases here
    simp
  · simp [here]

/-- Following an edge finds the target there or from there on. -/
theorem searchEdge_ok {fuel : Nat}
    (search : ∀ {head : Nat} {node : WfgNode}, graph.findNode head = some node →
      node.visited = false →
      ∃ found, cycleExistsFromNode target fuel graph head = some (graph, found) ∧
        (found = true ↔ Escapes graph.Edge graph.marked head target))
    (already : Bool) (edge : Nat) :
    ∃ found, searchEdge (cycleExistsFromNode target fuel) target (graph, already) edge =
        some (graph, found) ∧
      (found = true ↔ already = true ∨ target = edge ∨
        edge ∉ graph.marked ∧ Escapes graph.Edge graph.marked edge target) := by
  unfold searchEdge
  by_cases done : already = true
  · exact ⟨true, by simp [done], by simp [done]⟩
  · by_cases reached : target = edge
    · exact ⟨true, by simp [done, reached], by simp [reached]⟩
    · rcases Option.eq_none_or_eq_some (graph.findNode edge) with none | ⟨newHead, is⟩
      · -- From a transaction without a node no edge leads on.
        have stuck : ¬ Escapes graph.Edge graph.marked edge target := by
          intro path
          have isNone {next : Nat} (step : graph.Edge edge next) : False := by
            obtain ⟨found, is, -⟩ := step
            rw [none] at is
            cases is
          rcases path.cases_head with direct | ⟨next, step, -⟩
          · exact isNone direct
          · exact isNone step
        exact ⟨false, by simp [done, reached, none], by simp [done, reached, stuck]⟩
      · by_cases onPath : newHead.visited = true
        · have inMarked : edge ∈ graph.marked := ⟨newHead, is, onPath⟩
          exact ⟨false, by simp [done, reached, is, onPath], by simp [done, reached, inMarked]⟩
        · have free : edge ∉ graph.marked := by
            rintro ⟨other, isOther, visited⟩
            rw [is, Option.some.injEq] at isOther
            exact onPath (isOther ▸ visited)
          obtain ⟨found, searched, iff⟩ := search is (Bool.eq_false_iff.mpr onPath)
          exact ⟨found, by simp [done, reached, is, onPath, searched],
            by simp [iff, done, reached, free]⟩

/-- The search visits each path once, and finds one to the target exactly when there is one. -/
theorem cycleExistsFromNode_ok : ∀ {fuel : Nat} {graph : Wfg} {head : Nat}
    {node : WfgNode}, graph.Ok → graph.findNode head = some node → node.visited = false →
      graph.unmarked ≤ fuel →
      ∃ found, cycleExistsFromNode target fuel graph head = some (graph, found) ∧
        (found = true ↔ Escapes graph.Edge graph.marked head target) := by
  intro fuel
  induction fuel with
  | zero =>
    intro graph head node ok there fresh enough
    have positive : 0 < graph.unmarked :=
      List.countP_pos_iff.mpr ⟨node, (of_findNode there).2, by simp [fresh]⟩
    exact absurd enough (Nat.not_le_of_gt positive)
  | succ fuel ih =>
    intro graph head node ok there fresh enough
    have fewer := unmarked_setVisited there fresh
    have markedNow := marked_setVisited there
    generalize now : graph.setVisited head true = graphNow at fewer markedNow
    have nowOk : graphNow.Ok := now ▸ ok.setVisited head true
    have edgeNow : graphNow.Edge = graph.Edge := by
      funext source target
      exact propext (now ▸ edge_setVisited)
    -- Each edge either reaches the target, or is searched unless its node is on the path.
    have loop (edges : List Nat) : ∀ already : Bool, ∃ found, edges.foldlM
        (searchEdge (cycleExistsFromNode target fuel) target) (graphNow, already) =
          some (graphNow, found) ∧
        (found = true ↔ already = true ∨ ∃ edge ∈ edges, target = edge ∨
          edge ∉ graphNow.marked ∧ Escapes graphNow.Edge graphNow.marked edge target) := by
      induction edges with
      | nil =>
        intro already
        exact ⟨already, rfl, by simp⟩
      | cons edge rest ihRest =>
        intro already
        obtain ⟨after, stepped, afterIff⟩ :=
          searchEdge_ok (fun is free => ih nowOk is free (by omega)) already edge
        obtain ⟨found, run, iff⟩ := ihRest after
        refine ⟨found, ?_, ?_⟩
        · rw [List.foldlM_cons, stepped]
          exact run
        · rw [iff, afterIff, or_assoc]
          simp
    obtain ⟨found, run, iff⟩ := loop (txnidSetTxnids node.edges) false
    refine ⟨found, ?_, ?_⟩
    · rw [cycleExistsFromNode]
      simp only [there, bind_runs]
      rw [now, run, Option.bind_some, ← now, ok.setVisited_back there fresh]
    · rw [iff, Escapes.iff_head, edgeNow, markedNow]
      have edgeIff (next : Nat) : next ∈ txnidSetTxnids node.edges ↔ graph.Edge head next := by
        rw [mem_txnidSetTxnids]
        exact ⟨fun member => ⟨node, there, member⟩, fun ⟨same, isSame, member⟩ => by
          rw [there, Option.some.injEq] at isSame
          exact isSame ▸ member⟩
      constructor
      · rintro (wrong | ⟨next, step, rfl | ⟨free, rest⟩⟩)
        · cases wrong
        · exact Or.inl ((edgeIff target).mp step)
        · exact Or.inr ⟨next, (edgeIff next).mp step, free, rest⟩
      · rintro (direct | ⟨next, step, free, rest⟩)
        · exact Or.inr ⟨target, (edgeIff target).mpr direct, Or.inl rfl⟩
        · exact Or.inr ⟨next, (edgeIff next).mpr step, Or.inr ⟨free, rest⟩⟩

/-- Without marks the search finds exactly whether there is a cycle through a transaction. -/
theorem cycleExistsFromTxnid_ok (ok : graph.Ok) (unvisited : ∀ node ∈ graph, node.visited = false)
    (txnid : Nat) : ∃ found, graph.cycleExistsFromTxnid txnid = some found ∧
      (found = true ↔ Relation.TransGen graph.Edge txnid txnid) := by
  -- A transaction without a node has no edge, and so no cycle.
  rw [cycleExistsFromTxnid, nodeExists]
  rcases Option.eq_none_or_eq_some (graph.findNode txnid) with none | ⟨node, there⟩
  · refine ⟨false, by simp [none], ?_⟩
    simp only [Bool.false_eq_true, false_iff]
    intro cycle
    obtain ⟨next, ⟨found, is, -⟩, -⟩ := Relation.TransGen.head'_iff.mp cycle
    rw [none] at is
    cases is
  · have nothing : graph.marked = ∅ := by
      ext other
      simp only [marked, Set.mem_ofPred_eq, Set.mem_empty_iff_false, iff_false]
      rintro ⟨found, is, visited⟩
      rw [unvisited found (of_findNode is).2] at visited
      cases visited
    obtain ⟨found, run, iff⟩ := @cycleExistsFromNode_ok txnid (graph.length + 1) graph txnid node ok
      there (unvisited node (of_findNode there).2) (Nat.le_succ_of_le List.countP_le_length)
    refine ⟨found, by simp [there, run], ?_⟩
    rw [iff, nothing, Escapes.iff_transGen]

/-- What is found after an edge was added. -/
theorem findNode_addEdge (source target txnid : Nat) :
    (graph.addEdge source target).findNode txnid =
      (if txnid = source ∨ txnid = target then
        some ((graph.findNode txnid).getD { txnid, edges := [], visited := false })
      else graph.findNode txnid).map fun node =>
        if txnid = source then { node with edges := txnidSetAdd node.edges target } else node := by
  -- Both ends get a node first, and then the edge is added to one of them.
  have changed := @findNode_update ((graph.findCreateNode source).findCreateNode target) source
    (fun node => { node with edges := txnidSetAdd node.edges target }) (fun _ => rfl) txnid
  rw [addEdge, changed, findNode_findCreateNode, findNode_findCreateNode, findNode_findCreateNode]
  by_cases isTarget : txnid = target
  · subst isTarget
    by_cases isSource : txnid = source
    · subst isSource
      simp
    · simp [isSource]
  · by_cases isSource : txnid = source
    · subst isSource
      simp [isTarget]
    · simp [isTarget, isSource]

/-- An added edge gives both its ends a node. -/
theorem nodeExists_addEdge {txnid : Nat} :
    (graph.addEdge source target).nodeExists txnid = true ↔
      txnid = source ∨ txnid = target ∨ graph.nodeExists txnid = true := by
  rw [nodeExists, findNode_addEdge, Option.isSome_map, nodeExists, ← or_assoc]
  split
  · rename_i own
    simp [own]
  · rename_i other
    simp [other]

/-- An added edge is there in addition to those from before. -/
theorem edge_addEdge {first second : Nat} :
    (graph.addEdge source target).Edge first second ↔
      graph.Edge first second ∨ first = source ∧ second = target := by
  -- Only the source has more edges than before.
  unfold Edge
  rw [findNode_addEdge]
  by_cases isSource : first = source
  · subst isSource
    rcases Option.eq_none_or_eq_some (graph.findNode first) with none | ⟨node, there⟩
    · simp [none, txnidSetAdd]
    · simp [there, txnidSetAdd, or_comm]
  · by_cases isTarget : first = target
    · subst isTarget
      rcases Option.eq_none_or_eq_some (graph.findNode first) with none | ⟨node, there⟩
      · simp [none, isSource]
      · simp [there, isSource]
    · simp [isSource, isTarget]

/-- A new node comes to the others. -/
theorem insertNode_perm (node : WfgNode) : (insertNode node graph).Perm (node :: graph) := by
  induction graph with
  | nil => rfl
  | cons first rest ih =>
    rw [insertNode]
    split
    · rfl
    · exact (ih.cons first).trans (List.Perm.swap _ _ _)

/-- Creating a node keeps one for each transaction, and marks none. -/
theorem findCreateNode_ok (ok : graph.Ok) (unvisited : ∀ node ∈ graph, node.visited = false)
    (txnid : Nat) : (graph.findCreateNode txnid).Ok ∧
      ∀ node ∈ graph.findCreateNode txnid, node.visited = false := by
  -- A new node is not marked, and no other has its transaction.
  unfold findCreateNode nodeExists
  split
  · exact ⟨ok, unvisited⟩
  · rename_i new
    let node : WfgNode := { txnid, edges := [], visited := false }
    have perm : (insertNode node graph).Perm (node :: graph) := insertNode_perm node
    refine ⟨(perm.map WfgNode.txnid).nodup_iff.mpr (List.nodup_cons.mpr ⟨?_, ok⟩), ?_⟩
    · intro member
      obtain ⟨node, inGraph, same⟩ := List.mem_map.mp member
      have found := ok.findNode_of_mem inGraph
      rw [same] at found
      exact new (by rw [found]; rfl)
    · intro node member
      rcases List.mem_cons.mp (perm.subset member) with rfl | old
      · rfl
      · exact unvisited node old

/-- Adding an edge keeps one node for each transaction, and marks none. -/
theorem addEdge_ok (ok : graph.Ok) (unvisited : ∀ node ∈ graph, node.visited = false)
    (source target : Nat) : (graph.addEdge source target).Ok ∧
      ∀ node ∈ graph.addEdge source target, node.visited = false := by
  -- Neither of the ends loses its place in the order.
  obtain ⟨sourceOk, sourceUnvisited⟩ := findCreateNode_ok ok unvisited source
  obtain ⟨bothOk, bothUnvisited⟩ := findCreateNode_ok sourceOk sourceUnvisited target
  constructor
  · have same : (graph.addEdge source target).map WfgNode.txnid =
        ((graph.findCreateNode source).findCreateNode target).map WfgNode.txnid := by
      rw [addEdge, update, List.map_map]
      refine List.map_congr_left fun node _ => ?_
      simp only [Function.comp_apply]
      split <;> rfl
    rw [Ok, same]
    exact bothOk
  · intro node member
    rw [addEdge, update, List.mem_map] at member
    obtain ⟨old, inBoth, rfl⟩ := member
    split
    · exact bothUnvisited old inBoth
    · exact bothUnvisited old inBoth

end Wfg

end Tokuft
