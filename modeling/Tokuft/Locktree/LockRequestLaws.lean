import Tokuft.Locktree.LockRequest

/-! The graph that is built has every edge that a cycle through the request can take. -/

namespace Tokuft

variable {Key : Type} [LinearOrder Key]

namespace LockRequests

/-- Requests are pending and in the order of their transactions, each at most once. -/
structure Ok (requests : LockRequests Key) : Prop where
  sorted : requests.Pairwise fun request later => request.txnid < later.txnid
  pending : ∀ request ∈ requests, request.state = .pending
  ordered : ∀ request ∈ requests, request.range.Ordered

variable {requests : LockRequests Key}

/-- The request that is found is the one of the transaction. -/
theorem Ok.findLockRequest_eq_some (ok : requests.Ok) {txnid : Nat} {request : LockRequest Key} :
    requests.findLockRequest txnid = some request ↔ request ∈ requests ∧ request.txnid = txnid := by
  constructor
  · intro found
    exact ⟨List.mem_of_find?_eq_some found, by simpa using List.find?_some found⟩
  · rintro ⟨member, rfl⟩
    obtain ⟨front, back, rfl⟩ := List.append_of_mem member
    -- All requests before it are of lesser transactions.
    have before : ∀ other ∈ front, other.txnid < request.txnid := by
      intro other inFront
      exact (List.pairwise_append.mp ok.sorted).2.2 other inFront request List.mem_cons_self
    rw [findLockRequest, List.find?_append, List.find?_eq_none.mpr]
    · simp
    · intro other inFront
      simpa using (before other inFront).ne

omit [LinearOrder Key] in
/-- There is no request of a transaction when none is found. -/
theorem findLockRequest_eq_none {txnid : Nat} :
    requests.findLockRequest txnid = none ↔ ∀ request ∈ requests, request.txnid ≠ txnid := by
  simp [findLockRequest, List.find?_eq_none]

omit [LinearOrder Key] in
/-- An inserted request comes to the others. -/
theorem insertSorted_perm (request : LockRequest Key) (requests : LockRequests Key) :
    (insertSorted request requests).Perm (request :: requests) := by
  -- By induction on the requests.
  induction requests with
  | nil => rfl
  | cons first rest ih =>
    rw [insertSorted]
    split
    · rfl
    · exact (ih.cons first).trans (List.Perm.swap _ _ _)

/-- A pending request of a new transaction can be inserted. -/
theorem Ok.insertSorted (ok : requests.Ok) {request : LockRequest Key}
    (new : ∀ other ∈ requests, other.txnid ≠ request.txnid) (pending : request.state = .pending)
    (ordered : request.range.Ordered) :
    (LockRequests.insertSorted request requests).Ok := by
  -- By induction on the requests: the new one goes in front of the first with a greater name.
  have perm := insertSorted_perm request requests
  refine ⟨?_, ?_, ?_⟩
  · have sorted := ok.sorted
    clear perm
    induction requests with
    | nil => exact List.pairwise_singleton _ _
    | cons first rest ih =>
      obtain ⟨least, restSorted⟩ := List.pairwise_cons.mp sorted
      rw [LockRequests.insertSorted]
      split
      · rename_i below
        refine List.pairwise_cons.mpr ⟨?_, sorted⟩
        intro other member
        rcases List.mem_cons.mp member with rfl | later
        · exact below
        · exact below.trans (least other later)
      · rename_i above
        have restOk : LockRequests.Ok rest :=
          ⟨restSorted, fun other member => ok.pending other (List.mem_cons_of_mem _ member),
            fun other member => ok.ordered other (List.mem_cons_of_mem _ member)⟩
        refine List.pairwise_cons.mpr ⟨?_, ih restOk
          (fun other member => new other (List.mem_cons_of_mem _ member)) restSorted⟩
        intro other member
        rcases List.mem_cons.mp ((insertSorted_perm request rest).subset member) with rfl | later
        · have different := new first List.mem_cons_self
          omega
        · exact least other later
  · intro other member
    rcases List.mem_cons.mp (perm.subset member) with rfl | old
    · exact pending
    · exact ok.pending other old
  · intro other member
    rcases List.mem_cons.mp (perm.subset member) with rfl | old
    · exact ordered
    · exact ok.ordered other old

end LockRequests

/-- A transaction waits for another one that holds a lock on what it requests. -/
def WaitsFor (locks : List (RowLock Key)) (requests : LockRequests Key)
    (txnid other : Nat) : Prop :=
  other ≠ txnid ∧ ∃ request ∈ requests, request.txnid = txnid ∧
    ∃ lock ∈ locks, lock.txnid = other ∧ request.range.overlaps lock.range = true

/-- The conflicts are the transactions that a request waits for. -/
theorem Locktree.getConflicts_ok [BoundedOrder Key] {lt : Locktree Key}
    (ok : LocksOk lt.rangetree.locks) (txnid : Nat) {range : Keyrange Key}
    (ordered : range.Ordered) :
    ∃ tree conflicts, lt.getConflicts txnid range =
      some ({ lt with rangetree := tree }, conflicts) ∧
      tree.locks = lt.rangetree.locks ∧
      ∀ other, other ∈ conflicts ↔ other ≠ txnid ∧ ∃ lock ∈ lt.rangetree.locks,
        lock.txnid = other ∧ range.overlaps lock.range = true := by
  -- The locked part of the tree has every lock that overlaps the range.
  obtain ⟨acquired, done, acquiredOk, acquiredRange, same⟩ :=
    LockedKeyrange.acquire_ok Keyrange.infinite ok ordered
  obtain ⟨iterated, found, -, -, sameIterated, -⟩ :=
    iterateAndGetOverlappingRowLocks_ok acquiredOk (acquiredRange.symm ▸ ordered)
  rw [acquiredRange, same] at found
  obtain ⟨-, set⟩ := determineConflictingTxnids_ok
    (lt.rangetree.locks.filter fun lock => range.overlaps lock.range) txnid []
  refine ⟨iterated.release, (determineConflictingTxnids (lt.rangetree.locks.filter fun lock =>
    range.overlaps lock.range) txnid []).2, ?_, sameIterated.trans same, ?_⟩
  · rw [getConflicts, show (LockedKeyrange.prepare lt.rangetree).acquire range = some acquired
      from done]
    simp only [found, bind_runs]
  · intro other
    rw [set other]
    simp only [List.not_mem_nil, false_or, List.mem_filter]
    constructor
    · rintro ⟨lock, ⟨member, overlap⟩, foreign, rfl⟩
      exact ⟨foreign, lock, member, rfl, overlap⟩
    · rintro ⟨foreign, lock, member, rfl, overlap⟩
      exact ⟨lock, ⟨member, overlap⟩, foreign, rfl⟩

namespace LockRequest

section Build

variable {locks : List (RowLock Key)} {requests : LockRequests Key}

/-- A transaction waits for another one that waits itself. -/
def WaitsForPending (locks : List (RowLock Key)) (requests : LockRequests Key)
    (txnid other : Nat) : Prop :=
  WaitsFor locks requests txnid other ∧ (requests.findLockRequest other).isSome = true

/-- While the requests of some transactions are worked on, the graph has only edges of waiting
transactions, and all edges of the others that have a node. -/
structure Built (locks : List (RowLock Key)) (requests : LockRequests Key) (working : Set Nat)
    (graph : Wfg) : Prop where
  ok : graph.Ok
  unvisited : ∀ node ∈ graph, node.visited = false
  sound : ∀ txnid other, graph.Edge txnid other → WaitsForPending locks requests txnid other
  ends : ∀ txnid other, graph.Edge txnid other → graph.nodeExists other = true
  closed : ∀ txnid, graph.nodeExists txnid = true → txnid ∉ working →
    ∀ other, WaitsForPending locks requests txnid other → graph.Edge txnid other

/-- What a graph has stays when it grows. -/
structure Grows (before after : Wfg) : Prop where
  edges : ∀ txnid other, before.Edge txnid other → after.Edge txnid other
  nodes : ∀ txnid, before.nodeExists txnid = true → after.nodeExists txnid = true

/-- A graph that does not change grows by nothing. -/
theorem Grows.refl (graph : Wfg) : Grows graph graph := ⟨fun _ _ => id, fun _ => id⟩

/-- A graph may grow in steps. -/
theorem Grows.trans {first second third : Wfg} (earlier : Grows first second)
    (later : Grows second third) : Grows first third :=
  ⟨fun txnid other edge => later.edges txnid other (earlier.edges txnid other edge),
    fun txnid node => later.nodes txnid (earlier.nodes txnid node)⟩

/-- The number of requests whose transactions have no node yet. -/
def missing (requests : LockRequests Key) (graph : Wfg) : Nat :=
  requests.countP fun request => !graph.nodeExists request.txnid

omit [LinearOrder Key] in
/-- A graph that grows misses no more requests. -/
theorem missing_le {before after : Wfg} (grows : Grows before after) :
    missing requests after ≤ missing requests before := by
  refine List.countP_mono_left fun request _ absent => ?_
  rw [Bool.not_eq_true'] at absent ⊢
  rw [Bool.eq_false_iff] at absent ⊢
  exact fun there => absent (grows.nodes _ there)

variable {request : LockRequest Key} {working : Set Nat} {graph : Wfg} {txnid other : Nat}

omit [LinearOrder Key] in
/-- A graph that grows by a node of a request misses fewer. -/
theorem missing_lt {before after : Wfg} (grows : Grows before after) (member : request ∈ requests)
    (new : before.nodeExists request.txnid = false) (now : after.nodeExists request.txnid = true) :
    missing requests after < missing requests before := by
  -- By induction on the requests, one of which is missing no more.
  induction requests with
  | nil => cases member
  | cons first rest ih =>
    have below : missing rest after ≤ missing rest before := missing_le grows
    simp only [missing, List.countP_cons] at below ih ⊢
    rcases List.mem_cons.mp member with rfl | inRest
    · simp only [new, now, Bool.not_true, Bool.not_false, Bool.false_eq_true, if_false, if_true]
      omega
    · have fewer := ih inRest
      have firstNoMore : after.nodeExists first.txnid = false →
          before.nodeExists first.txnid = false := by
        intro absent
        by_contra there
        rw [Bool.not_eq_false] at there
        rw [grows.nodes _ there] at absent
        cases absent
      cases isAfter : after.nodeExists first.txnid with
      | true =>
        simp only [Bool.not_true, Bool.false_eq_true, if_false]
        omega
      | false =>
        simp only [firstNoMore isAfter, Bool.not_false, if_true]
        omega

/-- At first there is nothing in the graph. -/
theorem Built.nil (working : Set Nat) : Built locks requests working [] where
  ok := List.nodup_nil
  unvisited := by simp
  sound := by
    rintro txnid other ⟨node, found, -⟩
    cases found
  ends := by
    rintro txnid other ⟨node, found, -⟩
    cases found
  closed := by
    intro txnid node
    cases node

/-- A new edge of a transaction that is worked on fits in, with its end worked on if it is new. -/
theorem Built.addEdge (built : Built locks requests working graph) (own : txnid ∈ working)
    (waits : WaitsForPending locks requests txnid other)
    (handled : graph.nodeExists other = true ∨ other ∈ working) :
    Built locks requests working (graph.addEdge txnid other) := by
  -- Only the end of the new edge may be a new node.
  obtain ⟨ok, unvisited⟩ := Wfg.addEdge_ok built.ok built.unvisited txnid other
  refine ⟨ok, unvisited, ?_, ?_, ?_⟩
  · intro first second edge
    rcases Wfg.edge_addEdge.mp edge with old | ⟨rfl, rfl⟩
    · exact built.sound first second old
    · exact waits
  · intro first second edge
    rw [Wfg.nodeExists_addEdge]
    rcases Wfg.edge_addEdge.mp edge with old | ⟨-, rfl⟩
    · exact Or.inr (Or.inr (built.ends first second old))
    · exact Or.inr (Or.inl rfl)
  · intro first node notWorking second waitsToo
    refine Wfg.edge_addEdge.mpr (Or.inl (built.closed first ?_ notWorking second waitsToo))
    rcases Wfg.nodeExists_addEdge.mp node with rfl | rfl | old
    · exact absurd own notWorking
    · exact handled.resolve_right notWorking
    · exact old

/-- An added edge makes a graph grow. -/
theorem grows_addEdge (graph : Wfg) (txnid other : Nat) :
    Grows graph (graph.addEdge txnid other) :=
  ⟨fun _ _ edge => Wfg.edge_addEdge.mpr (Or.inl edge),
    fun _ node => Wfg.nodeExists_addEdge.mpr (Or.inr (Or.inr node))⟩

/-- Once all edges of a transaction are there, it need not be worked on any more. -/
theorem Built.close (built : Built locks requests (insert txnid working) graph)
    (complete : ∀ other, WaitsForPending locks requests txnid other → graph.Edge txnid other) :
    Built locks requests working graph := by
  -- All other transactions were closed before.
  refine ⟨built.ok, built.unvisited, built.sound, built.ends, ?_⟩
  intro first node notWorking second waits
  by_cases same : first = txnid
  · subst same
    exact complete second waits
  · exact built.closed first node (by simp [same, notWorking]) second waits

/-- With more transactions worked on less is asked of a graph. -/
theorem Built.mono {more : Set Nat} (less : working ⊆ more)
    (built : Built locks requests working graph) : Built locks requests more graph :=
  ⟨built.ok, built.unvisited, built.sound, built.ends, fun txnid node notWorking =>
    built.closed txnid node fun inside => notWorking (less inside)⟩

/-- A request waits for those in whose way it is. -/
theorem waitsFor_iff (ok : requests.Ok) (member : request ∈ requests) :
    WaitsFor locks requests request.txnid other ↔
      other ≠ request.txnid ∧ ∃ lock ∈ locks, lock.txnid = other ∧
        request.range.overlaps lock.range = true := by
  constructor
  · rintro ⟨different, same, there, sameTxnid, overlapping⟩
    -- A transaction has only one request.
    have found := ok.findLockRequest_eq_some.mpr ⟨there, sameTxnid⟩
    rw [ok.findLockRequest_eq_some.mpr ⟨member, rfl⟩, Option.some.injEq] at found
    exact ⟨different, found ▸ overlapping⟩
  · rintro ⟨different, overlapping⟩
    exact ⟨different, request, member, rfl, overlapping⟩

variable [BoundedOrder Key]

/-- A part of the graph is built for a request when all its edges are there afterwards. -/
def Builds (locks : List (RowLock Key)) (requests : LockRequests Key) (bound : Nat)
    (build : Locktree Key × Wfg → LockRequest Key → List Nat → Option (Locktree Key × Wfg)) :
    Prop :=
  ∀ {lt : Locktree Key} {graph : Wfg} {request : LockRequest Key} {conflicts : List Nat}
    {working : Set Nat}, lt.rangetree.locks = locks → request ∈ requests →
    Built locks requests working graph → request.txnid ∈ working →
    missing requests graph < bound →
    (∀ other, other ∈ conflicts ↔ WaitsFor locks requests request.txnid other) →
    ∃ tree after, build (lt, graph) request conflicts =
      some ({ lt with rangetree := tree }, after) ∧
      tree.locks = locks ∧ Built locks requests working after ∧ Grows graph after ∧
      ∀ other, WaitsForPending locks requests request.txnid other →
        after.Edge request.txnid other

section

variable (ok : requests.Ok) (locksOk : LocksOk locks) {bound : Nat}
  {build : Locktree Key × Wfg → LockRequest Key → List Nat → Option (Locktree Key × Wfg)}
  (builds : Builds locks requests bound build)
include ok locksOk builds

/-- Each conflict gets its edge, and what waits behind it gets its part of the graph. -/
theorem waitFor_ok {lt : Locktree Key} (same : lt.rangetree.locks = locks)
    (built : Built locks requests working graph) (own : request.txnid ∈ working)
    (enough : missing requests graph < bound + 1)
    (waits : WaitsFor locks requests request.txnid other) :
    ∃ tree after, waitFor build requests request (lt, graph) other =
        some ({ lt with rangetree := tree }, after) ∧
      tree.locks = locks ∧ Built locks requests working after ∧ Grows graph after ∧
      (WaitsForPending locks requests request.txnid other → after.Edge request.txnid other) := by
  have different := waits.1
  rcases Option.eq_none_or_eq_some (requests.findLockRequest other) with none | ⟨conflicting, found⟩
  · refine ⟨lt.rangetree, graph, ?_, same, built, .refl graph, ?_⟩
    · simp [waitFor, none, invariant_of different]
    · rintro ⟨-, pending⟩
      simp [none] at pending
  · obtain ⟨member, rfl⟩ := ok.findLockRequest_eq_some.mp found
    have notThis : some conflicting ≠ some request := by
      intro equal
      rw [Option.some.injEq] at equal
      exact different (congrArg LockRequest.txnid equal)
    have waitsPending : WaitsForPending locks requests request.txnid conflicting.txnid :=
      ⟨waits, by rw [found]; rfl⟩
    have grows := grows_addEdge graph request.txnid conflicting.txnid
    have edge : (graph.addEdge request.txnid conflicting.txnid).Edge request.txnid
        conflicting.txnid := Wfg.edge_addEdge.mpr (Or.inr ⟨rfl, rfl⟩)
    cases known : graph.nodeExists conflicting.txnid with
    | true =>
      refine ⟨lt.rangetree, _, ?_, same, built.addEdge own waitsPending (Or.inl known), grows,
        fun _ => edge⟩
      simp only [waitFor, found, invariant_of different, invariant_of notThis, known, bind_runs,
        if_true]
    | false =>
      obtain ⟨tree, otherConflicts, gotten, sameTree, exactly⟩ :=
        Locktree.getConflicts_ok (same.symm ▸ locksOk) conflicting.txnid
          (ok.ordered conflicting member)
      -- From here on the new node is worked on too.
      have inside : Built locks requests (insert conflicting.txnid working)
          (graph.addEdge request.txnid conflicting.txnid) :=
        (built.mono fun txnid there => Or.inr there).addEdge (Or.inr own) waitsPending
          (Or.inr (Or.inl rfl))
      have fewer := missing_lt grows member known
        (Wfg.nodeExists_addEdge.mpr (Or.inr (Or.inl rfl)))
      obtain ⟨final, after, done, sameFinal, afterBuilt, afterGrows, complete⟩ :=
        @builds { lt with rangetree := tree } _ conflicting otherConflicts _
          (sameTree.trans same) member inside (Or.inl rfl) (by omega) (by
            intro third
            rw [exactly third, same, waitsFor_iff ok member])
      refine ⟨final, after, ?_, sameFinal, afterBuilt.close complete, grows.trans afterGrows,
        fun _ => afterGrows.edges _ _ edge⟩
      simp only [waitFor, found, invariant_of different, invariant_of notThis, known, getConflicts,
        invariant_of (ok.pending conflicting member), gotten, done, bind_runs, Bool.false_eq_true,
        if_false]

/-- All conflicts of a list get their edges. -/
theorem foldlM_waitFor_ok (own : request.txnid ∈ working) :
    ∀ (conflicts : List Nat) {lt : Locktree Key} {graph : Wfg},
      lt.rangetree.locks = locks → Built locks requests working graph →
      missing requests graph < bound + 1 →
      (∀ other ∈ conflicts, WaitsFor locks requests request.txnid other) →
      ∃ tree after, conflicts.foldlM (waitFor build requests request) (lt, graph) =
          some ({ lt with rangetree := tree }, after) ∧
        tree.locks = locks ∧ Built locks requests working after ∧ Grows graph after ∧
        ∀ other ∈ conflicts, WaitsForPending locks requests request.txnid other →
          after.Edge request.txnid other := by
  -- By induction on the conflicts, each of which leaves a larger graph.
  intro conflicts
  induction conflicts with
  | nil =>
    intro lt graph same built enough waits
    exact ⟨lt.rangetree, graph, rfl, same, built, .refl graph, by simp⟩
  | cons other rest ih =>
    intro lt graph same built enough waits
    obtain ⟨tree, middle, first, sameTree, middleBuilt, grows, edge⟩ :=
      waitFor_ok ok locksOk builds same built own enough (waits other List.mem_cons_self)
    obtain ⟨final, after, run, sameFinal, afterBuilt, afterGrows, edges⟩ :=
      @ih { lt with rangetree := tree } middle sameTree middleBuilt
        (lt_of_le_of_lt (missing_le grows) enough)
        (fun third member => waits third (List.mem_cons_of_mem _ member))
    refine ⟨final, after, ?_, sameFinal, afterBuilt, grows.trans afterGrows, ?_⟩
    · rw [List.foldlM_cons, first]
      exact run
    · intro third member pending
      rcases List.mem_cons.mp member with rfl | inRest
      · exact afterGrows.edges _ _ (edge pending)
      · exact edges third inRest pending

end

/-- With a turn for every request that misses its node the graph is built. -/
theorem buildWaitGraph_builds (ok : requests.Ok) (locksOk : LocksOk locks) :
    ∀ fuel, Builds locks requests fuel (buildWaitGraph requests fuel) := by
  -- By induction on the turns, of which a new node takes one.
  intro fuel
  induction fuel with
  | zero =>
    intro lt graph request conflicts working same member built own enough
    exact absurd enough (Nat.not_lt_zero _)
  | succ fuel ih =>
    intro lt graph request conflicts working same member built own enough exactly
    obtain ⟨tree, after, run, sameTree, afterBuilt, grows, edges⟩ :=
      foldlM_waitFor_ok ok locksOk ih own (txnidSetTxnids conflicts) same built enough
        (fun other inSet => (exactly other).mp (mem_txnidSetTxnids.mp inSet))
    refine ⟨tree, after, run, sameTree, afterBuilt, grows, ?_⟩
    intro other waits
    exact edges other (mem_txnidSetTxnids.mpr ((exactly other).mpr waits.1)) waits

omit [BoundedOrder Key] in
/-- A cycle of the graph is one of transactions that wait, where the edges of the rest are there. -/
theorem transGen_edge_iff (built : Built locks requests {txnid} graph)
    (complete : ∀ other, WaitsForPending locks requests txnid other → graph.Edge txnid other)
    (pending : (requests.findLockRequest txnid).isSome = true) :
    Relation.TransGen graph.Edge txnid txnid ↔
      Relation.TransGen (WaitsFor locks requests) txnid txnid := by
  constructor
  · exact Relation.TransGen.mono (fun first second edge => (built.sound first second edge).1)
      txnid txnid
  · -- Every transaction on the cycle waits, and has all of its edges.
    have walk {first : Nat} (path : Relation.TransGen (WaitsFor locks requests) first txnid) :
        first = txnid ∨ graph.nodeExists first = true →
          Relation.TransGen graph.Edge first txnid := by
      have edges {here next : Nat} (reached : here = txnid ∨ graph.nodeExists here = true)
          (waits : WaitsForPending locks requests here next) : graph.Edge here next := by
        by_cases same : here = txnid
        · subst same
          exact complete next waits
        · exact built.closed here (reached.resolve_left same) same next waits
      induction path using Relation.TransGen.head_induction_on with
      | single step => exact fun reached => .single (edges reached ⟨step, pending⟩)
      | head step rest ih =>
        rename_i here next
        intro reached
        have waitsToo : (requests.findLockRequest next).isSome = true := by
          obtain ⟨third, ⟨-, request, member, own, -⟩, -⟩ := Relation.TransGen.head'_iff.mp rest
          by_contra absent
          rw [Bool.not_eq_true, Option.isSome_eq_false_iff, Option.isNone_iff_eq_none,
            LockRequests.findLockRequest_eq_none] at absent
          exact absent request member own
        have edge := edges reached ⟨step, waitsToo⟩
        exact .head edge (ih (Or.inr (built.ends here next edge)))
    exact fun cycle => walk cycle (Or.inl rfl)

end Build

end LockRequest

end Tokuft
