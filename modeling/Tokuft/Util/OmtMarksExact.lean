import Tokuft.Util.OmtMarksLaws
import Tokuft.Util.OmtRuns

/-! Whatever is done, the marks are where visits were since what is marked was last deleted. -/

namespace Tokuft

variable {α σ : Type} {omt : Omt α} {list values : List α} {visited : List Nat}

/-- The marks of places that were visited. -/
def isVisited (visited : List Nat) (place : Nat) : Bool := decide (place ∈ visited)

/-- Visiting more places marks them too. -/
theorem addPlaces_isVisited (first second : List Nat) :
    addPlaces (isVisited first) second = isVisited (first ++ second) := by
  funext place
  simp [addPlaces, isVisited]

namespace Omt

/-- A tree holds values, of which those at visited places are marked. -/
inductive HoldsMarked : Omt α → List α → List Nat → Prop where
  | tree {capacity freeIdx : Nat} {root : WeightTree (OmtNode α)} {values : List α}
      {visited : List Nat} (ok : OmtTreeOk capacity freeIdx root) (consistent : root.Consistent)
      (marking : root.Marking (isVisited visited) 0)
      (holds : root.toList.map OmtNode.value = values)
      (inside : ∀ place ∈ visited, place < values.length) :
      HoldsMarked ⟨capacity, .tree freeIdx root⟩ values visited

/-- A tree without any bits has no marks. -/
theorem marking_of_unmarked : ∀ {root : WeightTree (OmtNode α)} (idx : Nat), Unmarked root →
    root.Consistent ∧ root.Marking (isVisited []) idx := by
  -- By induction on the tree, no node of which has a bit.
  intro root
  induction root with
  | null => exact fun _ _ => ⟨trivial, trivial⟩
  | node weight before n behind beforeIH behindIH =>
    intro idx clear
    have left : Unmarked before := fun other member => clear other (by simp [member])
    have right : Unmarked behind := fun other member => clear other (by simp [member])
    obtain ⟨marked, below⟩ := clear n (by simp)
    have none {side : WeightTree (OmtNode α)} (clear : Unmarked side) :
        side.anyMarked = false :=
      List.any_eq_false.mpr fun other member => by simp [(clear other member).1]
    obtain ⟨first, marking⟩ := beforeIH idx left
    obtain ⟨second, marking'⟩ := behindIH (idx + before.nweight + 1) right
    exact ⟨⟨by rw [below, none left, none right]; rfl, first, second⟩, marking,
      by rw [marked]; rfl, marking'⟩

/-- A tree whose nodes have no bits holds its list without marks. -/
theorem HoldsMarked.of_holds (holds : omt.Holds true list) : omt.HoldsMarked list [] := by
  obtain ⟨contains, isTree⟩ := holds
  cases contains with
  | array =>
    obtain ⟨_, _, impossible⟩ := isTree rfl
    cases impossible
  | tree ok clear same =>
    obtain ⟨consistent, marking⟩ := marking_of_unmarked 0 clear
    exact .tree ok consistent marking same nofun

/-- Something in a tree is marked exactly when a place was visited. -/
theorem HoldsMarked.anyMarked {capacity freeIdx : Nat} {root : WeightTree (OmtNode α)}
    (holds : HoldsMarked ⟨capacity, .tree freeIdx root⟩ values visited) :
    root.anyMarked = true ↔ visited ≠ [] := by
  -- Each visited place has a node, and each bit stands for a visited place.
  cases holds with
  | tree ok consistent marking same inside =>
    subst same
    rw [marking.anyMarked ok.weighted]
    constructor
    · rintro ⟨place, -, -, marked⟩ rfl
      cases marked
    · intro some
      obtain ⟨place, member⟩ := List.exists_mem_of_ne_nil _ some
      have bound := inside place member
      rw [List.length_map, ok.weighted.length] at bound
      exact ⟨place, Nat.zero_le _, by omega, decide_eq_true member⟩

/-- The root tells whether a place was visited. -/
theorem HoldsMarked.hasMarks (holds : omt.HoldsMarked values visited) :
    omt.hasMarks = true ↔ visited ≠ [] := by
  have any := holds
  cases holds with
  | tree ok consistent marking same inside =>
    rename_i root
    rw [← any.anyMarked]
    cases root with
    | null => exact ⟨nofun, nofun⟩
    | node weight before n behind =>
      rw [WeightTree.anyMarked_node, Omt.hasMarks]
      simp only [consistent.1, Bool.or_eq_true]
      tauto

/-- A tree of which no place was visited holds its list. -/
theorem HoldsMarked.holds (holds : omt.HoldsMarked list []) : omt.Holds true list := by
  have any := holds
  cases holds with
  | tree ok consistent marking same inside =>
    have none := Bool.eq_false_iff.mpr (mt any.anyMarked.mp (not_not.mpr rfl))
    exact ⟨.tree ok (consistent.unmarked none) same, fun _ => ⟨_, _, rfl⟩⟩

section

variable (holds : omt.HoldsMarked values visited)
include holds

/-- The size is that of the list. -/
theorem HoldsMarked.size : omt.size = values.length := by
  cases holds with
  | tree ok _ _ same _ =>
    rw [← same, List.length_map, ok.weighted.length]
    rfl

/-- The bits pass their check. -/
theorem HoldsMarked.verify :
    omt.verifyMarksConsistent = some () := by
  cases holds with
  | tree ok consistent marking same inside =>
    simp [verifyMarksConsistent, WeightTree.verifyMarksConsistent_eq true consistent fun _ => rfl]

/-- A sequence with marks cannot be changed, and one without can. -/
theorem HoldsMarked.barf :
    omt.barfIfMarked true = if visited = [] then some () else none := by
  -- The check looks at the root alone.
  rw [barfIfMarked, invariant]
  by_cases empty : visited = []
  · have clear : omt.hasMarks = false :=
      Bool.eq_false_iff.mpr (mt holds.hasMarks.mp (not_not.mpr empty))
    rw [if_pos empty, clear]
    rfl
  · rw [if_neg empty, holds.hasMarks.mpr empty]
    rfl

/-- Visiting and marking a range visits the values whose places are in it and marks them as far as
they are visited. -/
theorem iterateAndMarkRange_eq (f : α → Nat → σ → Int × σ) {left right : Nat}
    (ordered : left ≤ right) (inside : right ≤ values.length) (extra : σ) :
    ∃ after, omt.iterateAndMarkRange f left right extra = some (.ok,
        (WeightTree.visit f (WeightTree.inRange left right values 0) extra).1,
        (WeightTree.visit f (WeightTree.inRange left right values 0) extra).2, after) ∧
      after.HoldsMarked values
        (visited ++ visitedPlaces f (WeightTree.inRange left right values 0) extra) := by
  have size := holds.size
  rw [iterateAndMarkRange, if_neg (by omega)]
  by_cases empty : left = right
  · -- There is nothing to visit.
    have nothing : WeightTree.inRange left right values 0 = [] :=
      List.filter_eq_nil_iff.mpr fun entry _ => by simp; omega
    rw [if_pos empty, nothing]
    refine ⟨omt, rfl, ?_⟩
    rw [visitedPlaces, List.append_nil]
    exact holds
  · rw [if_neg empty]
    cases holds with
    | tree ok consistent marking same bounds =>
      rename_i capacity freeIdx root
      subst same
      have length : (root.toList.map OmtNode.value).length = root.nweight := by
        rw [List.length_map, ok.weighted.length]
      have isNode : root.isNull = false := by
        cases root with
        | null => simp at inside; omega
        | node => rfl
      obtain ⟨after, walked, bits⟩ := WeightTree.iterateAndMarkRange_eq f
        (show left < right by omega) 0 extra ok.weighted isNode (by omega) (by omega)
        consistent marking
      rw [addPlaces_isVisited] at bits
      have labels := bits.remarked.labels
      have indexes := congrArg (List.map Prod.fst) labels
      have kept := congrArg (List.map Prod.snd) labels
      simp only [List.map_map] at indexes kept
      refine ⟨⟨capacity, .tree freeIdx after⟩, by simp only [walked,
        bind_runs], .tree ⟨bits.remarked.weighted, ?_, ?_, ok.room⟩
        bits.consistent bits.marking kept ?_⟩
      · exact (congrArg List.Nodup indexes).mpr ok.nodup
      · intro n member
        obtain ⟨m, among, same⟩ := List.mem_map.mp
          ((congrArg (n.idx ∈ ·) indexes).mp (List.mem_map_of_mem member))
        have same : m.idx = n.idx := same
        rw [← same]
        exact ok.below m among
      · intro place member
        rcases List.mem_append.mp member with old | new
        · exact bounds place old
        · obtain ⟨entry, among, rfl⟩ := mem_visitedPlaces new
          have := mem_inRange among
          omega

/-- Visiting what is marked visits the values at visited places in order, each once. -/
theorem iterateOverMarked_eq (f : α → Nat → σ → Int × σ) (extra : σ) :
    omt.iterateOverMarked f extra =
      some (WeightTree.visit f (markedAt (isVisited visited) values 0) extra) := by
  cases holds with
  | tree ok consistent marking same inside =>
    subst same
    rw [← WeightTree.iterateOverMarked_eq f extra ok.weighted consistent marking]
    rfl

end

/-- Deleting marked places from left to right, each shifted by those deleted before, leaves the
values at other places. -/
theorem deletePlaces_eq (marks : Nat → Bool) :
    ∀ (rest done : List α) {omt : Omt α} {i : Nat} (idx : Nat),
    done.length + i = idx → omt.Holds true (done ++ rest) →
    ∃ after, omt.deletePlaces ((markedAt marks rest idx).map Prod.snd) i = some after ∧
      after.Holds true (done ++ dropMarked marks rest idx) := by
  -- The induction goes along the values that were not looked at.
  intro rest
  induction rest with
  | nil => exact fun done _ _ _ _ holds => ⟨_, rfl, holds⟩
  | cons value rest ih =>
    intro done omt i idx shifted holds
    rw [markedAt_cons, dropMarked_cons]
    cases marks idx with
    | true =>
      obtain ⟨shorter, deleted, holds⟩ := deleteAt_eq holds (idx - i)
      have place : idx - i = done.length := by omega
      rw [place, if_pos (by simp)] at deleted
      rw [place, List.eraseIdx_append_of_length_le (Nat.le_refl _), Nat.sub_self] at holds
      obtain ⟨after, rest, holds⟩ := ih done (i := i + 1) (idx + 1) (by omega) holds
      refine ⟨after, ?_, holds⟩
      simp only [if_true, List.map_cons, deletePlaces, place, deleted, rest, invariant_of,
        bind_runs]
    | false =>
      obtain ⟨after, rest, holds⟩ := ih (done ++ [value]) (i := i) (idx + 1)
        (by simp; omega) (by simpa using holds)
      exact ⟨after, rest, by simpa using holds⟩

/-- Deleting what is marked leaves the values at places that were not visited, in order. -/
theorem deleteAllMarked_eq (holds : omt.HoldsMarked values visited) :
    ∃ after, omt.deleteAllMarked = some after ∧
      after.HoldsMarked (dropMarked (isVisited visited) values 0) [] := by
  rw [deleteAllMarked]
  by_cases empty : visited = []
  · -- Without marks nothing is done.
    subst empty
    have all : dropMarked (isVisited []) values 0 = values := by
      have keep : (values.zipIdx 0).filter (fun entry => !isVisited [] entry.2) =
          values.zipIdx 0 := List.filter_eq_self.mpr fun _ _ => rfl
      rw [dropMarked, keep, List.zipIdx_map_fst]
    rw [if_neg (mt holds.hasMarks.mp (not_not.mpr rfl)), all]
    exact ⟨omt, rfl, holds⟩
  · rw [if_pos (holds.hasMarks.mpr empty)]
    cases holds with
    | tree ok consistent marking same inside =>
      rename_i capacity freeIdx root
      subst same
      obtain ⟨places, weighted, weight, list⟩ :=
        WeightTree.unmark_eq 0 ok.weighted consistent marking
      have kept {β : Type} (view : OmtNode α → β) (same : ∀ n, view n.clearStolenBits = view n) :
          (root.unmark 0).1.toList.map view = root.toList.map view := by
        rw [list, List.map_map]
        exact List.map_congr_left fun n _ => same n
      have holds : Holds true ⟨capacity, .tree freeIdx (root.unmark 0).1⟩
          ([] ++ root.toList.map OmtNode.value) := by
        refine ⟨.tree ⟨weighted, ?_, fun n member => ?_, ok.room⟩ (fun n member => ?_)
          (kept OmtNode.value fun _ => rfl), fun _ => ⟨_, _, rfl⟩⟩
        · rw [kept OmtNode.idx fun _ => rfl]
          exact ok.nodup
        · rw [list] at member
          obtain ⟨m, among, rfl⟩ := List.mem_map.mp member
          exact ok.below m among
        · rw [list] at member
          obtain ⟨m, among, rfl⟩ := List.mem_map.mp member
          exact ⟨rfl, rfl⟩
      obtain ⟨after, deleted, holds⟩ := deletePlaces_eq (isVisited visited) _ []
        (i := 0) 0 rfl holds
      rw [← places] at deleted
      refine ⟨after, ?_, .of_holds holds⟩
      simp only [deleted, holds.contains.barf, bind_runs]

/-- A tree that holds values reads them. -/
theorem HoldsMarked.fetch (holds : omt.HoldsMarked values visited) (idx : Nat) :
    omt.fetch idx = some (if idx < values.length then .ok else .einval, values[idx]?) := by
  -- Marks do not matter to a reader.
  have size := holds.size
  rw [Omt.fetch, size]
  by_cases inside : idx < values.length
  · cases holds with
    | tree ok consistent marking same bounds =>
      rename_i capacity freeIdx root
      subst same
      obtain ⟨n, label⟩ : ∃ n, root.toList[idx]? = some n :=
        ⟨_, List.getElem?_eq_getElem (by simpa using inside)⟩
      have found := (WeightTree.fetch_eq ok.weighted idx).trans label
      rw [if_neg (by omega), if_pos inside, List.getElem?_map, label]
      simp only [found, bind_runs, Option.map_some]
  · rw [if_pos (by omega), if_neg inside, List.getElem?_eq_none (by omega)]
    rfl

end Omt

/-- What is done to a sequence that can have marks. -/
inductive MarkOp (α σ : Type) where
  | iterateAndMarkRange (f : α → Nat → σ → Int × σ) (left right : Nat) (extra : σ)
  | iterateOverMarked (f : α → Nat → σ → Int × σ) (extra : σ)
  | deleteAllMarked
  | verifyMarksConsistent
  | insert (h : α → Int) (value : α)
  | insertAt (value : α) (idx : Nat)
  | setAt (value : α) (idx : Nat)
  | deleteAt (idx : Nat)
  | splitAt (idx : Nat)
  | size
  | fetch (idx : Nat)

/-- One operation on a sequence that can have marks. -/
def MarkOp.step (omt : Omt α) : MarkOp α σ → Option (OmtResult α σ × Omt α)
  | .iterateAndMarkRange f left right extra => do
    let (r, stopped, extra, after) ← omt.iterateAndMarkRange f left right extra
    return (.iterated r stopped extra, after)
  | .iterateOverMarked f extra => do
    let (stopped, extra) ← omt.iterateOverMarked f extra
    return (.iterated .ok stopped extra, omt)
  | .deleteAllMarked => do
    return (.done .ok, ← omt.deleteAllMarked)
  | .verifyMarksConsistent => do
    omt.verifyMarksConsistent
    return (.done .ok, omt)
  | .insert h value => do
    let (r, idx, after) ← omt.insert true h value
    return (.inserted r idx, after)
  | .insertAt value idx => do
    let (r, after) ← omt.insertAt true value idx
    return (.done r, after)
  | .setAt value idx => do
    let (r, after) ← omt.setAt true value idx
    return (.done r, after)
  | .deleteAt idx => do
    let (r, after) ← omt.deleteAt true idx
    return (.done r, after)
  | .splitAt idx => do
    let (r, after, _) ← omt.splitAt true idx
    return (.done r, after)
  | .size => some (.size omt.size, omt)
  | .fetch idx => do
    let (r, value) ← omt.fetch idx
    return (.fetched r value, omt)

/-- A list of values, and the places that were visited since marks were deleted. -/
structure MarkedList (α : Type) where
  values : List α
  visited : List Nat
  deriving DecidableEq, Repr

/-- One operation on a list of which places are visited. It is only changed when none was, and what
was visited is deleted at once. -/
def MarkOp.stepList (list : MarkedList α) : MarkOp α σ → Option (OmtResult α σ × MarkedList α)
  | .iterateAndMarkRange f left right extra =>
    if right ≤ list.values.length then do
      invariant (left ≤ right)
      let entries := WeightTree.inRange left right list.values 0
      let (stopped, after) := WeightTree.visit f entries extra
      return (.iterated .ok stopped after,
        ⟨list.values, list.visited ++ visitedPlaces f entries extra⟩)
    else some (.iterated .einval 0 extra, list)
  | .iterateOverMarked f extra =>
    let (stopped, after) :=
      WeightTree.visit f (markedAt (isVisited list.visited) list.values 0) extra
    some (.iterated .ok stopped after, list)
  | .deleteAllMarked =>
    some (.done .ok, ⟨dropMarked (isVisited list.visited) list.values 0, []⟩)
  | .verifyMarksConsistent => some (.done .ok, list)
  | .insert h value => do
    invariant (list.visited = [])
    invariant (SignsRise h list.values)
    let inserted := listInsert h list.values value
    return (.inserted inserted.1 inserted.2.1, ⟨inserted.2.2, []⟩)
  | .insertAt value idx => do
    invariant (list.visited = [])
    return (.done (if idx ≤ list.values.length then .ok else .einval),
      ⟨if idx ≤ list.values.length then list.values.insertIdx idx value else list.values, []⟩)
  | .setAt value idx => do
    invariant (list.visited = [])
    return (.done (if idx < list.values.length then .ok else .einval),
      ⟨list.values.set idx value, []⟩)
  | .deleteAt idx => do
    invariant (list.visited = [])
    return (.done (if idx < list.values.length then .ok else .einval),
      ⟨list.values.eraseIdx idx, []⟩)
  | .splitAt idx => do
    invariant (list.visited = [])
    return (.done (if idx ≤ list.values.length then .ok else .einval), ⟨list.values.take idx, []⟩)
  | .size => some (.size list.values.length, list)
  | .fetch idx =>
    some (.fetched (if idx < list.values.length then .ok else .einval) list.values[idx]?, list)

/-- A tree holds a list whose visited places are marked. -/
def Omt.HoldsList (omt : Omt α) (list : MarkedList α) : Prop :=
  omt.HoldsMarked list.values list.visited

/-- What an operation does to a list it does to the sequence that holds it. -/
theorem MarkOp.step_refines {op : MarkOp α σ} {before after : MarkedList α} {result : OmtResult α σ}
    (holds : omt.HoldsList before) (taken : op.stepList before = some (result, after)) :
    ∃ omt', op.step omt = some (result, omt') ∧ omt'.HoldsList after := by
  -- One case for each operation.
  obtain ⟨values, visited⟩ := before
  unfold Omt.HoldsList at *
  cases op with
  | iterateAndMarkRange f left right extra =>
    simp only [stepList] at taken
    split at taken
    case isTrue inside =>
      obtain ⟨_, ordered, taken⟩ := of_bind taken
      cases taken
      obtain ⟨omt', walked, holds⟩ := Omt.iterateAndMarkRange_eq holds f
        (invariant_eq_some.mp ordered) inside extra
      refine ⟨omt', ?_, holds⟩
      simp only [step, walked, bind_runs]
    case isFalse outside =>
      cases taken
      have size : omt.size = values.length := holds.size
      refine ⟨omt, ?_, holds⟩
      rw [step, Omt.iterateAndMarkRange, if_pos (by omega)]
      rfl
  | iterateOverMarked f extra =>
    cases taken
    refine ⟨omt, ?_, holds⟩
    simp only [step, Omt.iterateOverMarked_eq holds, bind_runs]
  | deleteAllMarked =>
    cases taken
    obtain ⟨omt', deleted, holds⟩ := Omt.deleteAllMarked_eq holds
    refine ⟨omt', ?_, holds⟩
    simp only [step, deleted, bind_runs]
  | verifyMarksConsistent =>
    cases taken
    refine ⟨omt, ?_, holds⟩
    simp only [step, holds.verify, bind_runs]
  | insert h value =>
    obtain ⟨_, clear, taken⟩ := of_bind taken
    obtain ⟨_, rise, taken⟩ := of_bind taken
    cases taken
    obtain rfl := invariant_eq_some.mp clear
    obtain ⟨omt', inserted, holds'⟩ := Omt.insert_eq holds.holds (invariant_eq_some.mp rise) value
    refine ⟨omt', ?_, .of_holds holds'⟩
    simp only [step, inserted, bind_runs]
  | insertAt value idx =>
    obtain ⟨_, clear, taken⟩ := of_bind taken
    cases taken
    obtain rfl := invariant_eq_some.mp clear
    obtain ⟨omt', inserted, holds'⟩ := Omt.insertAt_eq holds.holds value idx
    refine ⟨omt', ?_, .of_holds holds'⟩
    simp only [step, inserted, bind_runs]
  | setAt value idx =>
    obtain ⟨_, clear, taken⟩ := of_bind taken
    cases taken
    obtain rfl := invariant_eq_some.mp clear
    obtain ⟨omt', changed, holds'⟩ := Omt.setAt_eq holds.holds value idx
    refine ⟨omt', ?_, .of_holds holds'⟩
    simp only [step, changed, bind_runs]
  | deleteAt idx =>
    obtain ⟨_, clear, taken⟩ := of_bind taken
    cases taken
    obtain rfl := invariant_eq_some.mp clear
    obtain ⟨omt', deleted, holds'⟩ := Omt.deleteAt_eq holds.holds idx
    refine ⟨omt', ?_, .of_holds holds'⟩
    simp only [step, deleted, bind_runs]
  | splitAt idx =>
    obtain ⟨_, clear, taken⟩ := of_bind taken
    cases taken
    obtain rfl := invariant_eq_some.mp clear
    have divided := Omt.splitAt_eq holds.holds idx
    split at divided
    case isTrue inside =>
      obtain ⟨omt', other, divided, holds', -⟩ := divided
      refine ⟨omt', ?_, .of_holds holds'⟩
      simp only [step, divided, if_pos inside, bind_runs]
    case isFalse outside =>
      refine ⟨omt, ?_, ?_⟩
      · simp only [step, divided, if_neg outside, bind_runs]
      · simp only at outside ⊢
        rw [List.take_of_length_le (by omega)]
        exact holds
  | size =>
    cases taken
    exact ⟨omt, by rw [step, holds.size], holds⟩
  | fetch idx =>
    cases taken
    refine ⟨omt, ?_, holds⟩
    simp only [step, holds.fetch, bind_runs]

/-- A change of values. -/
def MarkOp.Changes : MarkOp α σ → Prop
  | .insertAt _ _ | .setAt _ _ | .deleteAt _ | .splitAt _ => True
  | _ => False

/-- As long as anything is marked, values are not changed but by deleting what is marked. -/
theorem MarkOp.step_refused {op : MarkOp α σ} (changes : op.Changes)
    (holds : omt.HoldsMarked values visited) (marked : visited ≠ []) : op.step omt = none := by
  -- Each operation that changes values checks for marks first.
  have barf := holds.barf
  rw [if_neg marked] at barf
  cases op with
  | insertAt => simp only [step, Omt.insertAt, barf, Option.bind_eq_bind, Option.bind_none]
  | setAt => simp only [step, Omt.setAt, barf, Option.bind_eq_bind, Option.bind_none]
  | deleteAt => simp only [step, Omt.deleteAt, barf, Option.bind_eq_bind, Option.bind_none]
  | splitAt => simp only [step, Omt.splitAt, barf, Option.bind_eq_bind, Option.bind_none]
  | _ => exact changes.elim

/-- After any run that leaves something marked, a change of values fails. -/
theorem run_refuses (holds : omt.Holds true list) (ops : List (MarkOp α σ))
    {results : List (OmtResult α σ)} {after : MarkedList α}
    (taken : runOps (fun list op => MarkOp.stepList list op) ⟨list, []⟩ ops =
      some (results, after)) (marked : after.visited ≠ []) :
    ∃ omt', runOps (fun omt op => MarkOp.step omt op) omt ops = some (results, omt') ∧
      ∀ op : MarkOp α σ, op.Changes → op.step omt' = none := by
  have start : omt.HoldsList ⟨list, []⟩ := .of_holds holds
  obtain ⟨omt', run, holds⟩ := runOps_refines
    (fun (same : Omt.HoldsList _ _) first => MarkOp.step_refines same first) ops start taken
  exact ⟨omt', run, fun _ changes => MarkOp.step_refused changes holds marked⟩

/-- With one of two numbers marked, none can be inserted. -/
theorem run_refuses_insert : ∃ omt omt' : Omt Nat,
    runOps (fun omt op => MarkOp.step omt op) omt
      [.iterateAndMarkRange (fun _ _ sum => (0, sum)) 0 1 0] =
      some ([.iterated .ok 0 0], omt') ∧
        (MarkOp.insertAt 4 0 : MarkOp Nat Nat).step omt' = none := by
  obtain ⟨omt, created, holds⟩ := Omt.createFromSortedArray_eq true [5, 7]
  obtain ⟨omt', run, refuses⟩ := run_refuses holds (σ := Nat)
    [.iterateAndMarkRange (fun _ _ sum => (0, sum)) 0 1 0] rfl (by decide)
  exact ⟨omt, omt', run, refuses _ trivial⟩

/-- Whatever is marked, visited, deleted and changed as is allowed returns what lists return, and
exactly the values at places that were visited since marks were deleted are marked, with bits that
pass their check. -/
theorem marks_are_visits (holds : omt.Holds true list) (ops : List (MarkOp α σ))
    {results : List (OmtResult α σ)} {after : MarkedList α}
    (taken : runOps (fun list op => MarkOp.stepList list op) ⟨list, []⟩ ops =
      some (results, after)) :
    ∃ omt', runOps (fun omt op => MarkOp.step omt op) omt ops = some (results, omt') ∧
      omt'.HoldsMarked after.values after.visited ∧ omt'.verifyMarksConsistent = some () := by
  have start : omt.HoldsList ⟨list, []⟩ := .of_holds holds
  obtain ⟨omt', run, holds⟩ := runOps_refines
    (fun (same : Omt.HoldsList _ _) first => MarkOp.step_refines same first) ops start taken
  exact ⟨omt', run, holds, holds.verify⟩

/-- The visit of the second of three numbers says to stop, so that the first two are deleted. -/
theorem marks_are_visits_stopped :
    ∃ omt omt' : Omt Nat, Omt.createFromSortedArray true [some 5, some 7, some 9] = some omt ∧
      runOps (fun omt op => MarkOp.step omt op) omt
        [.iterateAndMarkRange (fun v _ sum => (if v = 7 then 1 else 0, sum + v)) 0 3 0,
          .iterateOverMarked (fun _ idx sum => (0, sum + idx)) 0, .deleteAllMarked,
          .insertAt 4 0, .fetch 1] =
        some ([.iterated .ok 1 12, .iterated .ok 0 1, .done .ok, .done .ok, .fetched .ok (some 9)],
          omt') ∧
      omt'.HoldsMarked [4, 9] [] ∧ omt'.verifyMarksConsistent = some () := by
  obtain ⟨omt, created, holds⟩ := Omt.createFromSortedArray_eq true [5, 7, 9]
  obtain ⟨omt', run⟩ := marks_are_visits holds (σ := Nat)
    [.iterateAndMarkRange (fun v _ sum => (if v = 7 then 1 else 0, sum + v)) 0 3 0,
      .iterateOverMarked (fun _ idx sum => (0, sum + idx)) 0, .deleteAllMarked, .insertAt 4 0,
      .fetch 1] rfl
  exact ⟨omt, omt', created, run⟩

end Tokuft
