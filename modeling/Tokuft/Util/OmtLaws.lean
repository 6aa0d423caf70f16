import Tokuft.Util.Omt

/-! In either of its shapes a sequence holds a list of values. -/

namespace Tokuft

variable {α σ : Type}

/-- Reading cells in the middle of an array. -/
theorem readCells_middle (before middle behind : List (Option α)) :
    readCells (before ++ (middle ++ behind)) before.length middle.length = some middle := by
  rw [readCells, if_pos (by simp)]
  simp

/-- Copying cells into the middle of an array. -/
theorem copyCells_middle (before behind : List (Option α)) {old from' : List (Option α)}
    (same : old.length = from'.length) :
    copyCells (before ++ (old ++ behind)) before.length from' =
      some (before ++ (from' ++ behind)) := by
  rw [copyCells, if_pos (by simp; omega)]
  simp [← same]

/-- Copying cells to the start of a new array. -/
theorem copyCells_new (from' : List (Option α)) {n : Nat} (fits : from'.length ≤ n) :
    copyCells (List.replicate n none) 0 from' =
      some (from' ++ List.replicate (n - from'.length) none) := by
  have parts : List.replicate n (none : Option α) =
      [] ++ (List.replicate from'.length none ++ List.replicate (n - from'.length) none) := by
    rw [List.nil_append, List.replicate_append_replicate, Nat.add_sub_cancel' fits]
  rw [parts]
  exact copyCells_middle [] _ (List.length_replicate)

/-- Reading values that were all written. -/
theorem mapM_written (list : List α) : (list.map some).mapM id = some list := by
  induction list with
  | nil => rfl
  | cons value list ih => simp [List.mapM_cons, ih]

/-- An array holds a list behind a first part. -/
def ArrayHolds (capacity startIdx numValues : Nat) (values : List (Option α)) (list : List α) :
    Prop :=
  ∃ before behind, values = before ++ (list.map some ++ behind) ∧ before.length = startIdx ∧
    list.length = numValues ∧ values.length = capacity

/-- A tree whose nodes stand at different indexes of its array, below the free ones. -/
structure OmtTreeOk (capacity freeIdx : Nat) (root : WeightTree (OmtNode α)) : Prop where
  weighted : root.Weighted
  nodup : (root.toList.map OmtNode.idx).Nodup
  below : ∀ n ∈ root.toList, n.idx < freeIdx
  room : freeIdx ≤ capacity

/-- No value is marked, and no node says that there are marks. -/
def Unmarked (root : WeightTree (OmtNode α)) : Prop :=
  ∀ n ∈ root.toList, n.marked = false ∧ n.marksBelow = false

namespace Omt

/-- A sequence without marks holds a list. -/
inductive Contains : Omt α → List α → Prop where
  | array {capacity startIdx numValues : Nat} {values : List (Option α)} {list : List α}
      (holds : ArrayHolds capacity startIdx numValues values list) :
      Contains ⟨capacity, .array startIdx numValues values⟩ list
  | tree {capacity freeIdx : Nat} {root : WeightTree (OmtNode α)} {list : List α}
      (ok : OmtTreeOk capacity freeIdx root) (clear : Unmarked root)
      (holds : root.toList.map OmtNode.value = list) :
      Contains ⟨capacity, .tree freeIdx root⟩ list

/-- A sequence is a tree. -/
def IsTree (omt : Omt α) : Prop := ∃ freeIdx root, omt.d = .tree freeIdx root

/-- A sequence holds a list, with marks only ever as a tree. -/
structure Holds (supportsMarks : Bool) (omt : Omt α) (list : List α) : Prop where
  contains : omt.Contains list
  isTree : supportsMarks = true → omt.IsTree

/-- The size is that of the list. -/
theorem Contains.size {omt : Omt α} {list : List α} (contains : omt.Contains list) :
    omt.size = list.length := by
  -- An array counts its values, and a tree has the weight of its root.
  cases contains with
  | array holds =>
    obtain ⟨_, _, _, _, count, _⟩ := holds
    exact count.symm
  | tree ok _ holds =>
    rw [← holds, List.length_map, ok.weighted.length]
    rfl

/-- A sequence without marks can be changed. -/
theorem Contains.barf {omt : Omt α} {list : List α} (contains : omt.Contains list)
    (supportsMarks : Bool) : omt.barfIfMarked supportsMarks = some () := by
  refine invariant_of ?_
  cases contains with
  | array _ => simp [hasMarks]
  | tree _ clear _ =>
    rename_i root _ _
    cases root with
    | null => simp [hasMarks]
    | node weight left n right =>
      obtain ⟨marked, below⟩ := clear n (by simp)
      simp [hasMarks, marked, below]

end Omt

/-- A tree that is built from values holds them in new nodes. -/
theorem rebuildFromSortedArray_eq (capacity : Nat) : ∀ (fuel : Nat) (values : List α)
    (freeIdx : Nat), values.length ≤ fuel → freeIdx + values.length ≤ capacity →
    ∃ root, rebuildFromSortedArray capacity fuel values freeIdx =
        some (root, freeIdx + values.length) ∧ root.Weighted ∧
      root.toList.map OmtNode.value = values ∧ (root.toList.map OmtNode.idx).Nodup ∧
      (∀ n ∈ root.toList, freeIdx ≤ n.idx ∧ n.idx < freeIdx + values.length) ∧ Unmarked root := by
  intro fuel
  induction fuel with
  | zero =>
    intro values freeIdx enough room
    rw [List.length_eq_zero_iff.mp (Nat.le_zero.mp enough)]
    exact ⟨.null, rfl, trivial, rfl, List.nodup_nil, nofun, nofun⟩
  | succ fuel ih =>
    intro values freeIdx enough room
    rw [rebuildFromSortedArray]
    cases found : values[values.length / 2]? with
    | none =>
      -- Only of no values is there none in the middle.
      have past := List.getElem?_eq_none_iff.mp found
      rw [List.length_eq_zero_iff.mp (show values.length = 0 by omega)]
      exact ⟨.null, rfl, trivial, rfl, List.nodup_nil, nofun, nofun⟩
    | some value =>
      obtain ⟨inside, read⟩ := List.getElem?_eq_some_iff.mp found
      have half : (values.take (values.length / 2)).length = values.length / 2 :=
        List.length_take_of_le (by omega)
      have rest : (values.drop (values.length / 2 + 1)).length =
          values.length - (values.length / 2 + 1) := List.length_drop
      obtain ⟨left, builtLeft, first, valuesLeft, nodupLeft, boundsLeft, clearLeft⟩ :=
        ih (values.take (values.length / 2)) (freeIdx + 1)
          (by omega) (by omega)
      obtain ⟨right, builtRight, second, valuesRight, nodupRight, boundsRight, clearRight⟩ :=
        ih (values.drop (values.length / 2 + 1))
          (freeIdx + 1 + (values.take (values.length / 2)).length) (by omega) (by omega)
      have size := first.length
      have size' := second.length
      rw [← List.length_map OmtNode.value, valuesLeft] at size
      rw [← List.length_map OmtNode.value, valuesRight] at size'
      refine ⟨.node values.length left ⟨freeIdx, value, false, false⟩ right, ?_,
        ⟨by omega, first, second⟩, ?_, ?_, ?_, ?_⟩
      · simp only [nodeMalloc, invariant_of (show freeIdx < capacity by omega), builtLeft,
          builtRight, bind_runs, Option.some.injEq, Prod.mk.injEq, true_and]
        omega
      · rw [WeightTree.toList_node, List.map_append, List.map_cons, valuesLeft, valuesRight, ← read,
          List.getElem_cons_drop, List.take_append_drop]
      · -- The left side, the node and the right side are at rising indexes.
        rw [WeightTree.toList_node, List.map_append, List.map_cons]
        refine List.nodup_append.mpr ⟨nodupLeft, List.nodup_cons.mpr ⟨?_, nodupRight⟩, ?_⟩
        · intro member
          obtain ⟨n, among, same⟩ := List.mem_map.mp member
          have bounds := boundsRight n among
          have same : n.idx = freeIdx := same
          omega
        · intro i one j other same
          obtain ⟨n, among, rfl⟩ := List.mem_map.mp one
          have bounds := boundsLeft n among
          rcases List.mem_cons.mp other with first | later
          · have first : j = freeIdx := first
            omega
          · obtain ⟨m, within, rfl⟩ := List.mem_map.mp later
            have bounds' := boundsRight m within
            omega
      · intro n member
        rw [WeightTree.toList_node] at member
        rcases List.mem_append.mp member with among | among
        · have bounds := boundsLeft n among
          omega
        · rcases List.mem_cons.mp among with rfl | among
          · simp only
            omega
          · have bounds := boundsRight n among
            omega
      · intro n member
        rw [WeightTree.toList_node] at member
        rcases List.mem_append.mp member with among | among
        · exact clearLeft n among
        · rcases List.mem_cons.mp among with rfl | among
          · exact ⟨rfl, rfl⟩
          · exact clearRight n among

namespace Omt

/-- A sequence has room for a number of values. -/
def HasRoom (omt : Omt α) (n : Nat) : Prop :=
  match omt.d with
  | .array startIdx _ _ => startIdx + n ≤ omt.capacity
  | .tree freeIdx root => root.nweight < n → freeIdx < omt.capacity

variable {n capacity startIdx numValues : Nat} {list : List α} {values : List (Option α)}

/-- Filling a new array with the values of a tree. -/
theorem fillNew {root : WeightTree (OmtNode α)} (weighted : root.Weighted)
    (fits : root.nweight ≤ n) :
    root.fillArray OmtNode.value 0 (List.replicate n none) =
      some ((root.toList.map OmtNode.value).map some ++
        List.replicate (n - root.nweight) none) := by
  have parts : List.replicate n (none : Option α) =
      [] ++ (List.replicate root.nweight none ++ List.replicate (n - root.nweight) none) := by
    rw [List.nil_append, List.replicate_append_replicate, Nat.add_sub_cancel' fits]
  rw [parts, List.map_map]
  exact WeightTree.fillArray_eq OmtNode.value weighted [] _ List.length_replicate

/-- A tree becomes an array with room for as many values again. -/
theorem convertToArray_tree {freeIdx : Nat} {root : WeightTree (OmtNode α)}
    (ok : OmtTreeOk capacity freeIdx root) (holds : root.toList.map OmtNode.value = list) :
    ∃ newCapacity spare, convertToArray ⟨capacity, .tree freeIdx root⟩ =
        some ⟨newCapacity, .array 0 list.length (list.map some ++ spare)⟩ ∧
      list.length + spare.length = newCapacity ∧ 4 ≤ newCapacity ∧
      2 * list.length ≤ newCapacity := by
  -- The capacity is twice the weight, and four at least.
  have weight : root.nweight = list.length := by
    rw [← ok.weighted.length, ← holds, List.length_map]
  have fits : root.nweight ≤ if 2 * root.nweight < 4 then 4 else 2 * root.nweight := by
    split <;> omega
  refine ⟨if 2 * root.nweight < 4 then 4 else 2 * root.nweight, List.replicate
    ((if 2 * root.nweight < 4 then 4 else 2 * root.nweight) - root.nweight) none, ?_, ?_, ?_, ?_⟩
  · simp only [convertToArray, fillNew ok.weighted fits, bind_runs]
    rw [holds, weight]
  · rw [List.length_replicate, ← weight]
    omega
  · split <;> omega
  · rw [← weight]
    split <;> omega

/-- An array becomes a tree of new nodes with a free one behind them. -/
theorem convertToTree_array (holds : ArrayHolds capacity startIdx numValues values list) :
    ∃ newCapacity root,
      convertToTree ⟨capacity, .array startIdx numValues values⟩ =
        some ⟨newCapacity, .tree list.length root⟩ ∧
      OmtTreeOk newCapacity list.length root ∧ Unmarked root ∧
      root.toList.map OmtNode.value = list ∧ list.length < newCapacity := by
  -- The values are rebuilt as a balanced tree, whose nodes are the first ones.
  obtain ⟨before, behind, rfl, rfl, rfl, rfl⟩ := holds
  have read := readCells_middle before (list.map some) behind
  rw [List.length_map] at read
  have fits : 0 + list.length ≤ if 2 * list.length < 4 then 4 else 2 * list.length := by
    split <;> omega
  obtain ⟨root, built, weighted, same, nodup, bounds, clear⟩ :=
    rebuildFromSortedArray_eq _ list.length _ _ (Nat.le_refl _) fits
  refine ⟨if 2 * list.length < 4 then 4 else 2 * list.length, root, ?_,
    ⟨weighted, nodup, fun n member => ?_, ?_⟩, clear, same, ?_⟩
  · simp only [convertToTree, read, mapM_written, built, bind_runs, Nat.zero_add]
  · have := (bounds n member).2
    omega
  · omega
  · split <;> omega

/-- A sequence that has become an array and again a tree, if it must be one, holds its list. -/
theorem treeIfMarks_array (supportsMarks : Bool)
    (holds : ArrayHolds capacity startIdx numValues values list) :
    ∃ after, treeIfMarks supportsMarks ⟨capacity, .array startIdx numValues values⟩ = some after ∧
      after.Holds supportsMarks list ∧
      ∀ n, startIdx + n ≤ capacity → n ≤ list.length + 1 → after.HasRoom n := by
  cases supportsMarks with
  | false => exact ⟨_, rfl, ⟨.array holds, nofun⟩, fun n room _ => room⟩
  | true =>
    obtain ⟨newCapacity, root, converted, ok, clear, same, free⟩ := convertToTree_array holds
    refine ⟨_, converted, ⟨.tree ok clear same, fun _ => ⟨_, _, rfl⟩⟩, fun n _ few => ?_⟩
    exact fun _ => free

/-- Making room in an array, or giving back what is too much, keeps what it holds. -/
theorem maybeResizeArray_eq (holds : ArrayHolds capacity startIdx numValues values list)
    (few : list.length ≤ n + 1) :
    ∃ newCapacity newStart newValues,
      maybeResizeArray capacity startIdx numValues values n =
        some ⟨newCapacity, .array newStart numValues newValues⟩ ∧
      ArrayHolds newCapacity newStart numValues newValues list ∧ newStart + n ≤ newCapacity := by
  -- The values are copied to the start of the new array.
  have double : n + 1 ≤ newSizeFor n := by
    unfold newSizeFor
    split <;> omega
  obtain ⟨before, behind, rfl, rfl, rfl, rfl⟩ := holds
  have read := readCells_middle before (list.map some) behind
  rw [List.length_map] at read
  unfold maybeResizeArray
  split
  case isTrue =>
    have copied := copyCells_new (list.map some)
      (show (list.map some).length ≤ newSizeFor n by rw [List.length_map]; omega)
    refine ⟨newSizeFor n, 0, list.map some ++
      List.replicate (newSizeFor n - (list.map some).length) none, ?_,
      ⟨[], _, rfl, rfl, rfl, ?_⟩, by omega⟩
    · simp only [read, copied, bind_runs]
    · simp
      omega
  case isFalse keep =>
    refine ⟨_, before.length, _, rfl, ⟨before, behind, rfl, rfl, rfl, rfl⟩, ?_⟩
    simp only [List.length_append, List.length_map] at keep ⊢
    omega

/-- Making room keeps what a sequence holds. -/
theorem maybeResizeOrConvert_eq {supportsMarks : Bool} {omt : Omt α}
    (holds : omt.Holds supportsMarks list) (few : list.length ≤ n + 1)
    (most : n ≤ list.length + 1) :
    ∃ after, omt.maybeResizeOrConvert supportsMarks n = some after ∧
      after.Holds supportsMarks list ∧ after.HasRoom n := by
  -- An array is resized, and a tree without room becomes one, unless marks need a tree.
  obtain ⟨contains, isTree⟩ := holds
  cases contains with
  | array holds =>
    obtain ⟨newCapacity, newStart, newValues, resized, holds, room⟩ :=
      maybeResizeArray_eq holds few
    refine ⟨_, resized, ⟨.array holds, fun marks => ?_⟩, room⟩
    obtain ⟨_, _, impossible⟩ := isTree marks
    cases impossible
  | tree ok clear same =>
    rename_i capacity freeIdx root
    simp only [maybeResizeOrConvert]
    split
    case isTrue =>
      obtain ⟨newCapacity, spare, converted, sized, four, double⟩ := convertToArray_tree ok same
      have array : ArrayHolds newCapacity 0 list.length (list.map some ++ spare) list :=
        ⟨[], spare, rfl, rfl, rfl, by simp [sized]⟩
      obtain ⟨after, marked, holds, room⟩ := treeIfMarks_array supportsMarks array
      refine ⟨after, ?_, holds, room n (by omega) most⟩
      simp only [converted, bind_runs, marked]
    case isFalse keep =>
      refine ⟨_, rfl, ⟨.tree ok clear same, fun _ => ⟨_, _, rfl⟩⟩, fun less => ?_⟩
      simp only at less ⊢
      omega

end Omt

end Tokuft
