import Tokuft.Util.OmtLaws

/-! Operations on a sequence do to its list what their names say, in both of its shapes. -/

namespace Tokuft

variable {α σ : Type} {supportsMarks : Bool} {omt : Omt α} {list : List α}

namespace Omt

variable {values : List (Option α)}

/-- Balancing a part of a tree keeps its list. -/
theorem maybeRebalance_eq {capacity freeIdx : Nat} {root : WeightTree (OmtNode α)}
    (ok : OmtTreeOk capacity freeIdx root) (clear : Unmarked root)
    (same : root.toList.map OmtNode.value = list) {path : Option (List Bool)}
    (leads : ∀ way, path = some way → WeightTree.Leads way root) (supportsMarks : Bool) :
    ∃ after, maybeRebalance supportsMarks ⟨capacity, .tree freeIdx root⟩ path = some after ∧
      after.Holds supportsMarks list := by
  cases path with
  | none => exact ⟨_, rfl, .tree ok clear same, fun _ => ⟨_, _, rfl⟩⟩
  | some way =>
    simp only [maybeRebalance, rebalance]
    split
    case isTrue =>
      -- At the root everything is copied, and copied back when it has to be a tree.
      obtain ⟨newCapacity, spare, converted, sized, -⟩ := convertToArray_tree ok same
      have array : ArrayHolds newCapacity 0 list.length (list.map some ++ spare) list :=
        ⟨[], spare, rfl, rfl, rfl, by simp [sized]⟩
      obtain ⟨after, marked, holds, -⟩ := treeIfMarks_array supportsMarks array
      refine ⟨after, ?_, holds⟩
      simp only [converted, bind_runs, marked]
    case isFalse =>
      obtain ⟨after, balanced, weighted, labels⟩ := WeightTree.rebalanceAt_eq ok.weighted
        (leads way rfl)
      refine ⟨_, by simp only [balanced, bind_runs],
        .tree ⟨weighted, ?_, ?_, ok.room⟩ ?_ ?_, fun _ => ⟨_, _, rfl⟩⟩
      · rw [labels]
        exact ok.nodup
      · rw [labels]
        exact ok.below
      · intro n member
        exact clear n (labels ▸ member)
      · rw [labels]
        exact same

section

variable (holds : omt.Holds supportsMarks list)
include holds

/-- A sequence that cannot grow as an array where it has to becomes a tree. -/
theorem treeToInsert_eq (idx : Nat) (room : omt.HasRoom (list.length + 1)) :
    ∃ after, omt.treeToInsert idx = some after ∧ after.Holds supportsMarks list ∧
      after.HasRoom (list.length + 1) ∧
      ∀ startIdx numValues values, after.d = .array startIdx numValues values →
        idx = list.length ∨ (idx = 0 ∧ 0 < startIdx) := by
  -- An array grows at its ends only, and one with marks nowhere.
  obtain ⟨contains, isTree⟩ := holds
  cases contains with
  | array holds =>
    have count : list.length = _ := holds.choose_spec.choose_spec.2.2.1
    simp only [treeToInsert]
    split
    case isTrue =>
      obtain ⟨newCapacity, root, converted, ok, clear, same, free⟩ := convertToTree_array holds
      exact ⟨_, converted, ⟨.tree ok clear same, fun _ => ⟨_, _, rfl⟩⟩, fun _ => free, nofun⟩
    case isFalse atEnd =>
      refine ⟨_, rfl, ⟨.array holds, isTree⟩, room, fun _ _ _ shape => ?_⟩
      cases shape
      omega
  | tree ok clear same =>
    exact ⟨_, rfl, ⟨.tree ok clear same, isTree⟩, room, nofun⟩

/-- Inserting where there is room inserts into the list. -/
theorem insertWithRoom_eq {idx : Nat} (value : α) (inside : idx ≤ list.length)
    (room : omt.HasRoom (list.length + 1))
    (atEnd : ∀ startIdx numValues values, omt.d = .array startIdx numValues values →
      idx = list.length ∨ (idx = 0 ∧ 0 < startIdx)) :
    ∃ after, omt.insertWithRoom supportsMarks value idx = some after ∧
      after.Holds supportsMarks (list.insertIdx idx value) := by
  obtain ⟨contains, isTree⟩ := holds
  cases contains with
  | array holds =>
    have noMarks : supportsMarks ≠ true := by
      intro marks
      obtain ⟨_, _, impossible⟩ := isTree marks
      cases impossible
    obtain ⟨before, behind, rfl, rfl, rfl, rfl⟩ := holds
    simp only [insertWithRoom]
    split
    case isTrue last =>
      -- The value goes behind the last one.
      subst last
      obtain ⟨cell, rest, rfl⟩ : ∃ cell rest, behind = cell :: rest := by
        cases behind with
        | nil =>
          simp only [HasRoom, List.length_append, List.length_map, List.length_nil] at room
          omega
        | cons cell rest => exact ⟨cell, rest, rfl⟩
      have written := WeightTree.writeCell_append (before ++ list.map some) rest cell value
      rw [List.length_append, List.length_map, List.append_assoc, List.append_assoc] at written
      refine ⟨⟨(before ++ (list.map some ++ cell :: rest)).length, .array before.length
          (list.length + 1) (before ++ (list.map some ++ some value :: rest))⟩, ?_,
        .array ⟨before, rest, ?_, rfl, ?_, ?_⟩, fun marks => absurd marks noMarks⟩
      · simp only [written, bind_runs]
      · rw [List.insertIdx_length_self, List.map_append, List.append_assoc]
        rfl
      · simp
      · simp
    case isFalse notLast =>
      obtain ⟨rfl, positive⟩ := (atEnd _ _ _ rfl).resolve_left notLast
      -- The value goes before the first one.
      obtain ⟨first, last, rfl⟩ : ∃ first last, before = first ++ [last] :=
        ⟨before.dropLast, before.getLast (List.ne_nil_of_length_pos positive),
          (List.dropLast_append_getLast _).symm⟩
      have written := WeightTree.writeCell_append first (list.map some ++ behind) last value
      have place : (first ++ [last]).length - 1 = first.length := by simp
      rw [place]
      rw [List.append_assoc, List.singleton_append, written]
      refine ⟨_, rfl, .array ⟨first, behind, ?_, rfl, ?_, ?_⟩, fun marks => absurd marks noMarks⟩
      · simp
      · simp
      · simp
  | tree ok clear same =>
    rename_i capacity freeIdx root
    have weight : root.nweight = list.length := by
      rw [← ok.weighted.length, ← same, List.length_map]
    have free : freeIdx < capacity := room (show root.nweight < list.length + 1 by omega)
    obtain ⟨after, path, inserted, weighted, grown, labels, leads⟩ :=
      WeightTree.insertAt_eq ⟨freeIdx, value, false, false⟩ ok.weighted
        (show idx ≤ root.nweight by omega)
    have length : idx ≤ root.toList.length := by
      rw [ok.weighted.length]
      omega
    have member {n : OmtNode α} (among : n ∈ after.toList) :
        n = ⟨freeIdx, value, false, false⟩ ∨ n ∈ root.toList := by
      rw [labels] at among
      exact (List.mem_insertIdx length).mp among
    have ok' : OmtTreeOk capacity (freeIdx + 1) after := by
      refine ⟨weighted, ?_, fun n among => ?_, free⟩
      · -- The new node is at an index that no node had.
        rw [labels]
        refine ((List.perm_insertIdx _ _ length).map OmtNode.idx).nodup_iff.mpr ?_
        refine List.nodup_cons.mpr ⟨fun taken => ?_, ok.nodup⟩
        obtain ⟨n, among, same⟩ := List.mem_map.mp taken
        have low := ok.below n among
        have same : n.idx = freeIdx := same
        omega
      · rcases member among with rfl | old
        · exact Nat.lt_succ_self _
        · exact Nat.lt_succ_of_lt (ok.below n old)
    have clear' : Unmarked after := by
      intro n among
      rcases member among with rfl | old
      · exact ⟨rfl, rfl⟩
      · exact clear n old
    have same' : after.toList.map OmtNode.value = list.insertIdx idx value := by
      rw [labels, List.map_insertIdx, same]
    obtain ⟨balanced, done, holds⟩ := maybeRebalance_eq ok' clear' same' leads supportsMarks
    refine ⟨balanced, ?_, holds⟩
    simp only [insertWithRoom, nodeMalloc, invariant_of free, inserted, done, bind_runs]

/-- Inserting at a place inserts into the list, and behind its end into nothing. -/
theorem insertAt_eq (value : α) (idx : Nat) :
    ∃ after, omt.insertAt supportsMarks value idx =
        some (if idx ≤ list.length then .ok else .einval, after) ∧
      after.Holds supportsMarks (if idx ≤ list.length then list.insertIdx idx value else list) := by
  -- Room is made first, then the array becomes a tree if it cannot take the value at this place.
  have size := holds.contains.size
  simp only [insertAt, holds.contains.barf, size, Option.bind_eq_bind, Option.bind_some]
  by_cases inside : idx ≤ list.length
  · obtain ⟨roomy, resized, holds, room⟩ := maybeResizeOrConvert_eq holds
      (n := list.length + 1) (by omega) (Nat.le_refl _)
    obtain ⟨shaped, converted, holds, room, atEnd⟩ := treeToInsert_eq holds idx room
    obtain ⟨after, inserted, holds⟩ := insertWithRoom_eq holds value inside room atEnd
    refine ⟨after, ?_, by rwa [if_pos inside]⟩
    rw [if_neg (by omega), if_pos inside]
    simp only [resized, converted, inserted, Option.bind_some, Option.pure_def]
  · refine ⟨omt, ?_, by rwa [if_neg inside]⟩
    rw [if_pos (by omega), if_neg inside]
    rfl

/-- Replacing the value at a place replaces it in the list, and behind its end nothing. -/
theorem setAt_eq (value : α) (idx : Nat) :
    ∃ after, omt.setAt supportsMarks value idx =
        some (if idx < list.length then .ok else .einval, after) ∧
      after.Holds supportsMarks (list.set idx value) := by
  have size := holds.contains.size
  simp only [setAt, holds.contains.barf, size, Option.bind_eq_bind, Option.bind_some]
  by_cases inside : idx < list.length
  · rw [if_neg (by omega), if_pos inside]
    obtain ⟨contains, isTree⟩ := holds
    cases contains with
    | array holds =>
      have noMarks : supportsMarks ≠ true := by
        intro marks
        obtain ⟨_, _, impossible⟩ := isTree marks
        cases impossible
      obtain ⟨before, behind, rfl, rfl, rfl, rfl⟩ := holds
      -- The cell of the value lies behind those of the values before it.
      obtain ⟨first, old, last, rfl, rfl⟩ : ∃ first old last, list = first ++ old :: last ∧
          first.length = idx :=
        ⟨list.take idx, list[idx], list.drop (idx + 1), by simp, List.length_take_of_le
          (Nat.le_of_lt inside)⟩
      have written := WeightTree.writeCell_append (before ++ first.map some)
        (last.map some ++ behind) (some old) value
      have cells : before ++ ((first ++ old :: last).map some ++ behind) =
          before ++ first.map some ++ some old :: (last.map some ++ behind) := by simp
      have place : before.length + first.length = (before ++ first.map some).length := by simp
      rw [← place] at written
      rw [cells]
      refine ⟨⟨(before ++ first.map some ++ some old :: (last.map some ++ behind)).length,
        .array before.length (first ++ old :: last).length
          (before ++ first.map some ++ some value :: (last.map some ++ behind))⟩, ?_,
        .array ⟨before, behind, ?_, rfl, ?_, ?_⟩, fun marks => absurd marks noMarks⟩
      · simp only [written, Option.bind_some, Option.pure_def]
      · simp
      · simp
      · simp
    | tree ok clear same =>
      rename_i capacity freeIdx root
      have weight : root.nweight = list.length := by
        rw [← ok.weighted.length, ← same, List.length_map]
      obtain ⟨after, n, changed, weighted, -, read, labels⟩ :=
        WeightTree.modifyAt_eq (fun n => { n with value := value }) ok.weighted
          (show idx < root.nweight by omega)
      have old := List.mem_of_getElem? read
      have member {other : OmtNode α} (among : other ∈ after.toList) :
          ∃ m ∈ root.toList, other.idx = m.idx ∧ other.marked = m.marked ∧
            other.marksBelow = m.marksBelow := by
        rw [labels] at among
        rcases List.mem_or_eq_of_mem_set among with kept | rfl
        · exact ⟨other, kept, rfl, rfl, rfl⟩
        · exact ⟨n, old, rfl, rfl, rfl⟩
      have sameIdx : after.toList.map OmtNode.idx = root.toList.map OmtNode.idx := by
        obtain ⟨here, found⟩ := List.getElem?_eq_some_iff.mp read
        have within : idx < (root.toList.map OmtNode.idx).length := by simpa using here
        have kept : (root.toList.map OmtNode.idx)[idx] = n.idx := by
          rw [List.getElem_map, found]
        rw [labels, List.map_set, ← kept, List.set_getElem_self]
      refine ⟨⟨capacity, .tree freeIdx after⟩, ?_,
        .tree ⟨weighted, ?_, fun other among => ?_, ok.room⟩ (fun other among => ?_) ?_,
        fun _ => ⟨_, _, rfl⟩⟩
      · simp only [changed, Option.bind_some, Option.pure_def]
      · rw [sameIdx]
        exact ok.nodup
      · obtain ⟨m, among, same, -⟩ := member among
        rw [same]
        exact ok.below m among
      · obtain ⟨m, among, -, marked, below⟩ := member among
        rw [marked, below]
        exact clear m among
      · rw [labels, List.map_set, same]
  · refine ⟨omt, ?_, ?_⟩
    · rw [if_pos (by omega), if_neg inside]
      rfl
    · rwa [List.set_eq_of_length_le (by omega)]

/-- A sequence that cannot shrink as an array where it has to becomes a tree. -/
theorem treeToDelete_eq (idx : Nat) :
    ∃ after, omt.treeToDelete idx = some after ∧ after.Holds supportsMarks list ∧
      ∀ startIdx numValues values, after.d = .array startIdx numValues values →
        idx = 0 ∨ idx = list.length - 1 := by
  -- An array shrinks at its ends only.
  obtain ⟨contains, isTree⟩ := holds
  cases contains with
  | array holds =>
    have count : list.length = _ := holds.choose_spec.choose_spec.2.2.1
    simp only [treeToDelete]
    split
    case isTrue =>
      obtain ⟨newCapacity, root, converted, ok, clear, same, free⟩ := convertToTree_array holds
      exact ⟨_, converted, ⟨.tree ok clear same, fun _ => ⟨_, _, rfl⟩⟩, nofun⟩
    case isFalse atEnd =>
      refine ⟨_, rfl, ⟨.array holds, isTree⟩, fun _ _ _ shape => ?_⟩
      cases shape
      omega
  | tree ok clear same => exact ⟨_, rfl, ⟨.tree ok clear same, isTree⟩, nofun⟩

/-- Deleting at an end of an array or in a tree deletes from the list. -/
theorem deleteInside_eq {idx : Nat} (inside : idx < list.length)
    (atEnd : ∀ startIdx numValues values, omt.d = .array startIdx numValues values →
      idx = 0 ∨ idx = list.length - 1) :
    ∃ after, omt.deleteInside supportsMarks idx = some after ∧
      after.Holds supportsMarks (list.eraseIdx idx) := by
  obtain ⟨contains, isTree⟩ := holds
  cases contains with
  | array holds =>
    have noMarks : supportsMarks ≠ true := by
      intro marks
      obtain ⟨_, _, impossible⟩ := isTree marks
      cases impossible
    obtain ⟨before, behind, rfl, rfl, rfl, rfl⟩ := holds
    have ends := atEnd _ _ _ rfl
    simp only [deleteInside]
    split
    case isTrue notLast =>
      -- The first value is left before the others.
      have first : idx = 0 := ends.resolve_right notLast
      subst first
      cases list with
      | nil => cases inside
      | cons value list =>
        refine ⟨_, rfl, .array ⟨before ++ [some value], behind, ?_, ?_, ?_, rfl⟩,
          fun marks => absurd marks noMarks⟩
        · simp
        · simp
        · simp
    case isFalse last =>
      -- The last value is left behind the others.
      have last : idx = list.length - 1 := Decidable.not_not.mp last
      have nonempty : list ≠ [] := List.ne_nil_of_length_pos (by omega)
      refine ⟨_, rfl, .array ⟨before, some (list.getLast nonempty) :: behind, ?_, rfl, ?_, rfl⟩,
        fun marks => absurd marks noMarks⟩
      · rw [last, List.eraseIdx_eq_dropLast (by omega)]
        conv => lhs; rw [← List.dropLast_append_getLast nonempty]
        simp
      · rw [List.length_eraseIdx_of_lt inside]
  | tree ok clear same =>
    rename_i capacity freeIdx root
    have weight : root.nweight = list.length := by
      rw [← ok.weighted.length, ← same, List.length_map]
    obtain ⟨after, n, path, done, -, deleted⟩ := WeightTree.deleteAt_eq
      (fun n next : OmtNode α => { n with value := next.value }) ok.weighted
      (show idx < root.nweight by omega)
    -- The nodes that stay keep their indexes and bits.
    have sub := deleted.kept OmtNode.idx fun _ _ => rfl
    have sub' := deleted.kept (fun n => (n.idx, n.marked, n.marksBelow)) fun _ _ => rfl
    have ok' : OmtTreeOk capacity freeIdx after := by
      refine ⟨deleted.weighted, sub.nodup ok.nodup, fun n among => ?_, ok.room⟩
      obtain ⟨m, within, same⟩ := List.mem_map.mp (sub.subset (List.mem_map_of_mem among))
      rw [← same]
      exact ok.below m within
    have clear' : Unmarked after := by
      intro n among
      obtain ⟨m, within, same⟩ := List.mem_map.mp (sub'.subset (List.mem_map_of_mem among))
      simp only [Prod.mk.injEq] at same
      rw [← same.2.1, ← same.2.2]
      exact clear m within
    have same' : after.toList.map OmtNode.value = list.eraseIdx idx := by
      rw [deleted.taken OmtNode.value fun _ _ => rfl, same]
    obtain ⟨balanced, rebalanced, holds⟩ :=
      maybeRebalance_eq ok' clear' same' deleted.leads supportsMarks
    refine ⟨balanced, ?_, holds⟩
    simp only [deleteInside, done, rebalanced, bind_runs]

/-- Deleting at a place deletes from the list, and behind its end nothing. -/
theorem deleteAt_eq (idx : Nat) :
    ∃ after, omt.deleteAt supportsMarks idx =
        some (if idx < list.length then .ok else .einval, after) ∧
      after.Holds supportsMarks (list.eraseIdx idx) := by
  -- The same steps as for an insertion, with no room to be made.
  have size := holds.contains.size
  simp only [deleteAt, holds.contains.barf, size, Option.bind_eq_bind, Option.bind_some]
  by_cases inside : idx < list.length
  · obtain ⟨roomy, resized, holds, -⟩ := maybeResizeOrConvert_eq holds
      (n := list.length - 1) (by omega) (by omega)
    obtain ⟨shaped, converted, holds, atEnd⟩ := treeToDelete_eq holds idx
    obtain ⟨after, deleted, holds⟩ := deleteInside_eq holds inside atEnd
    refine ⟨after, ?_, holds⟩
    rw [if_neg (by omega), if_pos inside]
    simp only [resized, converted, deleted, Option.bind_some, Option.pure_def]
  · refine ⟨omt, ?_, ?_⟩
    · rw [if_pos (by omega), if_neg inside]
      rfl
    · rwa [List.eraseIdx_of_length_le (by omega)]

end

/-- A sequence of given values holds them. -/
theorem createFromSortedArray_eq (supportsMarks : Bool) (list : List α) :
    ∃ after, createFromSortedArray supportsMarks (list.map some) = some after ∧
      after.Holds supportsMarks list := by
  -- The values fill the new array, which has no other cell.
  have copied := copyCells_new (list.map some) (Nat.le_refl _)
  have array : ArrayHolds (list.map some).length 0 (list.map some).length (list.map some ++
      List.replicate ((list.map some).length - (list.map some).length) none) list :=
    ⟨[], _, rfl, rfl, by simp, by simp⟩
  obtain ⟨after, marked, holds, -⟩ := treeIfMarks_array supportsMarks array
  refine ⟨after, ?_, holds⟩
  simp only [createFromSortedArray, copied, bind_runs, marked]

/-- A new sequence holds nothing. -/
theorem create_eq (supportsMarks : Bool) :
    ∃ after : Omt α, create supportsMarks = some after ∧ after.Holds supportsMarks [] := by
  have array : ArrayHolds 2 0 0 (List.replicate 2 (none : Option α)) [] :=
    ⟨[], List.replicate 2 none, rfl, rfl, rfl, rfl⟩
  obtain ⟨after, marked, holds, -⟩ := treeIfMarks_array supportsMarks array
  exact ⟨after, marked, holds⟩

/-- A new sequence without memory holds nothing. -/
theorem createNoArray_holds (supportsMarks : Bool) :
    (createNoArray supportsMarks : Omt α).Holds supportsMarks [] := by
  cases supportsMarks with
  | false => exact ⟨.array ⟨[], [], rfl, rfl, rfl, rfl⟩, nofun⟩
  | true =>
    exact ⟨.tree ⟨trivial, List.nodup_nil, nofun, Nat.le_refl _⟩ nofun rfl, fun _ => ⟨_, _, rfl⟩⟩

section

variable (holds : omt.Holds supportsMarks list)
include holds

/-- Splitting moves the values from a place on to a new sequence, and behind
the end does nothing. -/
theorem splitAt_eq (idx : Nat) :
    if idx ≤ list.length then
      ∃ after other, omt.splitAt supportsMarks idx = some (.ok, after, some other) ∧
        after.Holds supportsMarks (list.take idx) ∧ other.Holds supportsMarks (list.drop idx)
    else omt.splitAt supportsMarks idx = some (.einval, omt, none) := by
  have size := holds.contains.size
  split
  case isFalse outside =>
    simp only [splitAt, holds.contains.barf, size, Option.bind_eq_bind, Option.bind_some]
    rw [if_pos (by omega)]
    rfl
  case isTrue inside =>
    -- Everything becomes an array first.
    obtain ⟨capacity, startIdx, numValues, values, converted, array⟩ :
        ∃ capacity startIdx numValues values,
          omt.convertToArray = some ⟨capacity, .array startIdx numValues values⟩ ∧
          ArrayHolds capacity startIdx numValues values list := by
      cases holds.contains with
      | array array => exact ⟨_, _, _, _, rfl, array⟩
      | tree ok clear same =>
        obtain ⟨newCapacity, spare, converted, sized, -⟩ := convertToArray_tree ok same
        exact ⟨_, _, _, _, converted, [], spare, rfl, rfl, rfl, by simp [sized]⟩
    obtain ⟨before, behind, rfl, rfl, rfl, rfl⟩ := array
    have parts : before ++ (list.map some ++ behind) =
        (before ++ (list.take idx).map some) ++ ((list.drop idx).map some ++ behind) := by
      rw [List.append_assoc, ← List.append_assoc ((list.take idx).map some), ← List.map_append,
        List.take_append_drop]
    have length : (list.take idx).length = idx := List.length_take_of_le inside
    have read := readCells_middle (before ++ (list.take idx).map some) ((list.drop idx).map some)
      behind
    rw [← parts, List.length_append, List.length_map, length, List.length_map, List.length_drop]
      at read
    obtain ⟨other, created, holdsOther⟩ := createFromSortedArray_eq supportsMarks (list.drop idx)
    have array : ArrayHolds (before ++ (list.map some ++ behind)).length before.length idx
        (before ++ (list.map some ++ behind)) (list.take idx) :=
      ⟨before, (list.drop idx).map some ++ behind, by rw [parts, List.append_assoc], rfl, length,
        rfl⟩
    obtain ⟨newCapacity, newStart, newValues, resized, kept, -⟩ :=
      maybeResizeArray_eq array (n := idx) (by omega)
    obtain ⟨after, marked, holdsAfter, -⟩ := treeIfMarks_array supportsMarks kept
    refine ⟨after, other, ?_, holdsAfter, holdsOther⟩
    simp only [splitAt, holds.contains.barf, size, converted, read, created, resized, marked,
      bind_runs]
    rw [if_neg (by omega)]

/-- Copying what a sequence holds behind a first part of an array. -/
theorem copyValues_eq (before behind : List (Option α)) (old : List (Option α))
    (sized : old.length = list.length) :
    omt.copyValues (before ++ (old ++ behind)) before.length =
      some (before ++ (list.map some ++ behind)) := by
  cases holds.contains with
  | array array =>
    obtain ⟨first, last, rfl, rfl, rfl, rfl⟩ := array
    have read := readCells_middle first (list.map some) last
    rw [List.length_map] at read
    simp only [copyValues, read, bind_runs]
    exact copyCells_middle before behind (by rw [sized, List.length_map])
  | tree ok _ same =>
    have filled := WeightTree.fillArray_eq OmtNode.value ok.weighted before behind
      (show old.length = _ by rw [sized, ← ok.weighted.length, ← same, List.length_map])
    rw [copyValues, ← same, List.map_map]
    exact filled

/-- Copying what a sequence holds to the start of a new array. -/
theorem copyValues_new (spare : Nat) :
    omt.copyValues (List.replicate (list.length + spare) none) 0 =
      some (list.map some ++ List.replicate spare none) := by
  have copied := copyValues_eq holds [] (List.replicate spare none)
    (List.replicate list.length none) List.length_replicate
  rwa [List.replicate_append_replicate] at copied

end

/-- A copy of a sequence holds the same list. -/
theorem clone_eq {src : Omt α} (holds : src.Holds supportsMarks list) :
    ∃ after, clone supportsMarks src = some after ∧ after.Holds supportsMarks list := by
  have copied := copyValues_new holds 0
  have array : ArrayHolds list.length 0 list.length (list.map some ++ List.replicate 0 none)
      list := ⟨[], List.replicate 0 none, rfl, rfl, rfl, by simp⟩
  obtain ⟨after, marked, holdsAfter, -⟩ := treeIfMarks_array supportsMarks array
  refine ⟨after, ?_, holdsAfter⟩
  rw [Nat.add_zero] at copied
  simp only [clone, holds.contains.size, copied, bind_runs, marked]

/-- The left sequence of a merge is behind a first part, with room for the right one. -/
theorem mergeLeft_eq (holds : omt.Holds supportsMarks list) (rightsize : Nat) :
    ∃ before behind, omt.mergeLeft rightsize (list.length + rightsize) =
        some ((before ++ (list.map some ++ behind)).length, before.length,
          before ++ (list.map some ++ behind)) ∧ rightsize ≤ behind.length := by
  have copied := copyValues_new holds rightsize
  have sized : ([] ++ (list.map some ++ List.replicate rightsize (none : Option α))).length =
      list.length + rightsize := by simp
  cases holds.contains with
  | array array =>
    simp only [mergeLeft]
    split
    case isTrue steal =>
      obtain ⟨before, behind, rfl, rfl, rfl, rfl⟩ := array
      refine ⟨before, behind, rfl, ?_⟩
      simp only [List.length_append, List.length_map] at steal
      omega
    case isFalse =>
      refine ⟨[], List.replicate rightsize none, ?_, by simp⟩
      simp only [copied, bind_runs, sized]
      rfl
  | tree ok _ same =>
    refine ⟨[], List.replicate rightsize none, ?_, by simp⟩
    simp only [mergeLeft, copied, bind_runs, sized]
    rfl

/-- Merging two sequences appends their lists. -/
theorem merge_eq {leftomt rightomt : Omt α} {left right : List α}
    (holdsLeft : leftomt.Holds supportsMarks left)
    (holdsRight : rightomt.Holds supportsMarks right) :
    ∃ after, merge supportsMarks leftomt rightomt = some after ∧
      after.Holds supportsMarks (left ++ right) := by
  obtain ⟨before, behind, merged, room⟩ := mergeLeft_eq holdsLeft right.length
  -- The values on the right go over the first cells behind those on the left.
  have copied := copyValues_eq holdsRight (before ++ left.map some) (behind.drop right.length)
    (behind.take right.length) (List.length_take_of_le room)
  rw [List.take_append_drop, List.append_assoc, List.length_append, List.length_map] at copied
  have array : ArrayHolds (before ++ (left.map some ++ behind)).length before.length
      (left.length + right.length)
      (before ++ left.map some ++ (right.map some ++ behind.drop right.length)) (left ++ right) :=
    ⟨before, behind.drop right.length, by simp, rfl, by simp, by simp; omega⟩
  obtain ⟨after, marked, holdsAfter, -⟩ := treeIfMarks_array supportsMarks array
  refine ⟨after, ?_, holdsAfter⟩
  simp only [merge, holdsLeft.contains.size, holdsRight.contains.size, merged, copied, bind_runs,
    marked]

/-- The cells of an array hold its list. -/
theorem held_array {capacity startIdx numValues : Nat}
    (array : ArrayHolds capacity startIdx numValues values list) :
    Held (cell values) startIdx list := by
  -- The values are behind the cells in front of the first one.
  obtain ⟨before, behind, rfl, rfl, rfl, rfl⟩ := array
  intro i inside
  rw [cell, List.getElem?_append_right (Nat.le_add_right _ _), Nat.add_sub_cancel_left,
    List.getElem?_append_left (by rwa [List.length_map]), List.getElem?_map]
  rw [List.getElem?_eq_getElem inside]
  rfl

/-- A cell of an array that holds a value was written with it. -/
theorem cell_eq_some {i : Nat} {value : α} (found : cell values i = some value) :
    values[i]? = some (some value) := by
  unfold cell at found
  rcases read : values[i]? with _ | _ | _
  · simp [read] at found
  · simp [read] at found
  · simpa [read] using found

/-- Fetching reads the list. -/
theorem fetch_eq (holds : omt.Holds supportsMarks list) (idx : Nat) :
    omt.fetch idx = some (if idx < list.length then .ok else .einval, list[idx]?) := by
  -- A tree is searched by weight, an array is indexed.
  simp only [fetch, holds.contains.size]
  by_cases inside : idx < list.length
  · rw [if_neg (by omega), if_pos inside]
    obtain ⟨value, read⟩ : ∃ value, list[idx]? = some value :=
      ⟨_, List.getElem?_eq_getElem inside⟩
    cases holds.contains with
    | array array =>
      have found := (held_array array idx inside).trans read
      simp only [cell_eq_some found, read, bind_runs]
    | tree ok _ same =>
      have found := WeightTree.fetch_eq ok.weighted idx
      have seen := read
      rw [← same, List.getElem?_map] at seen
      obtain ⟨n, label, rfl⟩ := Option.map_eq_some_iff.mp seen
      simp only [found, label, read, bind_runs]
  · rw [if_pos (by omega), if_neg inside, List.getElem?_eq_none (by omega)]
    rfl

/-- Visiting the cells of an array visits the values of its list from some place on. -/
theorem iterateInternalArray_eq (f : α → Nat → σ → Int × σ) {startIdx : Nat}
    (held : Held (cell values) startIdx list) (right : Nat) :
    ∀ (num : Nat) {i : Nat} (extra : σ), i + num = right → right ≤ list.length →
      iterateInternalArray f values startIdx num i extra =
        some (WeightTree.visit f ((list.zipIdx.drop i).take num) extra) := by
  -- By induction on the number of cells left.
  intro num
  induction num with
  | zero => exact fun {i} extra _ _ => rfl
  | succ num ih =>
    intro i extra total inside
    have here : i < list.length := by omega
    have found := (held i here).trans (List.getElem?_eq_getElem here)
    have entry : list.zipIdx.drop i = (list[i], i) :: list.zipIdx.drop (i + 1) := by
      rw [List.drop_eq_getElem_cons (by simpa using here), List.getElem_zipIdx, Nat.zero_add]
    simp only [iterateInternalArray, cell_eq_some found, entry, List.take_succ_cons,
      WeightTree.visit, bind_runs]
    split
    · rfl
    · exact ih _ (by omega) inside

/-- The entries of a list from one place to another are those whose places are in the range. -/
theorem inRange_eq : ∀ (list : List α) (left right idx : Nat),
    WeightTree.inRange left right list idx =
      ((list.zipIdx idx).drop (left - idx)).take (right - max left idx) := by
  intro list
  induction list with
  | nil => exact fun _ _ _ => by simp [WeightTree.inRange]
  | cons value list ih =>
    intro left right idx
    rw [WeightTree.inRange_cons, ih, List.zipIdx_cons]
    by_cases before : idx < left
    · -- The range begins behind the value.
      obtain ⟨rest, next⟩ : ∃ rest, left - idx = rest + 1 := ⟨left - idx - 1, by omega⟩
      have later : left - (idx + 1) = rest := by omega
      rw [if_neg (by omega), next, later, List.drop_succ_cons, Nat.max_eq_left (by omega),
        Nat.max_eq_left (by omega)]
    · have here : left - idx = 0 := by omega
      have later : left - (idx + 1) = 0 := by omega
      rw [here, later, List.drop_zero, List.drop_zero, Nat.max_eq_right (by omega),
        Nat.max_eq_right (by omega)]
      by_cases inside : idx < right
      · obtain ⟨rest, next⟩ : ∃ rest, right - idx = rest + 1 := ⟨right - idx - 1, by omega⟩
        have rest' : right - (idx + 1) = rest := by omega
        rw [if_pos ⟨by omega, inside⟩, next, rest', List.take_succ_cons]
      · have none : right - idx = 0 := by omega
        have none' : right - (idx + 1) = 0 := by omega
        rw [if_neg (by omega), none, none', List.take_zero, List.take_zero]

/-- Visiting a range visits the values of the list whose places are in it, in order, until a visit
says to stop. -/
theorem iterateOnRange_eq (holds : omt.Holds supportsMarks list) (f : α → Nat → σ → Int × σ)
    (left right : Nat) (extra : σ) :
    omt.iterateOnRange f left right extra =
      some (if right ≤ list.length then
        (.ok, WeightTree.visit f (WeightTree.inRange left right list 0) extra)
      else (.einval, 0, extra)) := by
  simp only [iterateOnRange, holds.contains.size]
  by_cases inside : right ≤ list.length
  · rw [if_neg (by omega), if_pos inside]
    by_cases empty : left = right
    · have none : WeightTree.inRange left right list 0 = [] := by
        rw [inRange_eq, empty, Nat.max_eq_left (Nat.zero_le _), Nat.sub_self, List.take_zero]
      rw [if_pos empty, none]
      rfl
    rw [if_neg empty]
    cases holds.contains with
    | array array =>
      by_cases backward : right ≤ left
      · -- A range that ends before it begins is empty.
        have none : right - left = 0 := by omega
        have none' : WeightTree.inRange left right list 0 = [] := by
          rw [inRange_eq, Nat.max_eq_left (Nat.zero_le _), none, List.take_zero]
        simp only [none, none', iterateInternalArray, bind_runs]
        rfl
      · have visited := iterateInternalArray_eq f (held_array array) right (right - left)
          (i := left) extra (by omega) inside
        rw [inRange_eq, Nat.sub_zero, Nat.max_eq_left (Nat.zero_le _)]
        simp only [visited, bind_runs]
    | tree ok _ same =>
      simp only [WeightTree.iterate_eq _ _ _ ok.weighted, ← same, WeightTree.inRange_map,
        WeightTree.visit_map]
      rfl
  · rw [if_pos (by omega), if_neg inside]
    rfl

end Omt

end Tokuft
