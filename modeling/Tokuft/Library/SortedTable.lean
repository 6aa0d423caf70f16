import Mathlib.Algebra.Order.BigOperators.Ring.Finset

/-! A table sorted by key, whose order is part of what it is. -/

namespace Tokuft

variable {Key Value : Type} [LinearOrder Key]

/-- Entries that come in strictly increasing order of their keys. -/
def KeySorted (entries : List (Key × Value)) : Prop :=
  entries.Pairwise fun earlier later => earlier.1 < later.1

/-- Look a key up in a list of entries. -/
def getEntry (key : Key) : List (Key × Value) → Option Value
  | [] => none
  | (other, value) :: rest => if other = key then some value else getEntry key rest

/-- Put a value in the place of a key, or clear that place when there is no value. -/
def setEntry (key : Key) (value : Option Value) : List (Key × Value) → List (Key × Value)
  | [] => (value.map (key, ·)).toList ++ []
  | (other, stored) :: rest =>
    if key < other then (value.map (key, ·)).toList ++ (other, stored) :: rest
    else if key = other then (value.map (key, ·)).toList ++ rest
    else (other, stored) :: setEntry key value rest

variable {key : Key} {value : Option Value} {entries : List (Key × Value)}

/-- Entries placed by a set carry the key that was set or were there before. -/
theorem mem_setEntry {entry : Key × Value} (member : entry ∈ setEntry key value entries) :
    entry.1 = key ∨ entry ∈ entries := by
  have placed : entry ∈ (value.map (key, ·)).toList → entry.1 = key := by
    intro here
    cases value with
    | none => simp at here
    | some value => simp at here; rw [here]
  induction entries with
  | nil => exact Or.inl (placed (by simpa [setEntry] using member))
  | cons first rest ih =>
    -- The place of the key is before, at, or behind the first entry.
    rcases first with ⟨other, stored⟩
    simp only [setEntry] at member
    split at member
    · rcases List.mem_append.mp member with here | there
      · exact Or.inl (placed here)
      · exact Or.inr there
    · split at member
      · rcases List.mem_append.mp member with here | there
        · exact Or.inl (placed here)
        · exact Or.inr (List.mem_cons_of_mem _ there)
      · rcases List.mem_cons.mp member with same | there
        · exact Or.inr (same ▸ List.mem_cons_self)
        · exact (ih there).imp id (List.mem_cons_of_mem _)

/-- Setting a key keeps the entries in order. -/
theorem keySorted_setEntry (sorted : KeySorted entries) :
    KeySorted (setEntry key value entries) := by
  -- The entry goes between those of smaller and of greater keys.
  have placed {rest : List (Key × Value)} (above : ∀ entry ∈ rest, key < entry.1)
      (inner : KeySorted rest) : KeySorted ((value.map (key, ·)).toList ++ rest) := by
    cases value with
    | none => exact inner
    | some value => exact List.pairwise_cons.mpr ⟨above, inner⟩
  induction entries with
  | nil => exact placed (List.forall_mem_nil _) List.Pairwise.nil
  | cons first rest ih =>
    rcases first with ⟨other, stored⟩
    obtain ⟨above, inner⟩ := List.pairwise_cons.mp sorted
    simp only [setEntry]
    split
    · rename_i below
      refine placed (fun entry member => ?_) sorted
      rcases List.mem_cons.mp member with rfl | member
      · exact below
      · exact lt_trans below (above entry member)
    · rename_i notBelow
      split
      · rename_i same
        exact placed (fun entry member => same ▸ above entry member) inner
      · rename_i differ
        have behind : other < key := lt_of_le_of_ne (not_lt.mp notBelow) (Ne.symm differ)
        refine List.pairwise_cons.mpr ⟨fun entry member => ?_, ih inner⟩
        rcases mem_setEntry member with same | there
        · rw [same]; exact behind
        · exact above entry there

/-- A key below every entry is not found. -/
theorem getEntry_below (below : ∀ entry ∈ entries, key < entry.1) :
    getEntry key entries = none := by
  induction entries with
  | nil => rfl
  | cons first rest ih =>
    have differ : first.1 ≠ key := (below first List.mem_cons_self).ne'
    rw [getEntry, if_neg differ]
    exact ih fun entry member => below entry (List.mem_cons_of_mem _ member)

/-- A set is read back at its own key, and every other key reads as before. -/
theorem getEntry_setEntry {other : Key} (sorted : KeySorted entries) :
    getEntry other (setEntry key value entries) =
      if other = key then value else getEntry other entries := by
  have placed (rest : List (Key × Value)) (absent : getEntry key rest = none) :
      getEntry other ((value.map (key, ·)).toList ++ rest) =
        if other = key then value else getEntry other rest := by
    by_cases same : other = key
    · subst same
      cases value <;> simp [getEntry, absent]
    · cases value <;> simp [getEntry, same, Ne.symm same]
  induction entries with
  | nil => exact placed [] rfl
  | cons first rest ih =>
    rcases first with ⟨here, stored⟩
    obtain ⟨above, inner⟩ := List.pairwise_cons.mp sorted
    simp only [setEntry]
    split
    · rename_i below
      refine placed _ (getEntry_below fun entry member => ?_)
      rcases List.mem_cons.mp member with rfl | member
      · exact below
      · exact lt_trans below (above entry member)
    · rename_i notBelow
      split
      · -- The entry at the key is replaced, and no other entry has its key.
        rename_i same
        subst same
        rw [placed rest (getEntry_below above), getEntry]
        by_cases wanted : other = key
        · simp [wanted]
        · simp [wanted, Ne.symm wanted]
      · rename_i differ
        rw [getEntry, getEntry, ih inner]
        by_cases wanted : here = other
        · have away : other ≠ key := fun same => differ (same ▸ wanted).symm
          simp [wanted, away]
        · simp [wanted]

/-- Counting the entries that satisfy a predicate changes by the one entry that was set. -/
theorem countP_setEntry (counts : Value → Bool) (sorted : KeySorted entries) :
    (setEntry key value entries).countP (fun entry => counts entry.2) +
        ((getEntry key entries).any counts).toNat =
      entries.countP (fun entry => counts entry.2) + (value.any counts).toNat := by
  have placed (rest : List (Key × Value)) :
      ((value.map (key, ·)).toList ++ rest).countP (fun entry => counts entry.2) =
        rest.countP (fun entry => counts entry.2) + (value.any counts).toNat := by
    cases value with
    | none => simp
    | some value => cases counted : counts value <;> simp [counted]
  induction entries with
  | nil => exact placed []
  | cons first rest ih =>
    rcases first with ⟨here, stored⟩
    obtain ⟨above, inner⟩ := List.pairwise_cons.mp sorted
    simp only [setEntry]
    split
    · rename_i below
      have absent : getEntry key ((here, stored) :: rest) = none := by
        refine getEntry_below fun entry member => ?_
        rcases List.mem_cons.mp member with rfl | member
        · exact below
        · exact lt_trans below (above entry member)
      rw [placed, absent]
      rfl
    · split
      · -- The stored entry leaves the count as the new one enters it.
        rename_i same
        subst same
        rw [placed, List.countP_cons]
        cases counted : counts stored <;> simp [getEntry, counted]; omega
      · rename_i differ
        have rest := ih inner
        rw [List.countP_cons, List.countP_cons, getEntry, if_neg (Ne.symm differ)]
        omega

/-- A table keeps its entries in order of their keys. -/
structure SortedTable (Key Value : Type) [LinearOrder Key] where
  entries : List (Key × Value)
  sorted : KeySorted entries

/-- The table without entries. -/
def SortedTable.empty : SortedTable Key Value := { entries := [], sorted := List.Pairwise.nil }

/-- Look a key up. -/
def SortedTable.get (table : SortedTable Key Value) (key : Key) : Option Value :=
  getEntry key table.entries

/-- Put a value in the place of a key, or clear that place when there is no value. -/
def SortedTable.set (table : SortedTable Key Value) (key : Key) (value : Option Value) :
    SortedTable Key Value :=
  { entries := setEntry key value table.entries, sorted := keySorted_setEntry table.sorted }

/-- How many entries satisfy a predicate. -/
def SortedTable.count (table : SortedTable Key Value) (counts : Value → Bool) : Nat :=
  table.entries.countP fun entry => counts entry.2

/-- A set is read back at its own key, and every other key reads as before. -/
@[simp] theorem SortedTable.get_set (table : SortedTable Key Value) (key other : Key)
    (value : Option Value) :
    (table.set key value).get other = if other = key then value else table.get other :=
  getEntry_setEntry table.sorted

/-- Setting a key takes its old entry out of a count and puts the new one in. -/
theorem SortedTable.count_set (table : SortedTable Key Value) (key : Key) (value : Option Value)
    (counts : Value → Bool) :
    (table.set key value).count counts + ((table.get key).any counts).toNat =
      table.count counts + (value.any counts).toNat :=
  countP_setEntry counts table.sorted

end Tokuft
