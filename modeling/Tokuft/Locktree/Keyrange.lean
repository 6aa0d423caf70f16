import Mathlib.Order.Interval.Set.LinearOrder
import Tokuft.Basic

/-! Ranges of keys, how they compare, and what they cover. -/

namespace Tokuft

/-- A range of keys with both ends inside, where an end may be infinitely small or large. -/
structure Keyrange (Key : Type) where
  left : Key
  right : Key
  deriving DecidableEq, Repr

/-- How one range lies with respect to another. -/
inductive KeyrangeComparison where
  | equals
  | lessThan
  | greaterThan
  | overlaps
  deriving DecidableEq, Repr

namespace Keyrange

variable {Key : Type} [LinearOrder Key]

/-- Compare a range with another one. -/
def compare (range other : Keyrange Key) : KeyrangeComparison :=
  if range.right < other.left then .lessThan
  else if other.right < range.left then .greaterThan
  else if range.left = other.left ∧ range.right = other.right then .equals
  else .overlaps

/-- Equality is a stronger form of overlapping. -/
def overlaps (range other : Keyrange Key) : Bool :=
  range.compare other = .equals || range.compare other = .overlaps

/-- The range from the leftmost to the rightmost end of two ranges. -/
def extend (range other : Keyrange Key) : Keyrange Key where
  left := if other.left < range.left then other.left else range.left
  right := if range.right < other.right then other.right else range.right

/-- The range of all keys. -/
def infinite [BoundedOrder Key] : Keyrange Key where
  left := ⊥
  right := ⊤

/-- Ranges that are locked have their ends in order. -/
def Ordered (range : Keyrange Key) : Prop := range.left ≤ range.right

/-- The keys in a range. -/
def keys (range : Keyrange Key) : Set Key := Set.Icc range.left range.right

/-- A range lies wholly before another one. -/
def Before (range other : Keyrange Key) : Prop := range.right < other.left

instance (range : Keyrange Key) : Decidable range.Ordered :=
  inferInstanceAs (Decidable (range.left ≤ range.right))

instance (range other : Keyrange Key) : Decidable (range.Before other) :=
  inferInstanceAs (Decidable (range.right < other.left))

variable {range other : Keyrange Key}

/-- A range compares as less exactly when it lies before the other. -/
theorem compare_eq_lessThan :
    range.compare other = .lessThan ↔ range.Before other := by
  unfold compare Before
  split
  · simpa
  · rename_i notLess
    split
    · simp [notLess]
    · split <;> simp [notLess]

/-- A range with ends in order compares as greater exactly when it lies behind the other. -/
theorem compare_eq_greaterThan (ordered : range.Ordered) (otherOrdered : other.Ordered) :
    range.compare other = .greaterThan ↔ other.Before range := by
  -- The first comparison fails when the range lies behind.
  unfold compare Before
  unfold Ordered at ordered otherOrdered
  split
  · rename_i less
    simp only [reduceCtorEq, false_iff, not_lt]
    exact le_trans ordered (le_trans less.le otherOrdered)
  · split
    · simpa
    · rename_i notGreater
      split <;> simp [notGreater]

/-- Only equal ranges compare as equal. -/
theorem eq_of_compare_eq_equals (equal : range.compare other = .equals) : range = other := by
  -- Neither lies before the other, and both ends are equal.
  unfold compare at equal
  split at equal
  · cases equal
  · split at equal
    · cases equal
    · split at equal
      · rename_i same
        cases range
        cases other
        simp only at same
        rw [same.1, same.2]
      · cases equal

/-- A range with ends in order compares as equal to itself. -/
theorem compare_self (ordered : range.Ordered) :
    range.compare range = .equals := by
  unfold Ordered at ordered
  simp [compare, not_lt.mpr ordered]

/-- Two ranges overlap unless one lies before the other. -/
theorem overlaps_iff :
    range.overlaps other = true ↔ ¬ range.Before other ∧ ¬ other.Before range := by
  unfold overlaps compare Before
  split
  · rename_i less
    simp [less]
  · rename_i notLess
    split
    · rename_i greater
      simp [greater]
    · rename_i notGreater
      split <;> simp [notLess, notGreater]

/-- Overlapping does not depend on the order of the two ranges. -/
theorem overlaps_comm :
    range.overlaps other = other.overlaps range := by
  rw [Bool.eq_iff_iff, overlaps_iff, overlaps_iff]
  exact and_comm

/-- Ranges with their ends in order overlap exactly when they share a key. -/
theorem overlaps_iff_shared (ordered : range.Ordered) (otherOrdered : other.Ordered) :
    range.overlaps other = true ↔ ∃ key, key ∈ range.keys ∧ key ∈ other.keys := by
  rw [overlaps_iff]
  unfold Before keys
  unfold Ordered at ordered otherOrdered
  constructor
  · rintro ⟨notLess, notGreater⟩
    -- The larger of the left ends lies in both.
    refine ⟨max range.left other.left, ⟨le_max_left _ _, ?_⟩, ⟨le_max_right _ _, ?_⟩⟩
    · exact max_le ordered (not_lt.mp notLess)
    · exact max_le (not_lt.mp notGreater) otherOrdered
  · rintro ⟨key, ⟨atLeast, atMost⟩, otherAtLeast, otherAtMost⟩
    exact ⟨not_lt.mpr (le_trans otherAtLeast atMost), not_lt.mpr (le_trans atLeast otherAtMost)⟩

/-- The extended range runs from the smaller left end to the larger right end. -/
theorem extend_eq (range other : Keyrange Key) :
    range.extend other =
      { left := min range.left other.left, right := max range.right other.right } := by
  -- End by end.
  unfold extend
  congr 1
  · split
    · rename_i less
      exact (min_eq_right less.le).symm
    · rename_i notLess
      exact (min_eq_left (not_lt.mp notLess)).symm
  · split
    · rename_i less
      exact (max_eq_right less.le).symm
    · rename_i notLess
      exact (max_eq_left (not_lt.mp notLess)).symm

/-- An extended range has its ends in order. -/
theorem extend_ordered (ordered : range.Ordered) :
    (range.extend other).Ordered := by
  rw [extend_eq]
  exact le_trans (min_le_left _ _) (le_trans ordered (le_max_left _ _))

/-- Extending a range by one that overlaps it adds the keys of that one and no others. -/
theorem keys_extend (overlap : range.overlaps other = true) :
    (range.extend other).keys = range.keys ∪ other.keys := by
  obtain ⟨notLess, notGreater⟩ := overlaps_iff.mp overlap
  rw [extend_eq]
  exact (Set.Icc_union_Icc' (not_lt.mp notLess) (not_lt.mp notGreater)).symm

/-- Extending a range keeps it overlapping with whatever it overlapped. -/
theorem extend_overlaps {third : Keyrange Key} (overlap : range.overlaps third = true) :
    (range.extend other).overlaps third = true := by
  obtain ⟨notLess, notGreater⟩ := overlaps_iff.mp overlap
  unfold Before at notLess notGreater
  rw [extend_eq, overlaps_iff]
  refine ⟨not_lt.mpr (le_trans (not_lt.mp notLess) (le_max_left _ _)),
    not_lt.mpr (le_trans (min_le_left _ _) (not_lt.mp notGreater))⟩

/-- A range with its ends in order has its left end in it. -/
theorem left_mem_keys (ordered : range.Ordered) :
    range.left ∈ range.keys := ⟨le_refl _, ordered⟩

end Keyrange

/-- Runs on given ranges of keys have ten of them. -/
instance tenKeys : NeZero 10 := ⟨by decide⟩

end Tokuft
