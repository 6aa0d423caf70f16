import Mathlib.Data.List.Basic

/-! Reading a stack of versions: a reader gets the first that it accepts, or else the last. -/

namespace Tokuft

variable {Item : Type} {accepts : Item → Bool} {items : List Item}

/-- The first item that a reader accepts, or the last, about which the reader is not asked. -/
def firstOrLast (accepts : Item → Bool) : List Item → Option Item
  | [] => none
  | [last] => some last
  | item :: next :: older =>
    if accepts item then some item else firstOrLast accepts (next :: older)

/-- With more below it, an item is given to a reader that accepts it, and passed over otherwise. -/
theorem firstOrLast_cons (item : Item) (more : items ≠ []) :
    firstOrLast accepts (item :: items) =
      if accepts item then some item else firstOrLast accepts items := by
  cases items with
  | nil => exact absurd rfl more
  | cons next older => rfl

/-- A stack that is not empty gives every reader something. -/
theorem firstOrLast_exists (some : items ≠ []) :
    ∃ item ∈ items, firstOrLast accepts items = Option.some item := by
  -- By induction on the stack.
  induction items with
  | nil => exact absurd rfl some
  | cons item older ih =>
    cases older with
    | nil => exact ⟨item, List.mem_cons_self, rfl⟩
    | cons next rest =>
      rw [firstOrLast_cons item (List.cons_ne_nil next rest)]
      split
      · exact ⟨item, List.mem_cons_self, rfl⟩
      · obtain ⟨given, member, found⟩ := ih (List.cons_ne_nil next rest)
        exact ⟨given, List.mem_cons_of_mem _ member, found⟩

/-- Above a stack that is not empty the first accepted item is found. -/
theorem firstOrLast_append {front back : List Item} (more : back ≠ []) :
    firstOrLast accepts (front ++ back) = (front.find? accepts).or (firstOrLast accepts back) := by
  induction front with
  | nil => rfl
  | cons item rest ih =>
    have below : rest ++ back ≠ [] := List.append_ne_nil_of_right_ne_nil rest more
    rw [List.cons_append, firstOrLast_cons item below, ih]
    -- Both sides stop at an accepted item and go on behind another one.
    cases taken : accepts item <;> simp [taken]

/-- Two readers that agree on all items but the last are given the same. -/
theorem firstOrLast_congr {others : Item → Bool}
    (agree : ∀ item ∈ items.dropLast, accepts item = others item) :
    firstOrLast accepts items = firstOrLast others items := by
  -- By induction on the items.
  induction items with
  | nil => rfl
  | cons item older ih =>
    cases older with
    | nil => rfl
    | cons next rest =>
      simp only [List.dropLast_cons_cons, List.forall_mem_cons] at agree
      have more : next :: rest ≠ [] := List.cons_ne_nil next rest
      rw [firstOrLast_cons item more, firstOrLast_cons item more, agree.1, ih agree.2]

/-- Two stacks with the same items above and alike below are read alike. -/
theorem firstOrLast_append_congr {Value : Type} {value : Item → Value}
    {front back other : List Item} (more : back ≠ []) (others : other ≠ [])
    (alike : (firstOrLast accepts back).map value = (firstOrLast accepts other).map value) :
    (firstOrLast accepts (front ++ back)).map value =
      (firstOrLast accepts (front ++ other)).map value := by
  rw [firstOrLast_append more, firstOrLast_append others]
  -- What is found above hides what is below.
  cases front.find? accepts with
  | none => simpa using alike
  | some item => rfl

end Tokuft
