import Mathlib.Data.List.Basic

/-! Cutting a list into groups, where each item either joins the current group or starts another. -/

namespace Tokuft

variable {Item : Type}

/-- Cut a list before every item that does not go with the current group. -/
def cutGroups (cut : List Item → Item → Bool) : List Item → List Item → List (List Item)
  | current, [] => [current]
  | current, item :: items =>
    if cut current item then current :: cutGroups cut [item] items
    else cutGroups cut (current ++ [item]) items

variable {cut : List Item → Item → Bool}

/-- Nothing is lost or moved. -/
theorem flatten_cutGroups (current items : List Item) :
    (cutGroups cut current items).flatten = current ++ items := by
  induction items generalizing current with
  | nil => simp [cutGroups]
  | cons item items ih =>
    rw [cutGroups]
    split
    · rw [List.flatten_cons, ih, List.singleton_append]
    · rw [ih, List.append_assoc, List.singleton_append]

/-- The first group goes on from the current one. -/
theorem head_cutGroups (cut : List Item → Item → Bool) (current items : List Item) :
    ∃ more rest, cutGroups cut current items = (current ++ more) :: rest := by
  induction items generalizing current with
  | nil => exact ⟨[], [], by rw [cutGroups, List.append_nil]⟩
  | cons item items ih =>
    rw [cutGroups]
    split
    · exact ⟨[], _, by rw [List.append_nil]⟩
    · obtain ⟨more, rest, cuts⟩ := ih (current ++ [item])
      exact ⟨item :: more, rest, by rw [cuts, List.append_assoc, List.singleton_append]⟩

/-- No group is empty unless nothing is there at all. -/
theorem ne_nil_of_mem_cutGroups (never : ∀ item, cut [] item = false) {current items : List Item}
    (some : current ≠ [] ∨ items ≠ []) {group : List Item}
    (member : group ∈ cutGroups cut current items) : group ≠ [] := by
  -- By induction on the items.
  induction items generalizing current with
  | nil =>
    rw [cutGroups, List.mem_singleton] at member
    exact member ▸ some.resolve_right (fun no => no rfl)
  | cons item items ih =>
    rw [cutGroups] at member
    split at member
    · rename_i cuts
      rcases List.mem_cons.mp member with rfl | later
      · rintro rfl
        rw [never item] at cuts
        cases cuts
      · exact ih (.inl (List.cons_ne_nil _ _)) later
    · exact ih (.inl (by simp)) member

end Tokuft
