import Mathlib.Algebra.BigOperators.Group.List.Basic

/-! Replacing a stretch of a list by other items, and what that does to sums over the list. -/

namespace Tokuft

variable {Item : Type}

/-- Put other items in the place of a number of items, from an index on. -/
def splice (items : List Item) (start count : Nat) (new : List Item) : List Item :=
  -- What stands before and behind the stretch stays where it is.
  items.take start ++ new ++ items.drop (start + count)

variable {items : List Item} {start count index : Nat} {item : Item} {Value : Type}

/-- An item of a list that was spliced is one of the new ones or was there before. -/
theorem mem_splice {new : List Item} (member : item ∈ splice items start count new) :
    item ∈ new ∨ item ∈ items := by
  rw [splice, List.mem_append, List.mem_append] at member
  rcases member with (early | placed) | late
  · exact Or.inr (List.mem_of_mem_take early)
  · exact Or.inl placed
  · exact Or.inr (List.mem_of_mem_drop late)

/-- Splicing takes the values of the old items out of a sum and puts those of the new ones in. -/
theorem sum_splice [AddCommMonoid Value] (value : Item → Value) {old : List Item}
    (found : (items.drop start).take count = old) (new : List Item) :
    ((splice items start count new).map value).sum + (old.map value).sum =
      (items.map value).sum + (new.map value).sum := by
  -- The list falls into what stands before, the stretch, and what stands behind.
  have parts : items = items.take start ++ (old ++ items.drop (start + count)) := by
    rw [← found, ← List.drop_drop, List.take_append_drop, List.take_append_drop]
  have sums := congrArg (fun list => (list.map value).sum) parts
  simp only [List.map_append, List.sum_append] at sums
  rw [sums, splice]
  simp only [List.map_append, List.sum_append]
  ac_rfl

/-- The items of a stretch are items of the list. -/
theorem mem_of_stretch {old : List Item} (stretch : (items.drop start).take count = old)
    (member : item ∈ old) :
    item ∈ items := by
  rw [← stretch] at member
  exact List.mem_of_mem_drop (List.mem_of_mem_take member)

/-- One item at an index is a stretch. -/
theorem stretch_one (here : items[start]? = some item) : (items.drop start).take 1 = [item] := by
  obtain ⟨inside, rfl⟩ := List.getElem?_eq_some_iff.mp here
  rw [List.drop_eq_getElem_cons inside, List.take_succ_cons, List.take_zero]

/-- Two neighbours are a stretch. -/
theorem stretch_two {first second : Item} (here : items[start]? = some first)
    (next : items[start + 1]? = some second) :
    (items.drop start).take 2 = [first, second] := by
  obtain ⟨inside, rfl⟩ := List.getElem?_eq_some_iff.mp here
  obtain ⟨behind, rfl⟩ := List.getElem?_eq_some_iff.mp next
  rw [List.drop_eq_getElem_cons inside, List.take_succ_cons, List.drop_eq_getElem_cons behind,
    List.take_succ_cons, List.take_zero]

/-- The first item of a stretch stands where the stretch begins. -/
theorem head_of_stretch {rest : List Item}
    (stretch : (items.drop start).take count = item :: rest) : items[start]? = some item := by
  cases count with
  | zero => simp at stretch
  | succ count =>
    rw [← List.head?_drop]
    cases behind : items.drop start with
    | nil => simp [behind] at stretch
    | cons first others =>
      rw [behind, List.take_succ_cons] at stretch
      rw [List.head?_cons, (List.cons.inj stretch).1]

/-- Setting an item that is there is splicing it in. -/
theorem set_eq_splice (here : items[index]? = some item) (new : Item) :
    items.set index new = splice items index 1 [new] := by
  have inside := (List.getElem?_eq_some_iff.mp here).1
  rw [splice, List.set_eq_take_append_cons_drop, if_pos inside, List.append_assoc,
    List.singleton_append]

section

variable [AddCommMonoid Value] (value : Item → Value) (here : items[index]? = some item)
include value here

/-- Setting an item changes a sum by the difference of the two values. -/
theorem sum_set_item (new : Item) :
    ((items.set index new).map value).sum + value item = (items.map value).sum + value new := by
  have sums := sum_splice value (stretch_one here) [new]
  rw [← set_eq_splice here] at sums
  simpa using sums

/-- A sum over a list loses what an item that is taken out adds. -/
theorem sum_eraseIdx_item :
    ((items.eraseIdx index).map value).sum + value item = (items.map value).sum := by
  have sums := sum_splice value (stretch_one here) []
  rw [splice, List.append_nil, ← List.eraseIdx_eq_take_drop_succ] at sums
  simpa using sums

end

section Pairs

variable {Other : Type} {related : Item → Other → Prop} {others : List Other}

section

variable (all : List.Forall₂ related items others) {index : Nat} {item : Item}
include all

/-- Items at one place of two lists that are related item by item are related. -/
theorem related_at {other : Other} (here : items[index]? = some item)
    (there : others[index]? = some other) :
    related item other := by
  induction all generalizing index with
  | nil => simp at here
  | cons first rest ih =>
    cases index with
    | zero =>
      cases here
      cases there
      exact first
    | succ index => exact ih here there

/-- An item can be set to one that is related to what the other list has in its place. -/
theorem forall₂_set (fits : ∀ other, others[index]? = some other → related item other) :
    List.Forall₂ related (items.set index item) others := by
  induction all generalizing index with
  | nil => exact .nil
  | cons first rest ih =>
    cases index with
    | zero => exact .cons (fits _ rfl) rest
    | succ index => exact .cons first (ih fits)

end

/-- Relations of items at one place compose. -/
theorem forall₂_comp {Third : Type} {next : Other → Third → Prop} {whole : Item → Third → Prop}
    {thirds : List Third} (all : List.Forall₂ related items others)
    (more : List.Forall₂ next others thirds)
    (composed : ∀ {item other third}, related item other → next other third → whole item third) :
    List.Forall₂ whole items thirds := by
  induction all generalizing thirds with
  | nil =>
    cases more
    exact .nil
  | cons first rest ih =>
    cases more with
    | cons second others => exact .cons (composed first second) (ih others)

end Pairs

end Tokuft
