import Mathlib.Data.List.Nodup

/-! Lists kept by pointers to their ends, and lists of whoever is at some place. -/

namespace Tokuft

section Linked

variable {Item : Type}

/-- Following the pointers from an item on gives a list. -/
def Chained (next : Item → Option Item) : Option Item → List Item → Prop
  | head, [] => head = none
  | head, item :: items => head = some item ∧ Chained next (next item) items

/-- A list is kept by its first item, its last one, and a pointer in each to the one after it. -/
structure Linked (head tail : Option Item) (next : Item → Option Item) (items : List Item) :
    Prop where
  chained : Chained next head items
  last : tail = items.getLast?
  nodup : items.Nodup

namespace Linked

variable {head tail : Option Item} {next : Item → Option Item} {items : List Item}

/-- Nothing is kept by no pointers. -/
theorem empty (next : Item → Option Item) : Linked none none next [] :=
  ⟨rfl, rfl, List.nodup_nil⟩

/-- The first pointer is absent only for an empty list. -/
theorem head_eq (linked : Linked head tail next items) : head = items.head? := by
  cases items with
  | nil => exact linked.chained
  | cons first items => exact linked.chained.1

/-- Put the first item into an empty list. -/
theorem push_empty (linked : Linked head tail next items) (noTail : tail = none) {item : Item}
    (end' : next item = none) : head = none ∧ Linked (some item) (some item) next [item] := by
  -- A list without a last item is empty.
  have none : items = [] := by
    rw [← List.getLast?_eq_none_iff, ← linked.last, noTail]
  subst none
  exact ⟨linked.chained, ⟨rfl, end'⟩, rfl, List.nodup_singleton _⟩

end Linked

variable [DecidableEq Item]

section

variable {next : Item → Option Item} {head : Option Item} {items : List Item}

/-- A pointer out of the list does not matter. -/
theorem Chained.update (chained : Chained next head items) {item : Item} (outside : item ∉ items)
    (value : Option Item) : Chained (Function.update next item value) head items := by
  -- The induction goes along the list, whose pointers are all those of other items.
  induction items generalizing head with
  | nil => exact chained
  | cons first items ih =>
    have different : first ≠ item := fun same => outside (same ▸ List.mem_cons_self)
    refine ⟨chained.1, ?_⟩
    rw [Function.update_of_ne different]
    exact ih chained.2 fun member => outside (List.mem_cons_of_mem _ member)

/-- An item is put after the last one. -/
theorem Chained.snoc {tail item : Item} (chained : Chained next head (items ++ [tail]))
    (nodup : (items ++ [tail]).Nodup) (outside : item ∉ items ++ [tail]) (end' : next item = none) :
    Chained (Function.update next tail (some item)) head (items ++ [tail, item]) := by
  -- Only the pointer of the last item changes, which no item before it is.
  induction items generalizing head with
  | nil =>
    have different : item ≠ tail := fun same => outside (by simp [same])
    refine ⟨chained.1, ?_⟩
    rw [Function.update_self]
    exact ⟨rfl, by rw [Function.update_of_ne different, end']; exact rfl⟩
  | cons first items ih =>
    have apart : first ∉ items ++ [tail] ∧ (items ++ [tail]).Nodup := by simpa using nodup
    have different : first ≠ tail := fun same => apart.1 (by simp [same])
    refine ⟨chained.1, ?_⟩
    rw [Function.update_of_ne different]
    exact ih chained.2 apart.2 fun member => outside (List.mem_cons_of_mem _ member)

end

namespace Linked

variable {head tail : Option Item} {next : Item → Option Item} {items : List Item}

/-- A pointer out of the list does not matter. -/
theorem update (linked : Linked head tail next items) {item : Item} (outside : item ∉ items)
    (value : Option Item) : Linked head tail (Function.update next item value) items :=
  ⟨linked.chained.update outside value, linked.last, linked.nodup⟩

/-- Put an item after the last one. -/
theorem push_last (linked : Linked head tail next items) {last item : Item}
    (isTail : tail = some last) (outside : item ∉ items) (end' : next item = none) :
    Linked head (some item) (Function.update next last (some item)) (items ++ [item]) := by
  -- The list ends with the item that the last pointer names.
  obtain ⟨before, rfl⟩ : ∃ before, items = before ++ [last] :=
    List.getLast?_eq_some_iff.mp (linked.last.symm.trans isTail)
  constructor
  · rw [List.append_assoc]
    exact linked.chained.snoc linked.nodup outside end'
  · simp
  · exact linked.nodup.append (List.nodup_singleton _) (by simpa using outside)

/-- Take the first item off. -/
theorem pop {item : Item} (linked : Linked head tail next (item :: items)) :
    Linked (next item) (if tail = some item then none else tail) next items := by
  have apart := List.nodup_cons.mp linked.nodup
  refine ⟨linked.chained.2, ?_, apart.2⟩
  rw [linked.last]
  cases items with
  | nil => simp
  | cons second items =>
    -- The last item is another one, since no item is there twice.
    have different : (second :: items).getLast? ≠ some item := fun same =>
      apart.1 (List.mem_of_getLast? same)
    rw [List.getLast?_cons_cons, if_neg different]

end Linked

end Linked

section Census

variable {Thread Place : Type}

/-- A list names everyone who is at a place, each once. -/
structure Census (phase : Thread → Place) (place : Place) (list : List Thread) : Prop where
  nodup : list.Nodup
  mem_iff : ∀ t, t ∈ list ↔ phase t = place

namespace Census

variable {phase : Thread → Place} {place other : Place} {list : List Thread} {t : Thread}

/-- Nobody is at a place when all are elsewhere. -/
theorem nobody (elsewhere : ∀ t, phase t ≠ place) : Census phase place [] :=
  ⟨List.nodup_nil, fun t => by simp [elsewhere t]⟩

/-- The list of a place where someone is has someone in it. -/
theorem pos (census : Census phase place list) (inside : phase t = place) : 0 < list.length :=
  List.length_pos_of_mem ((census.mem_iff t).mpr inside)

/-- Everyone at one place moves to another one where nobody is. -/
theorem move [DecidableEq Place] (census : Census phase place list)
    (empty : Census phase other []) :
    Census (fun t => if phase t = place then other else phase t) other list := by
  refine ⟨census.nodup, fun t => ?_⟩
  have absent : phase t ≠ other := fun there => by simpa using (empty.mem_iff t).mpr there
  rw [census.mem_iff]
  by_cases inside : phase t = place
  · simp [inside]
  · simp [inside, absent]

variable [DecidableEq Thread]

section

variable (census : Census phase place list)
include census

/-- Someone comes to the place. -/
theorem enter (outside : phase t ≠ place) :
    Census (Function.update phase t place) place (t :: list) := by
  have absent : t ∉ list := fun member => outside ((census.mem_iff t).mp member)
  refine ⟨List.nodup_cons.mpr ⟨absent, census.nodup⟩, fun u => ?_⟩
  rw [List.mem_cons, census.mem_iff]
  by_cases same : u = t
  · simp [same]
  · simp [same]

/-- Someone leaves the place. -/
theorem leave (elsewhere : other ≠ place) :
    Census (Function.update phase t other) place (list.erase t) := by
  refine ⟨census.nodup.erase t, fun u => ?_⟩
  rw [census.nodup.mem_erase_iff, census.mem_iff]
  by_cases same : u = t
  · simp [same, elsewhere]
  · simp [same]

/-- Someone moves between two other places. -/
theorem stay (outside : phase t ≠ place) (elsewhere : other ≠ place) :
    Census (Function.update phase t other) place list := by
  refine ⟨census.nodup, fun u => ?_⟩
  rw [census.mem_iff]
  by_cases same : u = t
  · simp [same, outside, elsewhere]
  · simp [same]

end

end Census

end Census

end Tokuft
