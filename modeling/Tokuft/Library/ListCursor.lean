import Tokuft.Basic

/-! A cursor over a list, which jumps to either end and moves by one element in either direction. -/

namespace Tokuft

/-- What a cursor is asked to do. -/
inductive CursorCall where
  | first
  | last
  | next
  | prev
  deriving DecidableEq, Repr

namespace ListCursor

variable {Item : Type}

/-- Jump to the first item. -/
def first (items : List Item) : Option Nat × Option Item :=
  match items.head? with
  | some item => (some 0, some item)
  | none => (none, none)

/-- Jump to the last item. -/
def last (items : List Item) : Option Nat × Option Item :=
  match items.getLast? with
  | some item => (some (items.length - 1), some item)
  | none => (none, none)

/-- Move to the next item, or to the first one without a current item. -/
def next (items : List Item) : Option Nat → Option Nat × Option Item
  | none => first items
  | some current =>
    match items[current + 1]? with
    | some item => (some (current + 1), some item)
    | none => (none, none)

/-- Move to the item before, or to the last one without a current item. -/
def prev (items : List Item) : Option Nat → Option Nat × Option Item
  | none => last items
  | some 0 => (none, none)
  | some (current + 1) =>
    match items[current]? with
    | some item => (some current, some item)
    | none => (none, none)

/-- The position after a call, and the item that is returned; past either end there is no current
item. -/
def call (items : List Item) (current : Option Nat) : CursorCall → Option Nat × Option Item
  | .first => first items
  | .last => last items
  | .next => next items current
  | .prev => prev items current

/-- The items that a sequence of calls returns. -/
def answers (items : List Item) : Option Nat → List CursorCall → List (Option Item)
  | _, [] => []
  | current, asked :: calls =>
    (call items current asked).2 :: answers items (call items current asked).1 calls

variable {passed ahead : List Item} {item other : Item}

/-- The last item of a list is at its end. -/
theorem last_append : last (passed ++ [item]) = (some passed.length, some item) := by
  simp [last]

/-- The next item is the one ahead. -/
theorem next_ahead : next (passed ++ item :: other :: ahead) (some passed.length) =
    (some (passed.length + 1), some other) := by
  simp [next]

/-- No item is next when none is ahead. -/
theorem next_end : next (passed ++ [item]) (some passed.length) = (none, none) := by
  simp [next]

/-- The item before is the one that was passed last. -/
theorem prev_passed : prev (passed ++ other :: item :: ahead) (some (passed.length + 1)) =
    (some passed.length, some other) := by
  simp [prev]

section Images

variable {Other : Type} (view : Item → Other) (items : List Item)

/-- A call on the images of items returns the image of what it returns on the items. -/
theorem call_map (current : Option Nat) (asked : CursorCall) :
    call (items.map view) current asked =
      ((call items current asked).1, (call items current asked).2.map view) := by
  have firsts : first (items.map view) = ((first items).1, (first items).2.map view) := by
    cases items <;> rfl
  have lasts : last (items.map view) = ((last items).1, (last items).2.map view) := by
    simp only [last, List.getLast?_map, List.length_map]
    cases items.getLast? <;> rfl
  cases asked with
  | first => exact firsts
  | last => exact lasts
  | next =>
    cases current with
    | none => exact firsts
    | some current =>
      simp only [call, next, List.getElem?_map]
      cases items[current + 1]? <;> rfl
  | prev =>
    match current with
    | none => exact lasts
    | some 0 => rfl
    | some (current + 1) =>
      simp only [call, prev, List.getElem?_map]
      cases items[current]? <;> rfl

/-- Calls on the images of items return the images of what they return on the items. -/
theorem answers_map (current : Option Nat) (calls : List CursorCall) :
    answers (items.map view) current calls =
      (answers items current calls).map (Option.map view) := by
  induction calls generalizing current with
  | nil => rfl
  | cons asked calls ih => rw [answers, answers, call_map, ih, List.map_cons]

end Images

end ListCursor

end Tokuft
