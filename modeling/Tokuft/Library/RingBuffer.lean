import Mathlib.Data.List.Range

/-! A bounded queue kept in a circular array. -/

namespace Tokuft

/-- A circular array of fixed capacity whose used slots start at a first index and wrap around. -/
structure RingBuffer (α : Type) where
  slots : Nat → α
  capacity : Nat
  first : Nat
  count : Nat
  count_le : count ≤ capacity
  first_lt : 0 < capacity → first < capacity

namespace RingBuffer

variable {α : Type}

/-- The slot that lies a number of places behind the first one. -/
def slotAt (first capacity offset : Nat) : Nat :=
  if capacity ≤ first + offset then first + offset - capacity else first + offset

/-- What the queue holds, oldest first. -/
def contents (buffer : RingBuffer α) : List α :=
  (List.range buffer.count).map fun offset =>
    buffer.slots (slotAt buffer.first buffer.capacity offset)

/-- Put a value behind the others, when there is room. -/
def push (buffer : RingBuffer α) (value : α) : Option (RingBuffer α) :=
  if room : buffer.count < buffer.capacity then
    some {
      slots := Function.update buffer.slots
        (slotAt buffer.first buffer.capacity buffer.count) value
      capacity := buffer.capacity
      first := buffer.first
      count := buffer.count + 1
      count_le := room
      first_lt := buffer.first_lt }
  else none

/-- Take the oldest value out, when there is one. -/
def pop (buffer : RingBuffer α) : Option (α × RingBuffer α) :=
  if 0 < buffer.count then
    some (buffer.slots buffer.first, {
      slots := buffer.slots
      capacity := buffer.capacity
      first := if buffer.capacity ≤ buffer.first + 1 then 0 else buffer.first + 1
      count := buffer.count - 1
      count_le := le_trans (Nat.sub_le _ _) buffer.count_le
      first_lt := by
        intro positive
        split
        · exact positive
        · omega })
  else none

/-- A queue with nothing in it. -/
def empty [Inhabited α] (capacity : Nat) : RingBuffer α where
  slots := fun _ => default
  capacity := capacity
  first := 0
  count := 0
  count_le := Nat.zero_le _
  first_lt := id

/-- The empty queue holds nothing. -/
@[simp] theorem contents_empty [Inhabited α] (capacity : Nat) :
    (empty capacity : RingBuffer α).contents = [] := rfl

/-- Two places less than one turn apart have different slots. -/
theorem slotAt_ne {first capacity near far : Nat} (ordered : near < far)
    (turn : far < capacity) : slotAt first capacity near ≠ slotAt first capacity far := by
  unfold slotAt
  split <;> split <;> omega

/-- A pushed value comes behind what the queue held. -/
theorem contents_push {buffer pushed : RingBuffer α} {value : α}
    (done : buffer.push value = some pushed) :
    pushed.contents = buffer.contents ++ [value] := by
  unfold push at done
  split at done
  · rename_i room
    obtain rfl := Option.some.inj done
    -- The new slot is none of the slots in use, so they read as before.
    have kept : ∀ offset ∈ List.range buffer.count,
        Function.update buffer.slots (slotAt buffer.first buffer.capacity buffer.count) value
          (slotAt buffer.first buffer.capacity offset) =
        buffer.slots (slotAt buffer.first buffer.capacity offset) := by
      intro offset member
      apply Function.update_of_ne
      exact slotAt_ne (List.mem_range.mp member) room
    simp only [contents, List.range_succ, List.map_append, List.map_cons, List.map_nil,
      Function.update_self]
    rw [List.map_congr_left kept]
  · simp at done

/-- A popped value was the oldest one in the queue. -/
theorem contents_pop {buffer popped : RingBuffer α} {value : α}
    (done : buffer.pop = some (value, popped)) :
    buffer.contents = value :: popped.contents := by
  unfold pop at done
  split at done
  · rename_i held
    obtain ⟨rfl, rfl⟩ := Prod.mk.inj (Option.some.inj done)
    have bounded := buffer.count_le
    have inside : buffer.first < buffer.capacity := buffer.first_lt (by omega)
    obtain ⟨others, counted⟩ : ∃ others, buffer.count = others + 1 :=
      ⟨buffer.count - 1, by omega⟩
    -- Counting from the next slot, each remaining value is one place nearer.
    have shifted : ∀ offset ∈ List.range others,
        slotAt buffer.first buffer.capacity (offset + 1) =
        slotAt (if buffer.capacity ≤ buffer.first + 1 then 0 else buffer.first + 1)
          buffer.capacity offset := by
      intro offset member
      have near := List.mem_range.mp member
      unfold slotAt
      split <;> split <;> split <;> omega
    have start : slotAt buffer.first buffer.capacity 0 = buffer.first := by
      unfold slotAt
      split <;> omega
    simp only [contents, counted, List.range_succ_eq_map, List.map_cons, List.map_map, start,
      Nat.add_sub_cancel]
    congr 1
    apply List.map_congr_left
    intro offset member
    exact congrArg buffer.slots (shifted offset member)
  · simp at done

end RingBuffer

end Tokuft
