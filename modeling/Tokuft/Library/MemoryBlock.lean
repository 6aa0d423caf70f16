import Mathlib.Data.List.Basic

/-! Blocks of memory: reading a range, copying into one, moving within, and growing or shrinking. -/

namespace Tokuft

variable {Cell : Type}

/-- A range of a block, from an offset on. -/
def peek (block : List Cell) (offset count : Nat) : List Cell := (block.drop offset).take count

/-- Overwrite a block from an offset on. -/
def memcpy (block : List Cell) (offset : Nat) (data : List Cell) : List Cell :=
  block.take offset ++ data ++ block.drop (offset + data.length)

/-- Move a range within a block, where the old and the new place may overlap. -/
def memmove (block : List Cell) (target source count : Nat) : List Cell :=
  memcpy block target (peek block source count)

/-- Change the size of a block, with a filling where it grows. -/
def resize (filling : Cell) (block : List Cell) (size : Nat) : List Cell :=
  (block ++ List.replicate (size - block.length) filling).take size

variable {block data : List Cell} {offset count : Nat}

/-- What a range holds, cell by cell. -/
theorem getElem?_peek (block : List Cell) (offset count i : Nat) :
    (peek block offset count)[i]? = if i < count then block[offset + i]? else none := by
  rw [peek, List.getElem?_take]
  split
  · rw [List.getElem?_drop]
  · rfl

/-- A range that is inside its block is as long as it says. -/
theorem length_peek (inside : offset + count ≤ block.length) :
    (peek block offset count).length = count := by
  rw [peek, List.length_take, List.length_drop]
  omega

section

variable (inside : offset + data.length ≤ block.length)
include inside

/-- What a block holds after a copy, cell by cell. -/
theorem getElem?_memcpy (i : Nat) :
    (memcpy block offset data)[i]? =
      if i < offset then block[i]?
      else if i < offset + data.length then data[i - offset]? else block[i]? := by
  have front : (block.take offset).length = offset := by rw [List.length_take]; omega
  rw [memcpy, List.append_assoc]
  split
  · rw [List.getElem?_append_left (by omega), List.getElem?_take_of_lt (by assumption)]
  · rw [List.getElem?_append_right (by omega), front]
    split
    · rw [List.getElem?_append_left (by omega)]
    · rw [List.getElem?_append_right (by omega), List.getElem?_drop]
      congr 1
      omega

/-- A copy keeps the size of a block. -/
theorem length_memcpy :
    (memcpy block offset data).length = block.length := by
  rw [memcpy, List.length_append, List.length_append, List.length_take, List.length_drop]
  omega

/-- What was copied is read back, and so is every part of it. -/
theorem peek_memcpy_inside {start : Nat} (above : offset ≤ start)
    (below : start + count ≤ offset + data.length) :
    peek (memcpy block offset data) start count = peek data (start - offset) count := by
  refine List.ext_getElem? fun i => ?_
  rw [getElem?_peek, getElem?_peek]
  split
  · rw [getElem?_memcpy inside, if_neg (by omega), if_pos (by omega)]
    congr 1
    omega
  · rfl

/-- A copy leaves what is beside it. -/
theorem peek_memcpy_beside {start : Nat}
    (beside : start + count ≤ offset ∨ offset + data.length ≤ start) :
    peek (memcpy block offset data) start count = peek block start count := by
  refine List.ext_getElem? fun i => ?_
  rw [getElem?_peek, getElem?_peek]
  split
  · rw [getElem?_memcpy inside]
    split
    · rfl
    · rw [if_neg (by omega)]
  · rfl

end

/-- A whole block is its range. -/
theorem peek_self (data : List Cell) : peek data 0 data.length = data := by
  rw [peek, List.drop_zero, List.take_length]

/-- What was copied is read back. -/
theorem peek_memcpy_self (inside : offset + data.length ≤ block.length) :
    peek (memcpy block offset data) offset data.length = data := by
  rw [peek_memcpy_inside inside (Nat.le_refl _) (Nat.le_refl _), Nat.sub_self, peek_self]

/-- A range of a range is a range. -/
theorem peek_peek {start length : Nat} (inside : start + count ≤ length) :
    peek (peek block offset length) start count = peek block (offset + start) count := by
  refine List.ext_getElem? fun i => ?_
  rw [getElem?_peek, getElem?_peek, getElem?_peek]
  split
  · rw [if_pos (by omega), Nat.add_assoc]
  · rfl

/-- A new size is as it says. -/
theorem length_resize (filling : Cell) (block : List Cell) (size : Nat) :
    (resize filling block size).length = size := by
  rw [resize, List.length_take, List.length_append, List.length_replicate]
  omega

/-- A new size keeps what was there and still is. -/
theorem peek_resize (filling : Cell) {size : Nat} (inside : offset + count ≤ block.length)
    (kept : offset + count ≤ size) :
    peek (resize filling block size) offset count = peek block offset count := by
  refine List.ext_getElem? fun i => ?_
  rw [getElem?_peek, getElem?_peek]
  split
  · rw [resize, List.getElem?_take_of_lt (by omega), List.getElem?_append_left (by omega)]
  · rfl

section Moving

variable {target source : Nat}

section

variable (sourceInside : source + count ≤ block.length)
  (targetInside : target + count ≤ block.length)
include sourceInside targetInside

/-- Moving keeps the size of a block. -/
theorem length_memmove :
    (memmove block target source count).length = block.length :=
  length_memcpy (by rwa [length_peek sourceInside])

/-- What was moved is read at its new place. -/
theorem peek_memmove_inside {start length : Nat} (above : target ≤ start)
    (below : start + length ≤ target + count) :
    peek (memmove block target source count) start length =
      peek block (source + (start - target)) length := by
  have long := length_peek sourceInside
  rw [memmove, peek_memcpy_inside (by rwa [long]) above (by rwa [long]),
    peek_peek (by omega)]

/-- Moving leaves what is beside the new place. -/
theorem peek_memmove_beside {start length : Nat}
    (beside : start + length ≤ target ∨ target + count ≤ start) :
    peek (memmove block target source count) start length = peek block start length := by
  have long := length_peek sourceInside
  exact peek_memcpy_beside (by rwa [long]) (by rwa [long])

end

end Moving

end Tokuft
