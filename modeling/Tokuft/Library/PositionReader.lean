import Mathlib.Algebra.Order.BigOperators.Ring.Finset

/-! Readers off the front of some bytes or at a position, and the rules that compose them. -/

namespace Tokuft

/-- A reader takes a value off the front of some bytes, or fails. -/
abbrev Reader (Value : Type) := StateT (List UInt8) Option Value

/-- A reader reads a value from some bytes when it does so whatever follows them. -/
def Reads {Value : Type} (reader : Reader Value) (bytes : List UInt8) (value : Value) : Prop :=
  ∀ rest, reader.run (bytes ++ rest) = some (value, rest)

/-- An integer of a width, least significant byte first. -/
def uintBytes : Nat → Nat → List UInt8
  | 0, _ => []
  | width + 1, value => UInt8.ofNat (value % 256) :: uintBytes width (value / 256)

/-- Take one byte. -/
def readByte : Reader UInt8 := fun bytes =>
  match bytes with
  | [] => none
  | byte :: rest => some (byte, rest)

/-- Take an integer of a width, least significant byte first. -/
def readUint : Nat → Reader Nat
  | 0 => pure 0
  | width + 1 => do
    let byte ← readByte
    let high ← readUint width
    pure (byte.toNat + 256 * high)

/-- Take a number of bytes. -/
def readBytes (count : Nat) : Reader (List UInt8) := fun bytes =>
  if count ≤ bytes.length then some (bytes.take count, bytes.drop count) else none

/-- Skip a number of bytes. -/
def skipBytes (count : Nat) : Reader Unit := do
  let _ ← readBytes count
  pure ()

/-- Take a number of values, one after the other. -/
def readMany {Value : Type} (reader : Reader Value) : Nat → Reader (List Value)
  | 0 => pure []
  | count + 1 => do
    let value ← reader
    let values ← readMany reader count
    pure (value :: values)

variable {Value Other : Type} {value : Value}

/-- Reading nothing gives the value at hand. -/
theorem Reads.pure (value : Value) : Reads (Pure.pure value) [] value := fun _ => rfl

/-- Two readers in sequence read two runs of bytes in sequence. -/
theorem Reads.bind {reader : Reader Value} {next : Value → Reader Other} {bytes more : List UInt8}
    {other : Other} (first : Reads reader bytes value) (second : Reads (next value) more other) :
    Reads (reader >>= next) (bytes ++ more) other := by
  intro rest
  rw [List.append_assoc, StateT.run_bind, first (more ++ rest)]
  exact second rest

/-- A value computed from what was read takes no more bytes. -/
theorem Reads.map {reader : Reader Value} {bytes : List UInt8} {value : Value}
    (first : Reads reader bytes value) (finish : Value → Other) :
    Reads (do let value ← reader; Pure.pure (finish value)) bytes (finish value) := by
  have done : Reads (do let value ← reader; Pure.pure (finish value)) (bytes ++ [])
      (finish value) := first.bind (Reads.pure (finish value))
  rwa [List.append_nil] at done

/-- A byte is read as itself. -/
theorem Reads.byte (byte : UInt8) : Reads readByte [byte] byte := fun _ => rfl

/-- An integer is read back at the width it was written at. -/
theorem Reads.uint (width : Nat) {value : Nat} (fits : value < 2 ^ (8 * width)) :
    Reads (readUint width) (uintBytes width value) value := by
  induction width generalizing value with
  | zero =>
    -- A width of no bytes holds only the value zero.
    have zero : value = 0 := by simpa using fits
    subst zero
    exact Reads.pure 0
  | succ width ih =>
    -- What is left after the low byte fits the width that is left.
    have step : 2 ^ (8 * (width + 1)) = 2 ^ (8 * width) * 256 := by
      rw [Nat.mul_succ, Nat.pow_add]
    have high : value / 256 < 2 ^ (8 * width) := by omega
    have low : (UInt8.ofNat (value % 256)).toNat = value % 256 := by simp
    have whole : value % 256 + 256 * (value / 256) = value := Nat.mod_add_div value 256
    have tail := (ih high).map fun high => (UInt8.ofNat (value % 256)).toNat + 256 * high
    have read : Reads (readUint (width + 1))
        ([UInt8.ofNat (value % 256)] ++ uintBytes width (value / 256))
        ((UInt8.ofNat (value % 256)).toNat + 256 * (value / 256)) :=
      (Reads.byte _).bind tail
    rwa [low, whole] at read

/-- Bytes are read as themselves. -/
theorem Reads.bytes (bytes : List UInt8) : Reads (readBytes bytes.length) bytes bytes := by
  intro rest
  simp [readBytes, StateT.run]

/-- Bytes of the right number are skipped. -/
theorem Reads.skip {count : Nat} {bytes : List UInt8} (size : bytes.length = count) :
    Reads (skipBytes count) bytes () := by
  subst size
  exact (Reads.bytes bytes).map fun _ => ()

/-- Values are read back in order from the bytes of each. -/
theorem Reads.many {reader : Reader Other} {pack : Value → List UInt8} {view : Value → Other} :
    ∀ {values : List Value}, (∀ value ∈ values, Reads reader (pack value) (view value)) →
      Reads (readMany reader values.length) (values.flatMap pack) (values.map view) := by
  -- By induction on the values.
  intro values
  induction values with
  | nil => intro _; exact Reads.pure []
  | cons value rest ih =>
    intro each
    have first := each value (by simp)
    have others := ih fun other member => each other (by simp [member])
    exact first.bind (others.map fun values => view value :: values)

/-- An integer takes exactly the width it was written at. -/
@[simp] theorem uintBytes_length (width value : Nat) : (uintBytes width value).length = width := by
  induction width generalizing value with
  | zero => rfl
  | succ width ih => simp [uintBytes, ih]

/-- What a reader finds at a position in some bytes. -/
def readAt (reader : Reader Value) (bytes : List UInt8) (position : Nat) : Option Value :=
  (reader.run (bytes.drop position)).map Prod.fst

/-- A reader that takes the same number of bytes whenever it succeeds. -/
def Takes (reader : Reader Value) (width : Nat) : Prop :=
  ∀ bytes value rest, reader.run bytes = some (value, rest) → rest = bytes.drop width

variable {reader : Reader Value} {rest : List UInt8} {position count : Nat}

/-- What was read off the front is what the position of that front holds. -/
theorem readAt_of_run {bytes : List UInt8}
    (read : reader.run (bytes.drop position) = some (value, rest)) :
    readAt reader bytes position = some value := by
  rw [readAt, read, Option.map_some]

/-- A reader that succeeds on a sequence succeeds on its first part. -/
theorem run_bind_inv {next : Value → Reader Other} {bytes : List UInt8} {other : Other}
    (read : (reader >>= next).run bytes = some (other, rest)) :
    ∃ value middle, reader.run bytes = some (value, middle) ∧
      (next value).run middle = some (other, rest) := by
  simp only [StateT.run_bind, Option.bind_eq_bind, Option.bind_eq_some_iff] at read
  obtain ⟨⟨value, middle⟩, first, second⟩ := read
  exact ⟨value, middle, first, second⟩

/-- Two readers that follow each other at a position. -/
theorem Takes.next {reader : Reader Value} {width : Nat} (takes : Takes reader width)
    {bytes rest : List UInt8} {position : Nat} {value : Value}
    (read : reader.run (bytes.drop position) = some (value, rest)) :
    rest = bytes.drop (position + width) := by
  rw [takes _ _ _ read, List.drop_drop]

/-- A value computed from what was read takes no more bytes. -/
theorem Takes.map {reader : Reader Value} {width : Nat} (takes : Takes reader width)
    (finish : Value → Other) : Takes (do let value ← reader; Pure.pure (finish value)) width := by
  intro bytes value rest read
  obtain ⟨first, middle, read, done⟩ := run_bind_inv read
  cases done
  exact takes bytes first _ read

/-- A byte takes one byte. -/
theorem takes_byte : Takes readByte 1 := by
  intro bytes value rest read
  cases bytes with
  | nil => cases read
  | cons byte others =>
    cases read
    rfl

/-- An integer takes its width. -/
theorem takes_uint (width : Nat) : Takes (readUint width) width := by
  -- By induction on the width.
  induction width with
  | zero =>
    intro bytes value rest read
    cases read
    rfl
  | succ width ih =>
    intro bytes value rest read
    obtain ⟨byte, middle, first, read⟩ := run_bind_inv read
    obtain ⟨high, after, second, done⟩ := run_bind_inv read
    cases done
    rw [ih _ _ _ second, takes_byte _ _ _ first, List.drop_drop, Nat.add_comm]

/-- An integer that was read fits its width. -/
theorem readUint_lt {width : Nat} {bytes : List UInt8} {value : Nat}
    (read : (readUint width).run bytes = some (value, rest)) : value < 2 ^ (8 * width) := by
  -- By induction on the width: each byte adds eight bits.
  induction width generalizing bytes value rest with
  | zero =>
    cases read
    decide
  | succ width ih =>
    obtain ⟨byte, middle, first, read⟩ := run_bind_inv read
    obtain ⟨high, after, second, done⟩ := run_bind_inv read
    cases done
    have step : 2 ^ (8 * (width + 1)) = 2 ^ (8 * width) * 256 := by
      rw [Nat.mul_succ, Nat.pow_add]
    have low := byte.toNat_lt
    have bound := ih second
    omega

/-- Values of one width lie at the multiples of that width. -/
theorem Takes.many {width : Nat} (takes : Takes reader width) {bytes : List UInt8}
    {values : List Value}
    (read : (readMany reader count).run (bytes.drop position) = some (values, rest)) :
    values.length = count ∧ rest = bytes.drop (position + count * width) ∧
      ∀ index < count, readAt reader bytes (position + index * width) = values[index]? := by
  -- By induction on the count: the first value ends where the next one begins.
  induction count generalizing position values with
  | zero =>
    cases read
    exact ⟨rfl, by simp, fun index below => absurd below (Nat.not_lt_zero index)⟩
  | succ count ih =>
    obtain ⟨value, middle, first, read⟩ := run_bind_inv read
    obtain ⟨others, after, second, done⟩ := run_bind_inv read
    cases done
    have here := takes.next first
    subst here
    obtain ⟨length, left, each⟩ := ih second
    refine ⟨by rw [List.length_cons, length], ?_, fun index below => ?_⟩
    · rw [left, Nat.succ_mul]
      congr 1
      omega
    · cases index with
      | zero =>
        rw [Nat.zero_mul, Nat.add_zero, readAt_of_run first]
        rfl
      | succ index =>
        have place : position + (index + 1) * width = position + width + index * width := by
          rw [Nat.succ_mul]
          omega
        rw [place, each index (by omega)]
        rfl

/-- One value in front of many values of its kind makes one more. -/
theorem readMany_cons {bytes middle : List UInt8} {values : List Value}
    (first : reader.run bytes = some (value, middle))
    (others : (readMany reader count).run middle = some (values, rest)) :
    (readMany reader (count + 1)).run bytes = some (value :: values, rest) := by
  simp only [readMany, StateT.run_bind, first, Option.bind_eq_bind, Option.bind_some, others]
  rfl

/-- Bytes that were taken off the front are the slice at its position. -/
theorem readBytes_inv {bytes : List UInt8} {value : List UInt8}
    (read : (readBytes count).run (bytes.drop position) = some (value, rest)) :
    rest = bytes.drop (position + count) ∧ value.length = count ∧
      readAt (readBytes count) bytes position = some value := by
  have found := readAt_of_run read
  simp only [readBytes, StateT.run] at read
  split at read
  · rename_i enough
    cases read
    exact ⟨by rw [List.drop_drop], List.length_take_of_le enough, found⟩
  · cases read

end Tokuft
