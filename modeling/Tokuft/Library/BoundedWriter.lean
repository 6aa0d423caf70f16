import Tokuft.Basic

/-! Writers into a buffer of a fixed size, and the rules that compose them. -/

namespace Tokuft

/-- A buffer of a fixed size, with what has been written so far. -/
structure BoundedBuffer where
  size : Nat
  written : List UInt8
  deriving DecidableEq, Repr

/-- A writer goes on behind what has been written, or finds that the buffer is too small. -/
abbrev BoundedWriter := BoundedBuffer → Option BoundedBuffer

/-- Write some bytes, which have to fit. -/
def putBytes (bytes : List UInt8) : BoundedWriter := fun buffer => do
  invariant (buffer.written.length + bytes.length ≤ buffer.size)
  return { buffer with written := buffer.written ++ bytes }

/-- A writer writes some bytes whenever they fit. -/
def Writes (writer : BoundedWriter) (bytes : List UInt8) : Prop :=
  ∀ buffer : BoundedBuffer, buffer.written.length + bytes.length ≤ buffer.size →
    writer buffer = some { buffer with written := buffer.written ++ bytes }

/-- Write the bytes of some values, one after another. -/
def putAll {Value : Type} (writer : Value → BoundedWriter) : List Value → BoundedWriter
  | [], buffer => some buffer
  | value :: values, buffer => do
    let buffer ← writer value buffer
    putAll writer values buffer

/-- Bytes are written as themselves. -/
theorem Writes.bytes (bytes : List UInt8) : Writes (putBytes bytes) bytes := by
  intro buffer fits
  simp [putBytes, fits]

/-- Two writers in sequence write two runs of bytes in sequence. -/
theorem Writes.andThen {first second : BoundedWriter} {bytes more : List UInt8}
    (writes : Writes first bytes) (others : Writes second more) :
    Writes (fun buffer => do let buffer ← first buffer; second buffer) (bytes ++ more) := by
  intro buffer fits
  rw [List.length_append] at fits
  have here := writes buffer (by omega)
  have there := others { buffer with written := buffer.written ++ bytes } (by
    show (buffer.written ++ bytes).length + more.length ≤ buffer.size
    rw [List.length_append]
    omega)
  simp only [here, bind_runs, there, List.append_assoc]

/-- A writer that does nothing writes nothing. -/
theorem Writes.nothing : Writes (fun buffer => some buffer) [] := by
  intro buffer _
  rw [List.append_nil]

/-- Values are written in order. -/
theorem Writes.all {Value : Type} {writer : Value → BoundedWriter} {pack : Value → List UInt8}
    {values : List Value} (each : ∀ value ∈ values, Writes (writer value) (pack value)) :
    Writes (putAll writer values) (values.flatMap pack) := by
  induction values with
  | nil => exact Writes.nothing
  | cons value values ih =>
    rw [List.flatMap_cons]
    have first := each value (by simp)
    exact first.andThen (ih fun other member => each other (by simp [member]))

end Tokuft
