import Mathlib.Data.List.Basic

/-! Readers that keep a digest of the bytes they take, and the rules that compose them. -/

namespace Tokuft

/-- The bytes that are left, with a digest and the number of the bytes it covers. -/
structure DigestInput (Digest : Type) where
  rest : List UInt8
  digest : Digest
  count : Nat
  deriving DecidableEq, Repr

/-- A reader takes a value off the front of some bytes, or fails with an error. -/
abbrev DigestReader (Digest Error Value : Type) :=
  StateT (DigestInput Digest) (Except Error) Value

namespace DigestReader

variable {Digest Error Value Other : Type}

/-- Take a byte, and leave the digest alone. -/
def plainByte (ended : Error) : DigestReader Digest Error UInt8 := fun input =>
  match input.rest with
  | [] => .error ended
  | byte :: rest => .ok (byte, { input with rest })

/-- Take a byte, and add it to the digest. -/
def digestByte (add : Digest → UInt8 → Digest) (ended : Error) :
    DigestReader Digest Error UInt8 := fun input =>
  match input.rest with
  | [] => .error ended
  | byte :: rest => .ok (byte, ⟨rest, add input.digest byte, input.count + 1⟩)

/-- Look at the digest and the number of bytes in it. -/
def look : DigestReader Digest Error (Digest × Nat) := fun input =>
  .ok ((input.digest, input.count), input)

/-- Fail with an error. -/
def fail (error : Error) : DigestReader Digest Error Value := fun _ => .error error

/-- Take a number of values, one after the other. -/
def many (reader : DigestReader Digest Error Value) : Nat → DigestReader Digest Error (List Value)
  | 0 => pure []
  | count + 1 => do
    let value ← reader
    let values ← many reader count
    pure (value :: values)

/-- A reader reads a value from some bytes, and adds some of them to the digest. -/
def Scans (add : Digest → UInt8 → Digest) (reader : DigestReader Digest Error Value)
    (bytes covered : List UInt8) (value : Value) : Prop :=
  ∀ rest digest count, reader.run ⟨bytes ++ rest, digest, count⟩ =
    .ok (value, ⟨rest, covered.foldl add digest, count + covered.length⟩)

/-- A reader that succeeds has looked at nothing beyond what it took. -/
def Local (reader : DigestReader Digest Error Value) : Prop :=
  ∀ bytes digest count value after, reader.run ⟨bytes, digest, count⟩ = .ok (value, after) →
    ∃ used, bytes = used ++ after.rest ∧
      ∀ more, reader.run ⟨used ++ more, digest, count⟩ = .ok (value, { after with rest := more })

/-- A sequence goes on from where its first part leaves off. -/
theorem run_bind_ok {reader : DigestReader Digest Error Value}
    {next : Value → DigestReader Digest Error Other} {input after : DigestInput Digest}
    {value : Value} (first : reader.run input = .ok (value, after)) :
    (reader >>= next).run input = (next value).run after := by
  rw [StateT.run_bind, first]
  rfl

section Scanning

variable {add : Digest → UInt8 → Digest}

/-- Reading nothing gives the value at hand. -/
theorem Scans.pure (value : Value) :
    Scans add (Pure.pure value : DigestReader Digest Error Value) [] [] value := fun _ _ _ => rfl

section

variable {reader : DigestReader Digest Error Value}

/-- Two readers in sequence read two runs of bytes in sequence. -/
theorem Scans.bind {next : Value → DigestReader Digest Error Other}
    {bytes more covered further : List UInt8} {value : Value} {other : Other}
    (first : Scans add reader bytes covered value)
    (second : Scans add (next value) more further other) :
    Scans add (reader >>= next) (bytes ++ more) (covered ++ further) other := by
  intro rest digest count
  rw [List.append_assoc, StateT.run_bind, first (more ++ rest) digest count]
  refine (second rest _ _).trans ?_
  rw [List.foldl_append, List.length_append, Nat.add_assoc]

/-- A value computed from what was read takes no more bytes. -/
theorem Scans.map {bytes covered : List UInt8} {value : Value}
    (first : Scans add reader bytes covered value) (finish : Value → Other) :
    Scans add (do let value ← reader; Pure.pure (finish value)) bytes covered (finish value) := by
  have done : Scans add (do let value ← reader; Pure.pure (finish value)) (bytes ++ [])
      (covered ++ []) (finish value) := first.bind (Scans.pure (finish value))
  rwa [List.append_nil, List.append_nil] at done

end

/-- A byte is read as itself. -/
theorem Scans.plainByte (ended : Error) (byte : UInt8) :
    Scans add (plainByte ended) [byte] [] byte := fun _ _ _ => rfl

/-- A byte is read as itself, and added to the digest. -/
theorem Scans.digestByte (ended : Error) (byte : UInt8) :
    Scans add (digestByte add ended) [byte] [byte] byte := fun _ _ _ => rfl

/-- Values are read back in order from the bytes of each. -/
theorem Scans.many {reader : DigestReader Digest Error Other} {pack : Value → List UInt8}
    {view : Value → Other} :
    ∀ {values : List Value},
      (∀ value ∈ values, Scans add reader (pack value) (pack value) (view value)) →
        Scans add (many reader values.length) (values.flatMap pack) (values.flatMap pack)
          (values.map view) := by
  intro values
  induction values with
  | nil => intro _; exact Scans.pure []
  | cons value rest ih =>
    intro each
    have first := each value (by simp)
    have others := ih fun other member => each other (by simp [member])
    exact first.bind (others.map fun values => view value :: values)

end Scanning

section Locality

/-- Reading nothing looks at nothing. -/
theorem Local.pure (value : Value) :
    Local (Pure.pure value : DigestReader Digest Error Value) := by
  intro bytes digest count value after read
  cases read
  exact ⟨[], rfl, fun more => rfl⟩

/-- A reader that fails takes nothing. -/
theorem Local.fail (error : Error) : Local (fail error : DigestReader Digest Error Value) := by
  intro bytes digest count value after read
  cases read

/-- Looking at the digest takes nothing. -/
theorem Local.look : Local (look : DigestReader Digest Error (Digest × Nat)) := by
  intro bytes digest count value after read
  cases read
  exact ⟨[], rfl, fun more => rfl⟩

/-- A byte is all that is looked at. -/
theorem Local.plainByte (ended : Error) :
    Local (plainByte ended : DigestReader Digest Error UInt8) := by
  intro bytes digest count value after read
  cases bytes with
  | nil => cases read
  | cons byte rest =>
    cases read
    exact ⟨[value], rfl, fun more => rfl⟩

/-- A byte that is added to the digest is all that is looked at. -/
theorem Local.digestByte (add : Digest → UInt8 → Digest) (ended : Error) :
    Local (digestByte add ended : DigestReader Digest Error UInt8) := by
  intro bytes digest count value after read
  cases bytes with
  | nil => cases read
  | cons byte rest =>
    cases read
    exact ⟨[value], rfl, fun more => rfl⟩

section

variable {reader : DigestReader Digest Error Value}

/-- A sequence looks at what its parts look at. -/
theorem Local.bind {next : Value → DigestReader Digest Error Other} (first : Local reader)
    (second : ∀ value, Local (next value)) : Local (reader >>= next) := by
  intro bytes digest count other after read
  rw [StateT.run_bind] at read
  cases taken : reader.run ⟨bytes, digest, count⟩ with
  | error wrong =>
    rw [taken] at read
    cases read
  | ok result =>
    obtain ⟨value, middle⟩ := result
    rw [taken] at read
    obtain ⟨used, split, again⟩ := first _ _ _ _ _ taken
    obtain ⟨used', split', again'⟩ := second value _ _ _ _ _ read
    refine ⟨used ++ used', ?_, ?_⟩
    · rw [split, split', List.append_assoc]
    · intro more
      rw [List.append_assoc, StateT.run_bind, again]
      exact again' more

/-- Many values look at what each looks at. -/
theorem Local.many (each : Local reader) :
    ∀ count, Local (many reader count) := by
  intro count
  induction count with
  | zero => exact Local.pure []
  | succ count ih =>
    exact each.bind fun _ => ih.bind fun _ => Local.pure _

/-- A reader that takes all of some bytes fails when they are cut short. -/
theorem Local.cut (here : Local reader) {bytes : List UInt8} {digest : Digest} {count : Nat}
    {value : Value} {after : DigestInput Digest}
    (whole : reader.run ⟨bytes, digest, count⟩ = .ok (value, after)) (all : after.rest = [])
    {size : Nat} (short : size < bytes.length) :
    ∃ error, reader.run ⟨bytes.take size, digest, count⟩ = .error error := by
  cases read : reader.run ⟨bytes.take size, digest, count⟩ with
  | error wrong => exact ⟨wrong, rfl⟩
  | ok result =>
    obtain ⟨other, stopped⟩ := result
    obtain ⟨used, split, again⟩ := here _ _ _ _ _ read
    -- The reader would leave what was cut off, but it takes all of the bytes.
    have longer := again (stopped.rest ++ bytes.drop size)
    rw [← List.append_assoc, ← split, List.take_append_drop, whole] at longer
    injection longer with pair
    injection pair with _ state
    rw [state] at all
    have size' := congrArg List.length (show stopped.rest ++ bytes.drop size = [] from all)
    rw [List.length_append, List.length_drop, List.length_nil] at size'
    omega

end

end Locality

end DigestReader

end Tokuft
