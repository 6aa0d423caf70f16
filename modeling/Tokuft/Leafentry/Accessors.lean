import Tokuft.Leafentry.UnpackExact
import Tokuft.Leafentry.Read

/-! Readers of a packed leaf entry that do their own arithmetic on its bytes. -/

namespace Tokuft

/-- What a callback returns when it accepts a transaction. -/
def tokudbAccept : Int := -100009

/--
How a caller looks at a transaction's identifier, told whether its record is provisional.

Zero ignores the transaction, and any other number but acceptance is an error.
-/
abbrev IterateCallback (State : Type) := Nat → Bool → StateT State Option Int

/-- A value in the bytes of a leaf entry, which a deleted row has not. -/
structure Slice where
  /-- The position of the value, where the source has a pointer. -/
  valp : Option Nat
  vallen : Nat
  deriving DecidableEq, Repr

/-- The value that a slice stands for. -/
def Slice.load (le : Bytes) (slice : Slice) : Option (Option Bytes) :=
  match slice.valp with
  | some valp => (readAt (readBytes slice.vallen) le valp).map some
  | none => if slice.vallen = 0 then some none else none

/-- The value that a record holds. -/
def xrValue : Xr → Option Bytes
  | .insert val => some val
  | _ => none

/-- One less, in a 32-bit word. -/
def wordPred (count : Nat) : Nat := (count + (2 ^ 32 - 1)) % 2 ^ 32

namespace Packed

/-- The number of committed records. -/
def numCxrs (le : Bytes) : Option Nat := readAt (readUint 4) le 1

/-- The number of provisional records. -/
def numPxrs (le : Bytes) : Option Nat := (readAt readByte le 5).map UInt8.toNat

/-- Where the records start. -/
def xrs : Nat := 6

/-- One more slot when there are provisional records. -/
def provisionalSlot (numPuxrs : Nat) : Nat := if numPuxrs ≠ 0 then 1 else 0

/-- Step over the transactions to the first length word. -/
def skipTxnids (numCuxrs numPuxrs : Nat) : Nat :=
  xrs + provisionalSlot numPuxrs * 8 + (numCuxrs - 1) * 8

/-- Whether the newest record of a row deletes it. -/
def leLatestIsDel (le : Bytes) : Option Bool := do
  let type ← readAt readByte le 0
  if type = 0 then pure false
  else if type = 1 then do
    let numCuxrs ← numCxrs le
    invariant (numCuxrs ≠ 0)
    let numPuxrs ← numPxrs le
    let uxr ← readAt uxrUnpackLengthAndBit le (skipTxnids numCuxrs numPuxrs)
    pure (decide (uxr = .delete))
  else none

/-- The value of the newest record of a row. -/
def leLatestValAndLen (le : Bytes) : Option Slice := do
  let type ← readAt readByte le 0
  if type = 0 then do
    let vallen ← readAt (readUint 4) le 1
    pure { valp := some 5, vallen }
  else if type = 1 then do
    let numCuxrs ← numCxrs le
    invariant (numCuxrs ≠ 0)
    let numPuxrs ← numPxrs le
    let p := skipTxnids numCuxrs numPuxrs
    let uxr ← readAt uxrUnpackLengthAndBit le p
    match uxr with
    | .insert vallen =>
      pure { valp := some (p + 4 + (numCuxrs - 1 + provisionalSlot numPuxrs) * 4), vallen }
    | _ => pure { valp := none, vallen := 0 }
  else none

/-- The length of the value of the newest record of a row. -/
def leLatestVallen (le : Bytes) : Option Nat := do
  let type ← readAt readByte le 0
  if type = 0 then readAt (readUint 4) le 1
  else if type = 1 then do
    let numCuxrs ← numCxrs le
    invariant (numCuxrs ≠ 0)
    let numPuxrs ← numPxrs le
    let uxr ← readAt uxrUnpackLengthAndBit le (skipTxnids numCuxrs numPuxrs)
    match uxr with
    | .insert vallen => pure vallen
    | _ => pure 0
  else none

/-- The outermost provisional transaction of a row, or none. -/
def leOutermostUncommittedXid (le : Bytes) : Option Nat := do
  let type ← readAt readByte le 0
  if type = 1 then do
    let numPuxrs ← numPxrs le
    if numPuxrs ≠ 0 then readAt uxrUnpackTxnid le xrs else pure txnidNone
  -- Every other type, known or not, has no provisional record.
  else pure txnidNone

variable {State : Type}

/-- The place of the first transaction that is accepted, or the first error. -/
def leIterateGetAcceptedIndex (f : IterateCallback State) (topIsProvisional : Bool) (le : Bytes)
    (xids : Nat) : Nat → Nat → StateT State Option (Except Int Nat)
  | i, 0 => pure (.ok i)
  | i, remaining + 1 => do
    let xid ← StateT.lift (readAt uxrUnpackTxnid le (xids + i * 8))
    let r ← f xid (decide (i = 0) && topIsProvisional)
    if r = tokudbAccept then pure (.ok i)
    else if r ≠ 0 then pure (.error r)
    else leIterateGetAcceptedIndex f topIsProvisional le xids (i + 1) remaining

/-- The number of transactions that a callback may be asked about, and the oldest one. -/
def numInteresting (numCuxrs numPuxrs : Nat) : Nat :=
  (numCuxrs + provisionalSlot numPuxrs) % 2 ^ 32

/-- The record at an accepted place is a delete. -/
def acceptedIsDel (le : Bytes) (numInteresting index : Nat) : Option Bool := do
  invariant (index < numInteresting)
  let p := xrs + wordPred numInteresting * 8
  let myLengthAndBit ← readAt (readUint 4) le (p + index * 4)
  pure (!isInsert myLengthAndBit)

/-- Whether there is nothing to read for a caller, or the error of its callback. -/
def leIterateIsDel (f : IterateCallback State) (le : Bytes) :
    StateT State Option (Except Int Bool) := do
  let type ← StateT.lift (readAt readByte le 0)
  if type = 0 then pure (.ok false)
  else if type = 1 then do
    let numCuxrs ← StateT.lift (numCxrs le)
    let numPuxrs ← StateT.lift (numPxrs le)
    let numInteresting := numInteresting numCuxrs numPuxrs
    let accepted ← leIterateGetAcceptedIndex f (decide (numPuxrs ≠ 0)) le xrs 0
      (wordPred numInteresting)
    match accepted with
    | .error r => pure (.error r)
    | .ok index => StateT.lift ((acceptedIsDel le numInteresting index).map .ok)
  else failure

/-- The lengths that stand before a place, where a delete counts as none. -/
def lengthsBefore (le : Bytes) (p : Nat) : Nat → Option Nat
  | 0 => pure 0
  | index + 1 => do
    let offset ← lengthsBefore le p index
    let temp ← readAt uxrUnpackLengthAndBit le (p + index * 4)
    pure (offset + temp.vallen)

/-- The value of the record at an accepted place. -/
def acceptedVal (le : Bytes) (numInteresting index : Nat) : Option Slice := do
  invariant (index < numInteresting)
  let p := xrs + wordPred numInteresting * 8
  let offset ← lengthsBefore le p index
  let temp ← readAt uxrUnpackLengthAndBit le (p + index * 4)
  match temp with
  | .insert vallen => pure { valp := some (p + numInteresting * 4 + offset), vallen }
  | _ => pure { valp := none, vallen := 0 }

/-- The value that there is to read for a caller, or the error of its callback. -/
def leIterateVal (f : IterateCallback State) (le : Bytes) :
    StateT State Option (Except Int Slice) := do
  let type ← StateT.lift (readAt readByte le 0)
  if type = 0 then do
    let vallen ← StateT.lift (readAt (readUint 4) le 1)
    pure (.ok { valp := some 5, vallen })
  else if type = 1 then do
    let numCuxrs ← StateT.lift (numCxrs le)
    let numPuxrs ← StateT.lift (numPxrs le)
    let numInteresting := numInteresting numCuxrs numPuxrs
    let accepted ← leIterateGetAcceptedIndex f (decide (numPuxrs ≠ 0)) le xrs 0
      (wordPred numInteresting)
    match accepted with
    | .error r => pure (.error r)
    | .ok index => StateT.lift ((acceptedVal le numInteresting index).map .ok)
  else failure

end Packed

/-- The first record that a callback accepts, the last of all by default, or its first error. -/
def firstAccepted {State : Type} (f : IterateCallback State) :
    Bool → List Uxr → StateT State Option (Except Int Xr)
  | _, [] => failure
  | _, [oldest] => pure (.ok oldest.type)
  | topIsProvisional, uxr :: next :: older => do
    let r ← f uxr.xid topIsProvisional
    if r = tokudbAccept then pure (.ok uxr.type)
    else if r ≠ 0 then pure (.error r)
    else firstAccepted f false (next :: older)

/-- The answers of a reader, as the numbers that a callback returns. -/
def answerCode (f : LeIterateCallback) : IterateCallback Unit := fun xid isProvisional =>
  StateT.lift ((f xid isProvisional).map fun accepts => if accepts then tokudbAccept else 0)

/-- The callback of a cursor that reads a snapshot or whatever is committed. -/
def readCallback (forceRecovery : Bool) (txn : TokuTxn) (snapshot : Bool) : LeIterateCallback :=
  if snapshot then leIterateReadSnapshotCallback forceRecovery txn
  else leIterateReadCommittedCallback forceRecovery txn

namespace Packed

/-- Whether there is nothing for a cursor's transaction to read in a row. -/
def leValIsDel (forceRecovery : Bool) (le : Bytes) (readType : CursorReadType) (txn : TokuTxn) :
    Option Bool :=
  match readType with
  | .any => leLatestIsDel le
  | _ => do
    let callback := readCallback forceRecovery txn (readType = .snapshot)
    let (r, _) ← (leIterateIsDel (answerCode callback) le).run ()
    -- An error is dropped here, and the row then counts as there.
    match r with
    | .error _ => pure false
    | .ok isDel => pure isDel

/-- The value that a cursor's transaction reads from a row. -/
def leExtractVal (forceRecovery : Bool) (le : Bytes) (readType : CursorReadType) (txn : TokuTxn) :
    Option Slice :=
  match readType with
  | .any => leLatestValAndLen le
  | _ => do
    let callback := readCallback forceRecovery txn (readType = .snapshot)
    let (r, _) ← (leIterateVal (answerCode callback) le).run ()
    match r with
    | .error _ => none
    | .ok slice => pure slice

end Packed

open Packed

variable {numPuxrs : Nat} {bytes rest : Bytes}

/-- A length word takes four bytes. -/
theorem takes_lengthAndBit : Takes uxrUnpackLengthAndBit 4 :=
  (takes_uint 4).map fun lengthAndBit =>
    if isInsert lengthAndBit then XrHeader.insert (getLength lengthAndBit) else .delete

/-- A transaction identifier takes eight bytes. -/
theorem takes_txnid : Takes uxrUnpackTxnid 8 := takes_uint 8

/-- A value takes the length that its header announces. -/
theorem takes_data (header : XrHeader) : Takes (uxrUnpackData header) header.vallen := by
  intro bytes type rest read
  cases header with
  | insert vallen =>
    obtain ⟨val, middle, read, done⟩ := run_bind_inv read
    cases done
    have whole : (readBytes vallen).run (bytes.drop 0) = some (val, rest) := read
    have place := (readBytes_inv whole).1
    rwa [Nat.zero_add] at place
  | delete =>
    cases read
    rfl
  | placeholder =>
    cases read
    rfl

/-- Provisional records have the innermost value and the outermost transaction of the header. -/
theorem leUnpackProvisional_inv {outermostXid : Nat} {innermost : Xr} {puxrs : List Uxr}
    (read : (leUnpackProvisional numPuxrs outermostXid innermost).run bytes = some (puxrs, rest)) :
    (numPuxrs = 0 ∧ puxrs = []) ∨ ∃ first last, numPuxrs ≠ 0 ∧ puxrs.head? = some first ∧
      puxrs.getLast? = some last ∧ first.type = innermost ∧ last.xid = outermostXid := by
  -- One case for no provisional record, for one and for several.
  match numPuxrs with
  | 0 =>
    cases read
    exact Or.inl ⟨rfl, rfl⟩
  | 1 =>
    cases read
    exact Or.inr ⟨{ type := innermost, xid := outermostXid },
      { type := innermost, xid := outermostXid }, by decide, rfl, rfl, rfl, rfl⟩
  | count + 2 =>
    obtain ⟨outermost, afterFirst, -, read⟩ := run_bind_inv read
    obtain ⟨middle, afterMiddle, -, read⟩ := run_bind_inv read
    obtain ⟨innermostXid, afterLast, -, done⟩ := run_bind_inv read
    cases done
    refine Or.inr ⟨{ type := innermost, xid := innermostXid },
      { type := outermost, xid := outermostXid }, by omega, rfl, ?_, rfl, rfl⟩
    rw [← List.cons_append, List.getLast?_concat]

/-- The fixed part of a leaf entry with several records, as its bytes hold it. -/
structure Layout (le : Bytes) (ule : Ule) (numCuxrs numPuxrs : Nat) (xids : List Nat)
    (headers : List XrHeader) (types : List Xr) : Prop where
  type : readAt readByte le 0 = some 1
  committed : numCxrs le = some numCuxrs
  provisional : numPxrs le = some numPuxrs
  positive : numCuxrs ≠ 0
  nested : numPuxrs ≠ 0 ↔ ule.puxrs ≠ []
  xidsLength : xids.length + 1 = numCuxrs + provisionalSlot numPuxrs
  headersLength : headers.length = numCuxrs + provisionalSlot numPuxrs
  xidAt : ∀ index < xids.length, readAt uxrUnpackTxnid le (xrs + index * 8) = xids[index]?
  headerAt : ∀ index < headers.length,
    readAt uxrUnpackLengthAndBit le (xrs + xids.length * 8 + index * 4) = headers[index]?
  values : ∃ rest, (unpackAllData headers).run
    (le.drop (xrs + xids.length * 8 + headers.length * 4)) = some (types, rest)
  shown : interestingXrs ule = types.zipWith Uxr.mk (xids ++ [txnidNone])

/-- One more value in front is one more value of its kind, when there is something provisional. -/
theorem whenProvisional_many {Value : Type} {count : Nat} {absent value : Value}
    {reader : Reader Value} {middle : Bytes} {values : List Value}
    (first : (whenProvisional numPuxrs absent reader).run bytes = some (value, middle))
    (others : (readMany reader count).run middle = some (values, rest)) :
    (readMany reader (count + provisionalSlot numPuxrs)).run bytes =
      some ((if numPuxrs ≠ 0 then [value] else []) ++ values, rest) := by
  unfold whenProvisional provisionalSlot at *
  split at first
  · rename_i present
    rw [if_pos present, if_pos present]
    exact readMany_cons first others
  · rename_i missing
    cases first
    rw [if_neg missing, if_neg missing]
    exact others

/-- One more value in front is read by the header in front. -/
theorem whenProvisional_allData {header : XrHeader} {headers : List XrHeader} {middle : Bytes}
    {innermost : Xr} {types : List Xr} (absent : numPuxrs = 0 → header = .delete)
    (first : (uxrUnpackData header).run bytes = some (innermost, middle))
    (others : (unpackAllData headers).run middle = some (types, rest)) :
    (unpackAllData ((if numPuxrs ≠ 0 then [header] else []) ++ headers)).run bytes =
      some ((if numPuxrs ≠ 0 then [innermost] else []) ++ types, rest) := by
  by_cases present : numPuxrs ≠ 0
  · rw [if_pos present, if_pos present, List.singleton_append, List.singleton_append]
    simp only [unpackAllData, StateT.run_bind, first, bind_runs, others]
    rfl
  · -- A header that was not there takes no bytes.
    rw [absent (by omega)] at first
    cases first
    rw [if_neg present, if_neg present]
    exact others

/-- A leaf entry with several records that unpacks has the layout of its records. -/
theorem leUnpackMvcc_layout {le : Bytes} {ule : Ule} (type : readAt readByte le 0 = some 1)
    (read : leUnpackMvcc.run (le.drop 1) = some (ule, rest)) :
    ∃ numCuxrs numPuxrs xids headers types, Layout le ule numCuxrs numPuxrs xids headers types := by
  obtain ⟨numCuxrs, afterCount, count, read⟩ := run_bind_inv read
  obtain ⟨_, afterCheck, check, read⟩ := run_bind_inv read
  obtain ⟨numPuxrs, afterCounts, nesting, read⟩ := run_bind_inv read
  obtain ⟨outermostXid, afterOutermost, outermost, read⟩ := run_bind_inv read
  obtain ⟨xids, afterXids, others, read⟩ := run_bind_inv read
  obtain ⟨innermostHeader, afterInnermost, firstHeader, read⟩ := run_bind_inv read
  obtain ⟨headers, afterHeaders, otherHeaders, read⟩ := run_bind_inv read
  obtain ⟨innermost, afterValue, firstValue, read⟩ := run_bind_inv read
  obtain ⟨types, afterValues, otherValues, read⟩ := run_bind_inv read
  obtain ⟨puxrs, afterPuxrs, nested, done⟩ := run_bind_inv read
  have positive : numCuxrs ≠ 0 ∧ afterCount = afterCheck := by
    by_cases zero : numCuxrs ≠ 0
    · simp [StateT.lift, StateT.run, zero] at check
      exact ⟨zero, check⟩
    · simp [StateT.lift, StateT.run, invariant, zero] at check
  obtain ⟨positive, rfl⟩ := positive
  -- Each part starts where the one before it ends.
  have place := (takes_uint 4).next count
  subst place
  have place := takes_byte.next nesting
  subst place
  have allXids := whenProvisional_many outermost others
  obtain ⟨xidsLength, place, xidAt⟩ := takes_txnid.many allXids
  subst place
  have allHeaders := whenProvisional_many firstHeader otherHeaders
  obtain ⟨headersLength, place, headerAt⟩ := takes_lengthAndBit.many allHeaders
  subst place
  have absent : numPuxrs.toNat = 0 → innermostHeader = .delete := by
    intro zero
    rw [zero] at firstHeader
    cases firstHeader
    rfl
  have allValues := whenProvisional_allData absent firstValue otherValues
  have counted : 1 ≤ numCuxrs := Nat.one_le_iff_ne_zero.mpr positive
  cases done
  refine ⟨numCuxrs, numPuxrs.toNat,
    (if numPuxrs.toNat ≠ 0 then [outermostXid] else []) ++ xids,
    (if numPuxrs.toNat ≠ 0 then [innermostHeader] else []) ++ headers,
    (if numPuxrs.toNat ≠ 0 then [innermost] else []) ++ types,
    type, readAt_of_run count, ?_, positive, ?_, ?_, headersLength, ?_, ?_, ⟨afterValues, ?_⟩, ?_⟩
  · rw [numPxrs, readAt_of_run nesting, Option.map_some]
  · rcases leUnpackProvisional_inv nested with ⟨zero, none⟩ | ⟨first, last, some, head, -⟩
    · simp [zero, none]
    · have nonempty : puxrs ≠ [] := by
        intro none
        rw [none] at head
        cases head
      simp [some, nonempty]
  · rw [xidsLength]
    omega
  · intro index below
    exact xidAt index (by omega)
  · intro index below
    rw [← headerAt index (by omega), xidsLength]
    rfl
  · rw [xidsLength, headersLength]
    exact allValues
  · rcases leUnpackProvisional_inv nested with
      ⟨zero, none⟩ | ⟨first, last, some, head, deepest, innermost, outermost⟩
    · rw [none, interestingXrs_committed, if_neg (by omega), if_neg (by omega)]
      rfl
    · rw [if_pos some, if_pos some]
      simp only [interestingXrs, head, deepest, innermost, outermost]
      rfl

/-- Each value lies behind the values in front of it. -/
theorem unpackAllData_at {position : Nat} {headers : List XrHeader} {types : List Xr}
    (read : (unpackAllData headers).run (bytes.drop position) = some (types, rest)) :
    types.length = headers.length ∧ ∀ index header, headers[index]? = some header →
      readAt (uxrUnpackData header) bytes
        (position + ((headers.take index).map XrHeader.vallen).sum) = types[index]? := by
  -- By induction on the headers, with the position as accumulator.
  induction headers generalizing position types with
  | nil =>
    cases read
    exact ⟨rfl, fun index header found => by simp at found⟩
  | cons front headers ih =>
    obtain ⟨type, middle, first, read⟩ := run_bind_inv read
    obtain ⟨others, after, second, done⟩ := run_bind_inv read
    cases done
    have place := (takes_data front).next first
    subst place
    obtain ⟨length, each⟩ := ih second
    refine ⟨by rw [List.length_cons, List.length_cons, length], fun index header found => ?_⟩
    cases index with
    | zero =>
      cases found
      rw [List.take_zero, List.map_nil, List.sum_nil, Nat.add_zero, readAt_of_run first]
      rfl
    | succ index =>
      rw [List.take_succ_cons, List.map_cons, List.sum_cons, ← Nat.add_assoc,
        each index header found]
      rfl

end Tokuft
