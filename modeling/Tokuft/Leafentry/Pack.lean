import Tokuft.Leafentry.Ule
import Tokuft.Library.PositionReader

/-! The packed leaf entry: how its bytes are written, read, and measured. -/

namespace Tokuft

/-- The type byte of a record. -/
def xrTypeByte : Xr → UInt8
  | .insert _ => 1
  | .delete => 2
  | .placeholder => 3

/-- The top bit marks an insert in a word that also holds the length. -/
def insertLength (length : Nat) : Nat := 2 ^ 31 ||| length

/-- Whether a length word marks an insert. -/
def isInsert (lengthAndBit : Nat) : Bool := lengthAndBit &&& 2 ^ 31 != 0

/-- The length in a length word. -/
def getLength (lengthAndBit : Nat) : Nat := lengthAndBit &&& (2 ^ 31 - 1)

/-- The eight bytes of a record's transaction. -/
def uxrPackTxnid (uxr : Uxr) : Bytes := uintBytes 8 uxr.xid

/-- The type byte of a record, and the length of its value when it has one. -/
def uxrPackTypeAndLength (uxr : Uxr) : Bytes :=
  xrTypeByte uxr.type :: match uxr.type with
    | .insert val => uintBytes 4 val.length
    | _ => []

/-- The length word of a record, which reads as zero for a delete. -/
def uxrPackLengthAndBit (uxr : Uxr) : Bytes :=
  match uxr.type with
  | .insert val => uintBytes 4 (insertLength val.length)
  | _ => uintBytes 4 0

/-- The value of a record that has one. -/
def uxrPackData (uxr : Uxr) : Bytes :=
  match uxr.type with
  | .insert val => val
  | _ => []

/-- A provisional record between the outermost and the innermost one. -/
def uxrPackMiddle (uxr : Uxr) : Bytes :=
  uxrPackTxnid uxr ++ uxrPackTypeAndLength uxr ++ uxrPackData uxr

/-- The provisional records that readers do not need, outermost first. -/
def lePackProvisional (puxrs : List Uxr) : Bytes :=
  match puxrs with
  | innermost :: next :: outer =>
    -- The innermost value and the outermost transaction were already written.
    ((next :: outer).getLast?.elim [] fun outermost =>
      uxrPackTypeAndLength outermost ++ uxrPackData outermost) ++
    (next :: outer).dropLast.reverse.flatMap uxrPackMiddle ++
    uxrPackTxnid innermost
  | _ => []

/-- What follows the counts: transactions, length words, and values, each from the top down. -/
def lePackRest (ule : Ule) : Bytes :=
  (ule.puxrs.getLast?.elim [] uxrPackTxnid ++ ule.cuxrs.dropLast.flatMap uxrPackTxnid) ++
  (ule.puxrs.head?.elim [] uxrPackLengthAndBit ++ ule.cuxrs.flatMap uxrPackLengthAndBit) ++
  (ule.puxrs.head?.elim [] uxrPackData ++ ule.cuxrs.flatMap uxrPackData) ++
  lePackProvisional ule.puxrs

/-- The body of a leaf entry with more than one record. -/
def lePackMvcc (ule : Ule) : Bytes :=
  uintBytes 4 ule.numCuxrs ++ [UInt8.ofNat ule.numPuxrs] ++ lePackRest ule

/-- The size of the values that some records hold. -/
def valuesSize (uxrs : List Uxr) : Nat := (uxrs.map fun uxr => (uxrPackData uxr).length).sum

/-- The size of the lengths that some records carry beside their type byte. -/
def lengthsSize (uxrs : List Uxr) : Nat :=
  (uxrs.map fun uxr => if uxrIsInsert uxr then 4 else 0).sum

/-- The number of bytes that a leaf entry will take, as computed before it is written. -/
def leMemsizeFromUle (ule : Ule) : Option Nat := do
  invariant (0 < ule.numCuxrs)
  if ule.numCuxrs = 1 ∧ ule.numPuxrs = 0 then
    let committed ← ule.cuxrs.head?
    invariant (uxrIsInsert committed)
    pure (1 + 4 + (uxrPackData committed).length)
  else
    -- The fixed part is computed in 32-bit words before it is widened.
    let fixed := (1 + 4 + 1 + 4 * ule.numCuxrs + 8 * (ule.numCuxrs + ule.numPuxrs - 1)) % 2 ^ 32
    let committed := valuesSize ule.cuxrs
    match ule.puxrs with
    | [] => pure (fixed + committed)
    | innermost :: outer =>
      pure (fixed + committed + (uxrPackData innermost).length + 4 + outer.length +
        (lengthsSize outer + valuesSize outer))

/--
Pack a leaf entry.

The result is absent when a check fails, and holds nothing when no record inserts anything.
-/
def lePack (ule : Ule) : Option (Option Bytes) := do
  invariant (0 < ule.numCuxrs)
  let root ← ule.cuxrs.getLast?
  invariant (root.xid = txnidNone)
  if (ule.cuxrs ++ ule.puxrs).any uxrIsInsert then
    let memsize ← leMemsizeFromUle ule
    let bytes ←
      if ule.numCuxrs = 1 ∧ ule.numPuxrs = 0 then
        pure (0 :: (uintBytes 4 (uxrPackData root).length ++ uxrPackData root))
      else do
        invariant (ule.numPuxrs < maxTransactionRecords)
        pure (1 :: lePackMvcc ule)
    invariant (bytes.length = memsize)
    pure (some bytes)
  else pure none

/-- What a header says about a record before its value is read. -/
inductive XrHeader where
  | insert (vallen : Nat)
  | delete
  | placeholder
  deriving DecidableEq, Repr

/-- Read a transaction identifier. -/
def uxrUnpackTxnid : Reader Nat := readUint 8

/-- Read a type byte and the length that follows it for an insert. -/
def uxrUnpackTypeAndLength : Reader XrHeader := do
  let type ← readByte
  if type = 1 then do
    let vallen ← readUint 4
    pure (.insert vallen)
  else if type = 2 then pure .delete
  else if type = 3 then pure .placeholder
  -- No other byte is a record type.
  else failure

/-- Read a length word. -/
def uxrUnpackLengthAndBit : Reader XrHeader := do
  let lengthAndBit ← readUint 4
  pure (if isInsert lengthAndBit then .insert (getLength lengthAndBit) else .delete)

/-- Read the value that a header announces. -/
def uxrUnpackData : XrHeader → Reader Xr
  | .insert vallen => do
    let val ← readBytes vallen
    pure (.insert val)
  | .delete => pure .delete
  | .placeholder => pure .placeholder

/-- Read the values that a list of headers announces. -/
def unpackAllData : List XrHeader → Reader (List Xr)
  | [] => pure []
  | header :: headers => do
    let type ← uxrUnpackData header
    let types ← unpackAllData headers
    pure (type :: types)

/-- Read a type byte, a length, and a value. -/
def uxrUnpackTypeAndData : Reader Xr := do
  let header ← uxrUnpackTypeAndLength
  uxrUnpackData header

/-- Read a provisional record between the outermost and the innermost one. -/
def uxrUnpackMiddle : Reader Uxr := do
  let xid ← uxrUnpackTxnid
  let type ← uxrUnpackTypeAndData
  pure { type, xid }

/-- Read the provisional records, once the innermost value and outermost transaction are known. -/
def leUnpackProvisional (numPuxrs outermostXid : Nat) (innermost : Xr) : Reader (List Uxr) :=
  match numPuxrs with
  | 0 => pure []
  | 1 => pure [{ type := innermost, xid := outermostXid }]
  | count + 2 => do
    let outermost ← uxrUnpackTypeAndData
    let middle ← readMany uxrUnpackMiddle count
    let innermostXid ← uxrUnpackTxnid
    pure ({ type := innermost, xid := innermostXid } ::
      (middle.reverse ++ [{ type := outermost, xid := outermostXid }]))

/-- Read one value more when there are provisional records. -/
def whenProvisional {Value : Type} (numPuxrs : Nat) (absent : Value) (reader : Reader Value) :
    Reader Value :=
  if numPuxrs ≠ 0 then reader else pure absent

/-- Read the body of a leaf entry with more than one record. -/
def leUnpackMvcc : Reader Ule := do
  let numCuxrs ← readUint 4
  let _ ← StateT.lift (invariant (numCuxrs ≠ 0))
  let numPuxrs ← readByte
  let numPuxrs := numPuxrs.toNat
  let outermostXid ← whenProvisional numPuxrs txnidNone uxrUnpackTxnid
  let xids ← readMany uxrUnpackTxnid (numCuxrs - 1)
  let innermostHeader ← whenProvisional numPuxrs .delete uxrUnpackLengthAndBit
  let headers ← readMany uxrUnpackLengthAndBit numCuxrs
  let innermost ← uxrUnpackData innermostHeader
  let types ← unpackAllData headers
  let puxrs ← leUnpackProvisional numPuxrs outermostXid innermost
  -- The oldest committed record belongs to no transaction.
  pure { puxrs, cuxrs := types.zipWith Uxr.mk (xids ++ [txnidNone]) }

/-- Read a leaf entry off the front of some bytes. -/
def leUnpackReader : Reader Ule := do
  let type ← readByte
  if type = 0 then do
    let vallen ← readUint 4
    let val ← readBytes vallen
    pure { puxrs := [], cuxrs := [{ type := .insert val, xid := txnidNone }] }
  else if type = 1 then leUnpackMvcc
  else failure

/-- Unpack the leaf entry at the front of some bytes. -/
def leUnpack (bytes : Bytes) : Option Ule := (leUnpackReader.run bytes).map Prod.fst

/-- The length that a header announces. -/
def XrHeader.vallen : XrHeader → Nat
  | .insert vallen => vallen
  | _ => 0

/-- Step over the part of a leaf entry that follows its counts. -/
def leafentryRest (numPuxrs numCuxrs : Nat) : Reader Unit := do
  whenProvisional numPuxrs () (skipBytes 8)
  skipBytes ((numCuxrs - 1) * 8)
  let innermost ← whenProvisional numPuxrs .delete uxrUnpackLengthAndBit
  let headers ← readMany uxrUnpackLengthAndBit numCuxrs
  skipBytes (innermost.vallen + (headers.map XrHeader.vallen).sum)
  if 1 < numPuxrs then do
    let _ ← uxrUnpackTypeAndData
    let _ ← readMany uxrUnpackMiddle (numPuxrs - 2)
    let _ ← uxrUnpackTxnid
    pure ()
  else pure ()

/-- The number of bytes that follow the counts of a leaf entry. -/
def leafentryRestMemsize (numPuxrs numCuxrs : Nat) (start : Bytes) : Option Nat := do
  let (_, rest) ← (leafentryRest numPuxrs numCuxrs).run start
  pure (start.length - rest.length)

/-- The number of bytes that the leaf entry at the front of some bytes takes. -/
def leafentryMemsize (bytes : Bytes) : Option Nat := do
  let (type, body) ← readByte.run bytes
  if type = 0 then
    let (vallen, _) ← (readUint 4).run body
    pure (1 + 4 + vallen)
  else if type = 1 then
    let (numCuxrs, body) ← (readUint 4).run body
    invariant (numCuxrs ≠ 0)
    let (numPuxrs, start) ← readByte.run body
    let rest ← leafentryRestMemsize numPuxrs.toNat numCuxrs start
    pure (1 + 4 + 1 + rest)
  else none

end Tokuft
