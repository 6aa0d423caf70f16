import Tokuft.Logger.LogRoundTrip

/-! Rollback log nodes as bytes, and reading them back. -/

namespace Tokuft

/-- A rollback log node as it is stored, with its entries newest first. -/
structure StoredRollbackLog where
  layoutVersion : UInt32
  layoutVersionOriginal : UInt32
  buildId : UInt32
  txnid : LoggedTxnidPair
  sequence : UInt64
  blocknum : Int64
  previous : Int64
  rollentryResidentBytecount : UInt64
  /-- How much memory the entries take. -/
  arenaSize : UInt64
  entries : List LoggedRollEntry
  deriving DecidableEq

/-- The layout version of everything that is written. -/
def ftLayoutVersion : UInt32 := 29

/-- A magic word, two versions and the identifier of a build. -/
def nodeHeaderOverhead : Nat := 8 + 4 + 4 + 4

/-- The magic word `tokuroll`. -/
def rollbackMagic : Bytes := [0x74, 0x6f, 0x6b, 0x75, 0x72, 0x6f, 0x6c, 0x6c]

namespace StoredRollbackLog

/-- The size of a node in bytes. -/
def serializeSize (log : StoredRollbackLog) : Nat :=
  nodeHeaderOverhead + 16 + 8 + 8 + 8 + 8 + 8 + log.rollentryResidentBytecount.toNat

/-- Write everything but the entries. -/
def wbufHead (buildId : UInt32) (log : StoredRollbackLog) : BoundedWriter := fun wb => do
  let wb ← putBytes rollbackMagic wb
  let wb ← wbufNocrcInt log.layoutVersion wb
  let wb ← wbufNocrcInt log.layoutVersionOriginal wb
  let wb ← wbufNocrcInt buildId wb
  let wb ← wbufNocrcTxnidPair log.txnid wb
  let wb ← wbufNocrcUlonglong log.sequence wb
  let wb ← wbufNocrcUlonglong log.blocknum.toUInt64 wb
  let wb ← wbufNocrcUlonglong log.previous.toUInt64 wb
  let wb ← wbufNocrcUlonglong log.rollentryResidentBytecount wb
  wbufNocrcUlonglong log.arenaSize wb

/-- Write a node, its newest entry first. -/
def serialize (buildId : UInt32) (log : StoredRollbackLog) : Option Bytes := do
  invariant (log.layoutVersion = ftLayoutVersion)
  let wb ← log.wbufHead buildId ⟨log.serializeSize % 2 ^ 32, []⟩
  let doneBefore := wb.written.length
  let wb ← putAll LoggedRollEntry.wbufNocrcWrite log.entries wb
  invariant (doneBefore + log.rollentryResidentBytecount.toNat = wb.written.length)
  invariant (wb.written.length = wb.size)
  invariant (log.serializeSize = wb.written.length)
  return wb.written

end StoredRollbackLog

/-- Read an integer of 32 bits. -/
def rbufInt : Reader UInt32 := do
  let v ← readUint 4
  pure v.toUInt32

/-- Read an integer of 64 bits, the high half first. -/
def rbufUlonglong : Reader UInt64 := do
  let i0 ← rbufInt
  let i1 ← rbufInt
  pure ((i0.toUInt64 <<< (32 : UInt64)) ||| i1.toUInt64)

/-- Read both identifiers of a transaction. -/
def rbufTxnidPair : Reader LoggedTxnidPair := do
  let parent ← rbufUlonglong
  let child ← rbufUlonglong
  pure ⟨parent, child⟩

/-- Read a block number. -/
def rbufBlocknum : Reader Int64 := do
  let b ← rbufUlonglong
  pure b.toInt64

/-- Read a truth value. -/
def rbufMaBool : Reader Bool := do
  let n ← readByte
  pure (n != 0)

/-- Read a length and as many bytes. -/
def rbufMaBytestring : Reader Bytes := do
  let len ← rbufInt
  readBytes len.toNat

/-- Read a number of file numbers. -/
def rbufMaFilenums : Reader (List UInt32) := do
  let num ← rbufInt
  readMany rbufInt num.toNat

/-- Read a value of some type. No rollback entry has a field of the types that are left out. -/
def rbufMa : (type : FieldType) → Reader type.Value
  | .uint8 => readByte
  | .bool => rbufMaBool
  | .uint32 => rbufInt
  | .uint64 => rbufUlonglong
  | .filenum => rbufInt
  | .filenums => rbufMaFilenums
  | .bytestring => rbufMaBytestring
  | .blocknum => rbufBlocknum
  | .txnid => rbufUlonglong
  | .txnidPair => rbufTxnidPair
  | .lsn | .xidp => fun _ => none

/-- Read the values of all fields, one after another. -/
def rbufMaFields : (fields : List Field) → Reader (FieldValues fields)
  | [] => pure ()
  | field :: fields => do
    let value ← rbufMa field.type
    let values ← rbufMaFields fields
    pure (value, values)

/-- Read the fields that a command asks for. -/
def parseRollbackFields (type : LogType) : Reader LoggedRollEntry := do
  let values ← rbufMaFields type.fields
  pure ⟨type, values⟩

/-- Parse a rollback entry, without its size; an unknown command is an error. -/
def tokuParseRollback (buf : Bytes) : Option (Option LoggedRollEntry) := do
  invariant (0 < buf.length)
  let cmd ← buf.head?
  match typeOfCmd rollbacks cmd with
  | some type => do
    let (item, _) ← (parseRollbackFields type).run buf.tail
    return some item
  | none => return none

/-- Read an entry off the front of the bytes that are left. -/
def takeRollEntry (rest : Bytes) : Option (Option LoggedRollEntry × Bytes) := do
  let (rollbackFsize, rest) ← rbufInt.run rest
  let (itemBuf, rest) ← (readBytes (rollbackFsize - 4).toNat).run rest
  let item ← tokuParseRollback itemBuf
  return (item, rest)

/-- Read entries until nothing is left; each is older than the ones before it. -/
def loadRollEntries : Nat → Bytes → Option (Option (List LoggedRollEntry))
  | _, [] => some (some [])
  | 0, _ => none
  | fuel + 1, rest => do
    let (item, rest) ← takeRollEntry rest
    match item with
    | none => return none
    | some item => do
      let items ← loadRollEntries fuel rest
      return items.map (item :: ·)

/-- Read everything but the entries. -/
def rbufHead : Reader (Bytes × StoredRollbackLog) := do
  let magic ← readBytes 8
  let layoutVersion ← rbufInt
  let layoutVersionOriginal ← rbufInt
  let buildId ← rbufInt
  let txnid ← rbufTxnidPair
  let sequence ← rbufUlonglong
  let blocknum ← rbufBlocknum
  let previous ← rbufBlocknum
  let rollentryResidentBytecount ← rbufUlonglong
  let arenaSize ← rbufUlonglong
  pure (magic, ⟨layoutVersion, layoutVersionOriginal, buildId, txnid, sequence, blocknum, previous,
    rollentryResidentBytecount, arenaSize, []⟩)

/-- Read a node of some block; that another block is meant or that an entry has an unknown
command is an error. -/
def deserializeRollbackLog (blocknum : Int64) (rb : Bytes) : Option (Option StoredRollbackLog) := do
  let ((magic, result), rest) ← rbufHead.run rb
  invariant (magic = rollbackMagic)
  invariant ((25 ≤ result.layoutVersion ∧ result.layoutVersion ≤ 27) ∨
    result.layoutVersion = ftLayoutVersion)
  if result.blocknum ≠ blocknum then return none
  else do
    invariant (4 < rb.length)
    let entries ← loadRollEntries rest.length rest
    return entries.map fun entries => { result with entries }

end Tokuft
