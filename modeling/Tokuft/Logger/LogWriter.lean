import Tokuft.Logger.LogTables

/-! The writers of log entries and of rollback entries, and the sizes that they reserve. -/

namespace Tokuft

/-- Write a character. -/
def wbufNocrcChar (ch : UInt8) : BoundedWriter := putBytes [ch]

/-- Write an integer of 32 bits. -/
def wbufNocrcInt (i : UInt32) : BoundedWriter := putBytes (uintBytes 4 i.toNat)

/-- Write an integer of 64 bits, the high half first. -/
def wbufNocrcUlonglong (ull : UInt64) : BoundedWriter := fun wbuf => do
  let wbuf ← wbufNocrcInt (ull >>> (32 : UInt64)).toUInt32 wbuf
  wbufNocrcInt (ull &&& (0xFFFFFFFF : UInt64)).toUInt32 wbuf

/-- Write a length and as many bytes. -/
def wbufNocrcBytes (bytes : Bytes) : BoundedWriter := fun wbuf => do
  let wbuf ← wbufNocrcInt bytes.length.toUInt32 wbuf
  putBytes bytes wbuf

/-- Write a number of file numbers. -/
def wbufNocrcFilenums (v : List UInt32) : BoundedWriter := fun wbuf => do
  let wbuf ← wbufNocrcInt v.length.toUInt32 wbuf
  putAll wbufNocrcInt v wbuf

/-- Write both identifiers of a transaction. -/
def wbufNocrcTxnidPair (txnid : LoggedTxnidPair) : BoundedWriter := fun wbuf => do
  let wbuf ← wbufNocrcUlonglong txnid.parentId64 wbuf
  wbufNocrcUlonglong txnid.childId64 wbuf

/-- Write the name of a prepared transaction, with four bytes and one byte and one byte for what
was defined as long. -/
def wbufNocrcXidp (xid : TokuXaXid) : BoundedWriter := fun wbuf => do
  let wbuf ← wbufNocrcInt xid.formatID.toUInt64.toUInt32 wbuf
  let wbuf ← wbufNocrcChar xid.gtrid.length.toUInt8 wbuf
  let wbuf ← wbufNocrcChar xid.bqual.length.toUInt8 wbuf
  putBytes (xid.gtrid ++ xid.bqual) wbuf

/-- Write a value of some type. -/
def wbufNocrc : (type : FieldType) → type.Value → BoundedWriter
  | .uint8, v => wbufNocrcChar v
  | .bool, (b : Bool) => wbufNocrcChar (if b then 1 else 0)
  | .uint32, v => wbufNocrcInt v
  | .uint64, v => wbufNocrcUlonglong v
  | .filenum, fileid => wbufNocrcInt fileid
  | .filenums, v => wbufNocrcFilenums v
  | .bytestring, v => wbufNocrcBytes v
  | .blocknum, b => wbufNocrcUlonglong b.toUInt64
  | .lsn, lsn => wbufNocrcUlonglong lsn
  | .txnid, txnid => wbufNocrcUlonglong txnid
  | .txnidPair, txnid => wbufNocrcTxnidPair txnid
  | .xidp, xid => wbufNocrcXidp xid

/-- The size of a value of some type. -/
def logsizeof : (type : FieldType) → type.Value → Option Nat
  | .uint8, _ => some 1
  | .bool, _ => some 1
  | .uint32, _ => some 4
  | .uint64, _ => some 8
  | .filenum, _ => some 4
  | .filenums, fs => some (4 + fs.length * 4)
  | .bytestring, bs => some (4 + bs.length)
  | .blocknum, _ => some 8
  | .lsn, _ => some 8
  | .txnid, _ => some 8
  | .txnidPair, _ => some 16
  | .xidp, xid => do
    invariant (xid.gtrid.length ≤ 64)
    invariant (xid.bqual.length ≤ 64)
    return xid.gtrid.length + xid.bqual.length + 4 + 1 + 1

/-- Write the values of all fields, one after another. -/
def wbufNocrcFields : (fields : List Field) → FieldValues fields → BoundedWriter
  | [], _, wbuf => some wbuf
  | field :: fields, (value, values), wbuf => do
    let wbuf ← wbufNocrc field.type value wbuf
    wbufNocrcFields fields values wbuf

/-- The size of the values of all fields. -/
def logsizeofFields : (fields : List Field) → FieldValues fields → Option Nat
  | [], _ => some 0
  | field :: fields, (value, values) => do
    let size ← logsizeof field.type value
    let sizes ← logsizeofFields fields values
    return size + sizes

/-- A time of zero stands for the current time. -/
def stamp (now : UInt64) : (field : Field) → field.type.Value → field.type.Value
  | ⟨.uint64, name⟩, (v : UInt64) => if name = "timestamp" then (if v = 0 then now else v) else v
  | ⟨.uint8, _⟩, v | ⟨.bool, _⟩, v | ⟨.uint32, _⟩, v | ⟨.filenum, _⟩, v | ⟨.filenums, _⟩, v
  | ⟨.bytestring, _⟩, v | ⟨.blocknum, _⟩, v | ⟨.lsn, _⟩, v | ⟨.txnid, _⟩, v | ⟨.txnidPair, _⟩, v
  | ⟨.xidp, _⟩, v => v

/-- The length of a log entry. -/
def LogEntry.buflen (entry : LogEntry) : Option Nat := do
  let sizes ← logsizeofFields entry.type.fields entry.values
  return 4 + 1 + 8 + sizes + 8

/-- Write the part of a log entry that the checksum covers. -/
def LogEntry.wbufNocrcBody (now : UInt64) (entry : LogEntry) (buflen : Nat) : BoundedWriter :=
  fun wbuf => do
    let wbuf ← wbufNocrcInt buflen.toUInt32 wbuf
    let wbuf ← wbufNocrcChar entry.type.cmd wbuf
    let wbuf ← wbufNocrcUlonglong entry.lsn wbuf
    wbufNocrcFields entry.type.fields
      (FieldValues.map (stamp now) entry.type.fields entry.values) wbuf

/-- Write a log entry into the room that was made for it. -/
def tokuLog (now : UInt64) (entry : LogEntry) : Option Bytes := do
  let buflen ← entry.buflen
  -- Making room fails for an entry that large.
  invariant (buflen < 2 ^ 30)
  let wbuf ← entry.wbufNocrcBody now buflen ⟨buflen, []⟩
  let wbuf ← wbufNocrcInt (X1764.memory wbuf.written) wbuf
  let wbuf ← wbufNocrcInt buflen.toUInt32 wbuf
  invariant (wbuf.written.length = buflen)
  return wbuf.written

/-- The size of a rollback entry, with its command and the size itself. -/
def LoggedRollEntry.rollbackFsize (item : LoggedRollEntry) : Option Nat := do
  let sizes ← logsizeofFields item.type.fields item.values
  return 1 + 4 + sizes

/-- Write a rollback entry. -/
def LoggedRollEntry.wbufNocrcWrite (item : LoggedRollEntry) : BoundedWriter := fun wbuf => do
  let rollbackFsize ← item.rollbackFsize
  let wbuf ← wbufNocrcInt rollbackFsize.toUInt32 wbuf
  let wbuf ← wbufNocrcChar item.type.cmd wbuf
  wbufNocrcFields item.type.fields item.values wbuf

end Tokuft
