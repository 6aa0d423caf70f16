import Tokuft.Library.DigestReader
import Tokuft.Logger.LogWriter

/-! The readers of log entries, forward from a position of a file and backward from it. -/

namespace Tokuft

/-- Why an entry could not be read: the file has ended, or what it holds is not an entry. -/
inductive LogReadError where
  | eof
  | badFormat
  deriving DecidableEq, Repr

/-- Readers of log files keep the checksum and the length of what they read. -/
abbrev LogFileReader (Value : Type) := DigestReader X1764 LogReadError Value

open DigestReader

/-- Read an integer of so many bytes, least significant byte first. -/
def uintOf (byte : LogFileReader UInt8) : Nat → LogFileReader Nat
  | 0 => pure 0
  | width + 1 => do
    let low ← byte
    let high ← uintOf byte width
    pure (low.toNat + 256 * high)

/-- Read a byte. -/
def tokuFreadUint8 : LogFileReader UInt8 := digestByte X1764.add .eof

/-- Read an integer of 32 bits that is not part of the checksum. -/
def tokuFreadUint32Nocrclen : LogFileReader UInt32 := do
  let v ← uintOf (plainByte .eof) 4
  pure v.toUInt32

/-- Read an integer of 32 bits. -/
def tokuFreadUint32 : LogFileReader UInt32 := do
  let v ← uintOf tokuFreadUint8 4
  pure v.toUInt32

/-- Read an integer of 64 bits, the high half first. -/
def tokuFreadUint64 : LogFileReader UInt64 := do
  let v1 ← tokuFreadUint32
  let v2 ← tokuFreadUint32
  pure ((v1.toUInt64 <<< (32 : UInt64)) ||| v2.toUInt64)

/-- Read a truth value. -/
def tokuFreadBool : LogFileReader Bool := do
  let iv ← tokuFreadUint8
  pure (iv != 0)

/-- Read both identifiers of a transaction. -/
def tokuFreadTxnidPair : LogFileReader LoggedTxnidPair := do
  let parent ← tokuFreadUint64
  let child ← tokuFreadUint64
  pure ⟨parent, child⟩

/-- Read the name of a prepared transaction. -/
def tokuFreadXidp : LogFileReader TokuXaXid := do
  let formatID ← tokuFreadUint32
  let gtridLength ← tokuFreadUint8
  let bqualLength ← tokuFreadUint8
  let gtrid ← many tokuFreadUint8 gtridLength.toNat
  let bqual ← many tokuFreadUint8 bqualLength.toNat
  pure ⟨formatID.toUInt64.toInt64, gtrid, bqual⟩

/-- Read a length and as many bytes. -/
def tokuFreadBytestring : LogFileReader Bytes := do
  let len ← tokuFreadUint32
  many tokuFreadUint8 len.toNat

/-- Read a number of file numbers. -/
def tokuFreadFilenums : LogFileReader (List UInt32) := do
  let num ← tokuFreadUint32
  many tokuFreadUint32 num.toNat

/-- Read a block number. -/
def tokuFreadBlocknum : LogFileReader Int64 := do
  let b ← tokuFreadUint64
  pure b.toInt64

/-- Read a value of some type. -/
def tokuFread : (type : FieldType) → LogFileReader type.Value
  | .uint8 => tokuFreadUint8
  | .bool => tokuFreadBool
  | .uint32 => tokuFreadUint32
  | .uint64 => tokuFreadUint64
  | .filenum => tokuFreadUint32
  | .filenums => tokuFreadFilenums
  | .bytestring => tokuFreadBytestring
  | .blocknum => tokuFreadBlocknum
  | .lsn => tokuFreadUint64
  | .txnid => tokuFreadUint64
  | .txnidPair => tokuFreadTxnidPair
  | .xidp => tokuFreadXidp

/-- Read the values of all fields, one after another. -/
def tokuFreadFields : (fields : List Field) → LogFileReader (FieldValues fields)
  | [] => pure ()
  | field :: fields => do
    let value ← tokuFread field.type
    let values ← tokuFreadFields fields
    pure (value, values)

/-- The checksum and both lengths have to be right. -/
def checkTrailer (len1 : UInt32) (checksum : UInt32) (actualLen : Nat) :
    LogFileReader Unit := do
  let checksumInFile ← tokuFreadUint32Nocrclen
  let lenInFile ← tokuFreadUint32Nocrclen
  if checksumInFile ≠ checksum ∨ lenInFile.toNat ≠ (actualLen + 8) % 2 ^ 32 ∨ len1 ≠ lenInFile then
    fail .badFormat
  else pure ()

/-- Read what follows the command of an entry of some kind. -/
def tokuLogFreadType (type : LogType) (len1 : UInt32) : LogFileReader LogEntry := do
  let lsn ← tokuFreadUint64
  let values ← tokuFreadFields type.fields
  let (checksum, actualLen) ← look
  checkTrailer len1 checksum.finish actualLen
  pure ⟨type, lsn, values⟩

/-- Read an entry. -/
def logFread : LogFileReader LogEntry := do
  let len1 ← tokuFreadUint32
  let cmd ← tokuFreadUint8
  match typeOfCmd logtypes cmd with
  | some type => tokuLogFreadType type len1
  | none => fail .badFormat

/-- The header of a log file is never part of an entry. -/
def logHeaderEnd : Nat := 12

/-- Read an entry at a position of a file, and find the position behind it. -/
def tokuLogFread (file : Bytes) (position : Nat) : Except LogReadError (LogEntry × Nat) :=
  match logFread.run ⟨file.drop position, X1764.init, 0⟩ with
  | .ok (entry, after) => .ok (entry, file.length - after.rest.length)
  | .error error => .error error

/-- Read an integer that is not part of a checksum at a position of a file. -/
def freadLength (file : Bytes) (position : Nat) : Option UInt32 :=
  match tokuFreadUint32Nocrclen.run ⟨file.drop position, X1764.init, 0⟩ with
  | .ok (len, _) => some len
  | .error _ => none

/-- A length as the integer of 32 bits that is subtracted from a position. -/
def seekBack (position : Nat) (len : UInt32) : Option Nat :=
  let target : Int := position - len.toInt32.toInt
  if 0 ≤ target then some target.toNat else none

/-- Read the entry that ends at a position of a file, and find the position before it. -/
def tokuLogFreadBackward (file : Bytes) (position : Nat) :
    Except LogReadError (LogEntry × Nat) :=
  if position ≤ logHeaderEnd then .error .eof
  else
    match freadLength file (position - 4) with
    | none => .error .badFormat
    | some len =>
      match seekBack position len with
      | none => .error .badFormat
      | some start =>
        match tokuLogFread file start with
        | .error _ => .error .badFormat
        | .ok (entry, after) =>
          if after = position then .ok (entry, start) else .error .badFormat

end Tokuft
