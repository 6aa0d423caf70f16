import Tokuft.Logger.LogCursor

/-! The files that a logger writes: a header, and the bytes of entries one after another. -/

namespace Tokuft

/-- An entry of a log file, with the bytes that were written for it. -/
structure LogRecord where
  entry : LogEntry
  bytes : Bytes
  written : ∃ now given, given.type ∈ logtypes ∧ tokuLog now given = some bytes ∧
    entry = given.logged now

/-- A log file of some version. -/
structure WrittenFile where
  version : Nat
  records : List LogRecord
  supported : tokuLogMinSupportedVersion ≤ version ∧ version ≤ tokuLogVersion

/-- The header of a log file. -/
def logHeader (version : Nat) : Bytes := logMagic ++ [0, 0, 0, version.toUInt8]

/-- The bytes of entries, one after another. -/
def recordBytes (records : List LogRecord) : Bytes := records.flatMap LogRecord.bytes

/-- The bytes of a log file. -/
def WrittenFile.bytes (file : WrittenFile) : Bytes :=
  logHeader file.version ++ recordBytes file.records

section Records

variable {record : LogRecord} {records more : List LogRecord}

/-- What was written for an entry reads as it. -/
theorem LogRecord.reads (record : LogRecord) : ReadsBack record.bytes record.entry := by
  obtain ⟨now, given, known, done, same⟩ := record.written
  rw [same]
  exact (tokuLog_readsBack known done).2

/-- Every entry takes some bytes. -/
theorem LogRecord.positive (record : LogRecord) : 0 < record.bytes.length := by
  obtain ⟨now, given, known, done, _⟩ := record.written
  obtain ⟨buflen, reserved, _⟩ := of_bind done
  obtain ⟨sizes, _, rest⟩ := of_bind reserved
  have length := (tokuLog_readsBack known done).1
  rw [reserved] at length
  cases rest
  injection length with length
  omega

/-- No entries take no bytes. -/
@[simp] theorem recordBytes_nil : recordBytes [] = [] := rfl

/-- The bytes of an entry come before those of the next. -/
@[simp] theorem recordBytes_cons :
    recordBytes (record :: records) = record.bytes ++ recordBytes records := rfl

/-- The bytes of entries come in order. -/
@[simp] theorem recordBytes_append :
    recordBytes (records ++ more) = recordBytes records ++ recordBytes more :=
  List.flatMap_append

end Records

section Header

/-- A header ends where it should. -/
@[simp] theorem logHeader_length (version : Nat) : (logHeader version).length = logHeaderEnd := rfl

/-- The version is read back from a header. -/
theorem tokuReadLogmagic_header {version : Nat} (bound : version ≤ tokuLogVersion) (rest : Bytes) :
    tokuReadLogmagic (logHeader version ++ rest) = some version := by
  have small : version % 256 = version := by
    rw [tokuLogVersion] at bound
    omega
  simp [tokuReadLogmagic, logHeader, logMagic, small]

end Header

section Reading

/-- An entry is read forward from its start, and backward from its end. -/
theorem tokuLogFread_record (record : LogRecord) (before rest : Bytes) :
    tokuLogFread (before ++ (record.bytes ++ rest)) before.length =
      .ok (record.entry, before.length + record.bytes.length) :=
  (record.reads before rest).1

/-- An entry is read backward from its end. -/
theorem tokuLogFreadBackward_record (record : LogRecord) (before : Bytes)
    (header : logHeaderEnd ≤ before.length) (rest : Bytes) :
    tokuLogFreadBackward (before ++ (record.bytes ++ rest)) (before.length + record.bytes.length) =
      .ok (record.entry, before.length) :=
  (record.reads before rest).2 header

/-- Nothing is read at the end of a file. -/
theorem tokuLogFread_end (file : Bytes) : tokuLogFread file file.length = .error .eof := by
  rw [tokuLogFread, List.drop_length]
  rfl

/-- Nothing is read backward at the end of a header. -/
theorem tokuLogFreadBackward_start (file : Bytes) :
    tokuLogFreadBackward file logHeaderEnd = .error .eof := if_pos (Nat.le_refl _)

end Reading

end Tokuft
