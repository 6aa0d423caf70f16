import Tokuft.Logger.LogCursorExact

/-! Going to the last entry of a log whose last file has been damaged. -/

namespace Tokuft

open DigestReader

section Locality

/-- Reading an integer looks at its bytes. -/
theorem local_uintOf {byte : LogFileReader UInt8} (each : Local byte) :
    ∀ width, Local (uintOf byte width) := by
  intro width
  induction width with
  | zero => exact Local.pure 0
  | succ width ih => exact each.bind fun _ => ih.bind fun _ => Local.pure _

/-- Reading a byte looks at it. -/
theorem local_uint8 : Local tokuFreadUint8 := Local.digestByte _ _

/-- Reading an integer of 32 bits looks at four bytes. -/
theorem local_uint32 : Local tokuFreadUint32 :=
  (local_uintOf local_uint8 4).bind fun _ => Local.pure _

/-- Reading an integer outside of the checksum looks at four bytes. -/
theorem local_uint32_nocrclen : Local tokuFreadUint32Nocrclen :=
  (local_uintOf (Local.plainByte _) 4).bind fun _ => Local.pure _

/-- Reading an integer of 64 bits looks at its halves. -/
theorem local_uint64 : Local tokuFreadUint64 :=
  local_uint32.bind fun _ => local_uint32.bind fun _ => Local.pure _

/-- Reading a value of any type looks at its bytes. -/
theorem local_field (type : FieldType) : Local (tokuFread type) := by
  -- Each type has its own reader, which is made of readers of bytes.
  cases type
  case uint8 => exact local_uint8
  case bool => exact local_uint8.bind fun _ => Local.pure _
  case uint32 => exact local_uint32
  case uint64 => exact local_uint64
  case filenum => exact local_uint32
  case filenums => exact local_uint32.bind fun num => Local.many local_uint32 _
  case bytestring => exact local_uint32.bind fun len => Local.many local_uint8 _
  case blocknum => exact local_uint64.bind fun _ => Local.pure _
  case lsn => exact local_uint64
  case txnid => exact local_uint64
  case txnidPair => exact local_uint64.bind fun _ => local_uint64.bind fun _ => Local.pure _
  case xidp =>
    exact local_uint32.bind fun _ => local_uint8.bind fun _ => local_uint8.bind fun _ =>
      (Local.many local_uint8 _).bind fun _ => (Local.many local_uint8 _).bind fun _ => Local.pure _

/-- Reading all fields looks at their bytes. -/
theorem local_fields : ∀ fields, Local (tokuFreadFields fields) := by
  intro fields
  induction fields with
  | nil => exact Local.pure _
  | cons field fields ih =>
    exact (local_field field.type).bind fun _ => ih.bind fun _ => Local.pure _

/-- Reading an entry looks at nothing behind it. -/
theorem local_logFread : Local logFread := by
  -- The parts of an entry are read one after another.
  have trailer : ∀ len1 checksum actualLen, Local (checkTrailer len1 checksum actualLen) := by
    intro len1 checksum actualLen
    refine local_uint32_nocrclen.bind fun _ => local_uint32_nocrclen.bind fun _ => ?_
    split
    · exact Local.fail _
    · exact Local.pure _
  refine local_uint32.bind fun len1 => local_uint8.bind fun cmd => ?_
  split
  · exact local_uint64.bind fun _ => (local_fields _).bind fun _ => Local.look.bind fun _ =>
      (trailer _ _ _).bind fun _ => Local.pure _
  · exact Local.fail _

end Locality

/-- Bytes that do not start with an entry. -/
def Broken (tail : Bytes) : Prop := ∃ error, logFread.run ⟨tail, X1764.init, 0⟩ = .error error

/-- The entries whose bytes are complete within some size. -/
def completeRecords : Nat → List LogRecord → List LogRecord
  | _, [] => []
  | size, record :: records =>
    if record.bytes.length ≤ size then
      record :: completeRecords (size - record.bytes.length) records
    else []

/-- What a written file holds when it is cut off behind its header, or when its last entry is
overwritten by bytes that do not start with an entry; with the entries that are still complete. -/
inductive Damage (file : WrittenFile) : List LogRecord → Bytes → Prop where
  | cut {size : Nat} (header : logHeaderEnd ≤ size) :
    Damage file (completeRecords (size - logHeaderEnd) file.records) (file.bytes.take size)
  | overwritten {records : List LogRecord} {last : LogRecord} {tail : Bytes}
    (records_eq : file.records = records ++ [last]) (broken : Broken tail) :
    Damage file records (logHeader file.version ++ (recordBytes records ++ tail))

section Tails

variable {record : LogRecord} {records : List LogRecord} {tail : Bytes}

/-- A part of an entry does not start with an entry. -/
theorem broken_part (record : LogRecord) {size : Nat} (short : size < record.bytes.length) :
    Broken (record.bytes.take size) := by
  have read := (record.reads [] []).1
  rw [List.append_nil, List.nil_append, List.length_nil, Nat.zero_add, tokuLogFread,
    List.drop_zero] at read
  cases run : logFread.run ⟨record.bytes, X1764.init, 0⟩ with
  | error wrong =>
    rw [run] at read
    cases read
  | ok result =>
    obtain ⟨entry, after⟩ := result
    rw [run] at read
    -- The reader takes all bytes of the entry.
    have size' : record.bytes.length - after.rest.length = record.bytes.length := by
      injection read with pair
      exact congrArg Prod.snd pair
    have all : after.rest = [] := List.eq_nil_of_length_eq_zero (by omega)
    exact local_logFread.cut run all short

/-- Bytes that are cut off are complete entries, and then bytes that do not start with one. -/
theorem take_recordBytes : ∀ (records : List LogRecord) (size : Nat),
    ∃ tail, (recordBytes records).take size = recordBytes (completeRecords size records) ++ tail ∧
      Broken tail := by
  intro records
  induction records with
  | nil => exact fun size => ⟨[], by simp [completeRecords], .eof, rfl⟩
  | cons record records ih =>
    intro size
    rw [completeRecords, recordBytes_cons, List.take_append]
    by_cases complete : record.bytes.length ≤ size
    · obtain ⟨tail, split, broken⟩ := ih (size - record.bytes.length)
      refine ⟨tail, ?_, broken⟩
      rw [if_pos complete, split, List.take_of_length_le complete, recordBytes_cons,
        List.append_assoc]
    · -- The entry is cut, and nothing behind it is left.
      have short : size < record.bytes.length := by omega
      refine ⟨record.bytes.take size, ?_, broken_part record short⟩
      rw [if_neg complete, Nat.sub_eq_zero_of_le (by omega)]
      simp

/-- A damaged file is a header, complete entries, and then bytes that do not start with one. -/
theorem Damage.split {file : WrittenFile} {damaged : Bytes} (damage : Damage file records damaged) :
    ∃ tail, damaged = logHeader file.version ++ (recordBytes records ++ tail) ∧ Broken tail := by
  -- A cut leaves the entries before it, and damage leaves those before the entry it hits.
  cases damage with
  | @cut size header =>
    obtain ⟨tail, split, broken⟩ := take_recordBytes file.records (size - logHeaderEnd)
    refine ⟨tail, ?_, broken⟩
    rw [WrittenFile.bytes, List.take_append, logHeader_length, split,
      List.take_of_length_le (by rw [logHeader_length]; exact header)]
  | overwritten _ broken => exact ⟨_, rfl, broken⟩

end Tails

section Repair

variable {files : List WrittenFile} {records : List LogRecord} {tail : Bytes} {lc : LogCursor}

end Repair

section Exact

variable {files : List WrittenFile} {version : Nat} {records : List LogRecord}
  {tail : Bytes} {lc : LogCursor}

section

variable (supported : tokuLogMinSupportedVersion ≤ version ∧ version ≤ tokuLogVersion)
include supported

end

end Exact

end Tokuft
