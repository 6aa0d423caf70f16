import Tokuft.Logger.LogFields

/-! A log entry reads back from where it was written, forward and backward. -/

namespace Tokuft

open DigestReader

open DigestReader

variable {now : UInt64} {entry : LogEntry} {buflen : Nat}

/-- The values that a log entry has on disk. -/
def LogEntry.stamped (now : UInt64) (entry : LogEntry) : FieldValues entry.type.fields :=
  FieldValues.map (stamp now) entry.type.fields entry.values

/-- What is read where a log entry was written: a time of zero is the time of the writing, and
format identifiers have lost their high half. -/
def LogEntry.logged (now : UInt64) (entry : LogEntry) : LogEntry where
  type := entry.type
  lsn := entry.lsn
  values := FieldValues.map (fun field => readBack field.type) entry.type.fields
    (entry.stamped now)

/-- The part of an entry that the checksum covers. -/
def LogEntry.body (now : UInt64) (entry : LogEntry) (buflen : Nat) : Bytes :=
  uintBytes 4 buflen.toUInt32.toNat ++ ([entry.type.cmd] ++ (ulonglongBytes entry.lsn ++
    fieldsBytes entry.type.fields (entry.stamped now)))

/-- The bytes of an entry. -/
def LogEntry.bytes (now : UInt64) (entry : LogEntry) (buflen : Nat) : Bytes :=
  entry.body now buflen ++ (uintBytes 4 (X1764.memory (entry.body now buflen)).toNat ++
    uintBytes 4 buflen.toUInt32.toNat)

/-- A time takes as much room as any other time. -/
theorem logsizeof_stamp (now : UInt64) (field : Field) (value : field.type.Value) :
    logsizeof field.type (stamp now field value) = logsizeof field.type value := by
  obtain ⟨type, name⟩ := field
  cases type <;> rfl

/-- The sizes of fields do not depend on the time. -/
theorem logsizeofFields_stamp (now : UInt64) : ∀ (fields : List Field)
    (values : FieldValues fields),
    logsizeofFields fields (FieldValues.map (stamp now) fields values) =
      logsizeofFields fields values := by
  -- By induction on the fields.
  intro fields
  induction fields with
  | nil => exact fun _ => rfl
  | cons field fields ih =>
    rintro ⟨value, values⟩
    simp only [FieldValues.map, logsizeofFields, logsizeof_stamp, ih]

/-- The sizes of the parts of an entry, and that its lengths can be written down. -/
theorem stamped_sizes (now : UInt64) (reserved : entry.buflen = some buflen)
    (bound : buflen < 2 ^ 30) :
    (fieldsBytes entry.type.fields (entry.stamped now)).length + 21 = buflen ∧
      FieldsFit entry.type.fields (entry.stamped now) := by
  obtain ⟨sizes, here, rest⟩ := of_bind reserved
  cases rest
  rw [← logsizeofFields_stamp now] at here
  obtain ⟨length, fits⟩ := fieldsBytes_length here
  exact ⟨by rw [LogEntry.stamped, length]; omega, fits (by omega)⟩

/-- The checksum covers all but the last eight bytes. -/
theorem body_length (now : UInt64) (reserved : entry.buflen = some buflen)
    (bound : buflen < 2 ^ 30) :
    (entry.body now buflen).length + 8 = buflen := by
  have sizes := (stamped_sizes now reserved bound).1
  simp only [LogEntry.body, List.length_append, uintBytes_length, List.length_singleton,
    ulonglongBytes_length]
  omega

/-- An entry has the length that it says. -/
theorem bytes_length (now : UInt64) (reserved : entry.buflen = some buflen)
    (bound : buflen < 2 ^ 30) :
    (entry.bytes now buflen).length = buflen := by
  have size := body_length now reserved bound
  simp only [LogEntry.bytes, List.length_append, uintBytes_length]
  omega

/-- Writing an entry fills the room that was reserved for it. -/
theorem tokuLog_eq (reserved : entry.buflen = some buflen) (bound : buflen < 2 ^ 30) :
    tokuLog now entry = some (entry.bytes now buflen) := by
  -- The body, its checksum and its length come to the length that was computed.
  have size := body_length now reserved bound
  have front : Writes (entry.wbufNocrcBody now buflen) (entry.body now buflen) :=
    (Writes.bytes _).andThen ((Writes.bytes _).andThen
      ((writes_ulonglong _).andThen (writes_fields _ _)))
  have body := front ⟨buflen, []⟩ (by
    show 0 + (entry.body now buflen).length ≤ buflen
    omega)
  have trailer : ∀ (v : UInt32) (written : Bytes), written.length + 4 ≤ buflen →
      wbufNocrcInt v ⟨buflen, written⟩ = some ⟨buflen, written ++ uintBytes 4 v.toNat⟩ := by
    intro v written fits
    exact Writes.bytes _ ⟨buflen, written⟩ (by rw [uintBytes_length]; exact fits)
  have checksum := trailer (X1764.memory (entry.body now buflen)) (entry.body now buflen) (by omega)
  have again := trailer buflen.toUInt32 (entry.body now buflen ++
    uintBytes 4 (X1764.memory (entry.body now buflen)).toNat) (by
      rw [List.length_append, uintBytes_length]
      omega)
  have whole := bytes_length now reserved bound
  rw [LogEntry.bytes, ← List.append_assoc] at whole
  simp only [tokuLog, reserved, Option.bind_eq_bind, Option.bind_some, invariant_of bound, body,
    List.nil_append, checksum, again, invariant_of whole]
  rw [LogEntry.bytes, ← List.append_assoc]
  rfl

/-- A written checksum and a written length are found to be right. -/
theorem scans_trailer (len1 checksum : UInt32) {actualLen : Nat}
    (right : len1.toNat = (actualLen + 8) % 2 ^ 32) :
    Scans X1764.add (checkTrailer len1 checksum actualLen)
      (uintBytes 4 checksum.toNat ++ uintBytes 4 len1.toNat) [] () := by
  -- Both lengths are the same number, and the checksum is that of the body.
  have checked : Scans X1764.add (if checksum ≠ checksum ∨
      len1.toNat ≠ (actualLen + 8) % 2 ^ 32 ∨ len1 ≠ len1 then fail LogReadError.badFormat
      else pure ()) [] [] () := by
    rw [if_neg (by simp [right])]
    exact Scans.pure ()
  have second : Scans X1764.add (do
      let lenInFile ← tokuFreadUint32Nocrclen
      if checksum ≠ checksum ∨ lenInFile.toNat ≠ (actualLen + 8) % 2 ^ 32 ∨ len1 ≠ lenInFile then
        fail LogReadError.badFormat
      else pure ()) (uintBytes 4 len1.toNat ++ []) ([] ++ []) () :=
    Scans.bind (scans_uint32_nocrclen len1) checked
  rw [List.append_nil] at second
  exact Scans.bind (scans_uint32_nocrclen checksum) second

/-- What follows the command of an entry is read with the checksum that was kept so far. -/
theorem tokuLogFreadType_run {type : LogType} {values : FieldValues type.fields}
    (fits : FieldsFit type.fields values) (lsn : UInt64) {len1 : UInt32} {digest covered : X1764}
    {count length : Nat}
    (digested : (fieldsBytes type.fields values).foldl X1764.add
      ((ulonglongBytes lsn).foldl X1764.add digest) = covered)
    (counted : count + (ulonglongBytes lsn).length + (fieldsBytes type.fields values).length =
      length) (right : len1.toNat = (length + 8) % 2 ^ 32) (rest : Bytes) :
    (tokuLogFreadType type len1).run ⟨ulonglongBytes lsn ++ (fieldsBytes type.fields values ++
        ((uintBytes 4 covered.finish.toNat ++ uintBytes 4 len1.toNat) ++ rest)), digest, count⟩ =
      .ok (⟨type, lsn, FieldValues.map (fun field => readBack field.type) type.fields values⟩,
        ⟨rest, covered, length⟩) := by
  apply (run_bind_ok (scans_uint64 lsn _ _ _)).trans
  apply (run_bind_ok (scans_fields _ _ fits _ _ _)).trans
  rw [digested, counted]
  apply (run_bind_ok rfl).trans
  exact run_bind_ok (scans_trailer len1 covered.finish right _ _ _)

/-- An entry is read from its bytes, whatever follows them. -/
theorem logFread_run (known : entry.type ∈ logtypes) (reserved : entry.buflen = some buflen)
    (bound : buflen < 2 ^ 30) (rest : Bytes) :
    logFread.run ⟨entry.bytes now buflen ++ rest, X1764.init, 0⟩ =
      .ok (entry.logged now, ⟨rest, (entry.body now buflen).foldl X1764.add X1764.init,
        (entry.body now buflen).length⟩) := by
  have size := body_length now reserved bound
  obtain ⟨_, fits⟩ := stamped_sizes now reserved bound
  have right : buflen.toUInt32.toNat = ((entry.body now buflen).length + 8) % 2 ^ 32 := by
    rw [size, toNat_toUInt32 (by omega), Nat.mod_eq_of_lt (by omega)]
  -- The checksum has seen the length and the command before the fields.
  have digested : (fieldsBytes entry.type.fields (entry.stamped now)).foldl X1764.add
      ((ulonglongBytes entry.lsn).foldl X1764.add ([entry.type.cmd].foldl X1764.add
        ((uintBytes 4 buflen.toUInt32.toNat).foldl X1764.add X1764.init))) =
      (entry.body now buflen).foldl X1764.add X1764.init := by
    simp [LogEntry.body, List.foldl_append]
  have counted : 0 + (uintBytes 4 buflen.toUInt32.toNat).length + [entry.type.cmd].length +
      (ulonglongBytes entry.lsn).length +
      (fieldsBytes entry.type.fields (entry.stamped now)).length =
      (entry.body now buflen).length := by
    simp only [LogEntry.body, List.length_append]
    omega
  have apart : entry.bytes now buflen ++ rest = uintBytes 4 buflen.toUInt32.toNat ++
      ([entry.type.cmd] ++ (ulonglongBytes entry.lsn ++
        (fieldsBytes entry.type.fields (entry.stamped now) ++
          ((uintBytes 4 (((entry.body now buflen).foldl X1764.add X1764.init).finish).toNat ++
            uintBytes 4 buflen.toUInt32.toNat) ++ rest)))) := by
    rw [X1764.finish_foldl]
    simp [LogEntry.bytes, LogEntry.body]
  have tail := tokuLogFreadType_run fits entry.lsn digested counted right rest
  rw [apart]
  apply (run_bind_ok (scans_uint32 buflen.toUInt32 _ _ _)).trans
  apply (run_bind_ok (Scans.digestByte LogReadError.eof entry.type.cmd _ _ _)).trans
  rw [typeOfCmd_logtypes known]
  exact tail

/-- An entry is read forward from where it starts in a file. -/
theorem tokuLogFread_eq (known : entry.type ∈ logtypes) (reserved : entry.buflen = some buflen)
    (bound : buflen < 2 ^ 30) (before rest : Bytes) :
    tokuLogFread (before ++ (entry.bytes now buflen ++ rest)) before.length =
      .ok (entry.logged now, before.length + buflen) := by
  -- What is left behind the entry tells where the next one starts.
  have size := bytes_length now reserved bound
  rw [tokuLogFread, List.drop_left, logFread_run known reserved bound]
  have left : (before ++ (entry.bytes now buflen ++ rest)).length - rest.length =
      before.length + buflen := by
    rw [List.length_append, List.length_append, size]
    omega
  show Except.ok (entry.logged now, _ - rest.length) = _
  rw [left]

/-- The length of an entry is found at its end. -/
theorem freadLength_eq (reserved : entry.buflen = some buflen) (bound : buflen < 2 ^ 30)
    (before rest : Bytes) :
    freadLength (before ++ (entry.bytes now buflen ++ rest)) (before.length + buflen - 4) =
      some buflen.toUInt32 := by
  -- The length is in the last four bytes.
  have size := body_length now reserved bound
  have apart : before ++ (entry.bytes now buflen ++ rest) =
      (before ++ entry.body now buflen ++
        uintBytes 4 (X1764.memory (entry.body now buflen)).toNat) ++
        (uintBytes 4 buflen.toUInt32.toNat ++ rest) := by
    simp [LogEntry.bytes]
  have place : before.length + buflen - 4 = (before ++ entry.body now buflen ++
      uintBytes 4 (X1764.memory (entry.body now buflen)).toNat).length := by
    simp only [List.length_append, uintBytes_length]
    omega
  rw [apart, place, freadLength, List.drop_left, scans_uint32_nocrclen buflen.toUInt32]

/-- Going back by the length of an entry leads to where it starts. -/
theorem seekBack_eq (bound : buflen < 2 ^ 30) (start : Nat) :
    seekBack (start + buflen) buflen.toUInt32 = some start := by
  have same : (buflen.toUInt32.toInt32.toInt : Int) = buflen := by
    have signed : buflen.toUInt32.toInt32 = Int32.ofNat buflen := by simp
    rw [signed, Int32.toInt_ofNat_of_lt (by omega)]
  rw [seekBack, same]
  simp

/-- An entry is read backward from where it ends in a file. -/
theorem tokuLogFreadBackward_eq (known : entry.type ∈ logtypes)
    (reserved : entry.buflen = some buflen) (bound : buflen < 2 ^ 30) {before : Bytes}
    (header : logHeaderEnd ≤ before.length) (rest : Bytes) :
    tokuLogFreadBackward (before ++ (entry.bytes now buflen ++ rest)) (before.length + buflen) =
      .ok (entry.logged now, before.length) := by
  have size := body_length now reserved bound
  rw [tokuLogFreadBackward, if_neg (by omega), freadLength_eq reserved bound]
  simp only [seekBack_eq bound, tokuLogFread_eq known reserved bound, if_true]

end Tokuft
