import Tokuft.Rollback.Serialize

/-! A rollback log node reads back from its bytes. -/

namespace Tokuft

section Fields

/-- An integer of 32 bits is read back. -/
theorem reads_int (v : UInt32) : Reads rbufInt (uintBytes 4 v.toNat) v := by
  have read := (Reads.uint 4 v.toNat_lt).map Nat.toUInt32
  rw [toUInt32_toNat] at read
  exact read

/-- An integer of 64 bits is read back. -/
theorem reads_ulonglong (ull : UInt64) : Reads rbufUlonglong (ulonglongBytes ull) ull := by
  -- The two halves are read as integers, the higher one first.
  have low := (reads_int (ull &&& (0xFFFFFFFF : UInt64)).toUInt32).map fun i1 =>
    ((ull >>> (32 : UInt64)).toUInt32.toUInt64 <<< (32 : UInt64)) ||| i1.toUInt64
  rw [ulonglong_halves] at low
  exact Reads.bind (reads_int (ull >>> (32 : UInt64)).toUInt32) low

/-- A truth value is read back. -/
theorem reads_bool (b : Bool) : Reads rbufMaBool [if b then 1 else 0] b := by
  -- The reader compares a byte with zero.
  have read : Reads rbufMaBool [if b then 1 else 0] ((if b then 1 else 0 : UInt8) != 0) :=
    (Reads.byte _).map _
  cases b
  · exact read
  · exact read

/-- The identifiers of a transaction are read back. -/
theorem reads_txnidPair (txnid : LoggedTxnidPair) :
    Reads rbufTxnidPair (ulonglongBytes txnid.parentId64 ++ ulonglongBytes txnid.childId64)
      txnid := by
  have second := (reads_ulonglong txnid.childId64).map fun child =>
    (⟨txnid.parentId64, child⟩ : LoggedTxnidPair)
  exact Reads.bind (reads_ulonglong txnid.parentId64) second

/-- A block number is read back. -/
theorem reads_blocknum (b : Int64) : Reads rbufBlocknum (ulonglongBytes b.toUInt64) b :=
  (reads_ulonglong b.toUInt64).map UInt64.toInt64

/-- A byte string is read back. -/
theorem reads_bytestring {v : Bytes} (fits : v.length < 2 ^ 32) :
    Reads rbufMaBytestring (uintBytes 4 v.length.toUInt32.toNat ++ v) v := by
  -- The length comes first, and it is small enough to be exact in its word.
  have items := Reads.bytes v
  rw [← toNat_toUInt32 fits] at items
  have first := reads_int v.length.toUInt32
  exact first.bind items

/-- File numbers are read back. -/
theorem reads_filenums {v : List UInt32} (fits : v.length < 2 ^ 32) :
    Reads rbufMaFilenums (uintBytes 4 v.length.toUInt32.toNat ++
      v.flatMap fun fileid => uintBytes 4 fileid.toNat) v := by
  -- As with a byte string, the count comes first.
  have items : Reads (readMany rbufInt v.length) (v.flatMap fun fileid => uintBytes 4 fileid.toNat)
      (v.map fun fileid => fileid) := Reads.many fun fileid _ => reads_int fileid
  rw [List.map_id', ← toNat_toUInt32 fits] at items
  have first := reads_int v.length.toUInt32
  exact first.bind items

/-- The types that fields of rollback entries have. -/
def InRollbacks (type : FieldType) : Prop := type ≠ .lsn ∧ type ≠ .xidp

instance (type : FieldType) : Decidable (InRollbacks type) :=
  inferInstanceAs (Decidable (_ ∧ _))

/-- A value of any type that rollback entries have is read back. -/
theorem reads_field (type : FieldType) (value : type.Value) (here : InRollbacks type)
    (fits : Fits type value) : Reads (rbufMa type) (fieldBytes type value) value := by
  -- No rollback entry has a sequence number or a stack of ids, and other types have readers.
  cases type
  case uint8 => exact Reads.byte value
  case bool => exact reads_bool value
  case uint32 => exact reads_int value
  case uint64 => exact reads_ulonglong value
  case filenum => exact reads_int value
  case filenums => exact reads_filenums fits
  case bytestring => exact reads_bytestring fits
  case blocknum => exact reads_blocknum value
  case lsn => exact absurd rfl here.1
  case txnid => exact reads_ulonglong value
  case txnidPair => exact reads_txnidPair value
  case xidp => exact absurd rfl here.2

/-- The values of all fields are read back. -/
theorem reads_fields : ∀ (fields : List Field) (values : FieldValues fields),
    (∀ field ∈ fields, InRollbacks field.type) → FieldsFit fields values →
      Reads (rbufMaFields fields) (fieldsBytes fields values) values := by
  -- The fields are read in the order in which the table of the entry has them.
  intro fields
  induction fields with
  | nil => exact fun _ _ _ => Reads.pure ()
  | cons field fields ih =>
    rintro ⟨value, values⟩ all ⟨fits, others⟩
    have here := reads_field field.type value (all field (by simp)) fits
    exact here.bind ((ih values (fun other member => all other (by simp [member])) others).map _)

/-- The sizes of fields of these types are always known. -/
theorem logsizeofFields_some : ∀ (fields : List Field) (values : FieldValues fields),
    (∀ field ∈ fields, InRollbacks field.type) →
      ∃ sizes, logsizeofFields fields values = some sizes := by
  -- Every type that a rollback entry may have reserves its size.
  intro fields
  induction fields with
  | nil => exact fun _ _ => ⟨0, rfl⟩
  | cons field fields ih =>
    rintro ⟨value, values⟩ all
    obtain ⟨others, there⟩ := ih values fun other member => all other (by simp [member])
    have here : ∃ size, logsizeof field.type value = some size := by
      have kind := all field (by simp)
      obtain ⟨type, name⟩ := field
      cases type
      case xidp => exact absurd rfl kind.2
      all_goals exact ⟨_, rfl⟩
    obtain ⟨size, here⟩ := here
    exact ⟨size + others, by simp [logsizeofFields, here, there]⟩

end Fields

section Entries

/-- All fields of rollback entries have one of these types. -/
theorem inRollbacks {type : LogType} (known : type ∈ rollbacks) :
    ∀ field ∈ type.fields, InRollbacks field.type := by
  have all : ∀ type ∈ rollbacks, ∀ field ∈ type.fields, InRollbacks field.type := by
    decide +kernel
  exact all type known

variable {item : LoggedRollEntry} {fsize : Nat}

/-- The bytes of a rollback entry, with its size in front. -/
def LoggedRollEntry.bytes (item : LoggedRollEntry) : Bytes :=
  uintBytes 4 (item.rollbackFsize.getD 0).toUInt32.toNat ++
    ([item.type.cmd] ++ fieldsBytes item.type.fields item.values)

/-- The size of a rollback entry is always known. -/
theorem rollbackFsize_some (known : item.type ∈ rollbacks) :
    ∃ fsize, item.rollbackFsize = some fsize := by
  obtain ⟨sizes, here⟩ := logsizeofFields_some item.type.fields item.values (inRollbacks known)
  exact ⟨1 + 4 + sizes, by simp [LoggedRollEntry.rollbackFsize, here]⟩

/-- A rollback entry takes as many bytes as its size says. -/
theorem rollEntry_length (reserved : item.rollbackFsize = some fsize) :
    item.bytes.length = fsize ∧
      (fsize < 2 ^ 32 → FieldsFit item.type.fields item.values) := by
  -- The size counts itself, the command, and the fields.
  obtain ⟨sizes, here, rest⟩ := of_bind reserved
  cases rest
  obtain ⟨length, fits⟩ := fieldsBytes_length here
  refine ⟨?_, fun bound => fits (by omega)⟩
  simp only [LoggedRollEntry.bytes, List.length_append, uintBytes_length, List.length_singleton,
    length]
  omega

/-- A rollback entry takes some bytes. -/
theorem rollEntry_positive (item : LoggedRollEntry) : 0 < item.bytes.length := by
  simp only [LoggedRollEntry.bytes, List.length_append, uintBytes_length]
  omega

section

variable (known : item.type ∈ rollbacks)
include known

/-- A rollback entry is written as its bytes. -/
theorem writes_rollEntry :
    Writes item.wbufNocrcWrite item.bytes := by
  -- The size, the command, and the fields are written behind one another.
  obtain ⟨fsize, reserved⟩ := rollbackFsize_some known
  have inner : Writes (fun wbuf => do
      let wbuf ← wbufNocrcInt fsize.toUInt32 wbuf
      let wbuf ← wbufNocrcChar item.type.cmd wbuf
      wbufNocrcFields item.type.fields item.values wbuf) (uintBytes 4 fsize.toUInt32.toNat ++
        ([item.type.cmd] ++ fieldsBytes item.type.fields item.values)) :=
    (Writes.bytes _).andThen ((Writes.bytes _).andThen (writes_fields _ _))
  intro buffer fits
  rw [LoggedRollEntry.bytes, reserved, Option.getD_some] at fits ⊢
  rw [← inner buffer fits, LoggedRollEntry.wbufNocrcWrite, reserved]
  rfl

/-- A rollback entry is parsed from what follows its size. -/
theorem tokuParseRollback_eq (fits : FieldsFit item.type.fields item.values) :
    tokuParseRollback ([item.type.cmd] ++ fieldsBytes item.type.fields item.values) =
      some (some item) := by
  -- The fields end where the bytes of the entry end, so that nothing is left over.
  have read := (reads_fields item.type.fields item.values (inRollbacks known) fits).map
    fun values =>
    (⟨item.type, values⟩ : LoggedRollEntry)
  have parsed := read []
  rw [List.append_nil] at parsed
  have found : (parseRollbackFields item.type).run (fieldsBytes item.type.fields item.values) =
      some (item, []) := parsed
  simp [tokuParseRollback, typeOfCmd_rollbacks known, found]

/-- A rollback entry is taken off the front of the entries. -/
theorem takeRollEntry_eq (reserved : item.rollbackFsize = some fsize) (bound : fsize < 2 ^ 32)
    (rest : Bytes) :
    takeRollEntry (item.bytes ++ rest) = some (some item, rest) := by
  -- The size tells how many bytes to take, which are then parsed by themselves.
  obtain ⟨length, fit⟩ := rollEntry_length reserved
  have fits := fit bound
  have size := toNat_toUInt32 bound
  simp only [LoggedRollEntry.bytes, reserved, Option.getD_some, List.length_append,
    uintBytes_length] at length
  have positive : ([item.type.cmd] ++ fieldsBytes item.type.fields item.values).length + 4 =
      fsize := by
    rw [List.length_append]
    omega
  have minus : (fsize.toUInt32 - 4).toNat =
      ([item.type.cmd] ++ fieldsBytes item.type.fields item.values).length := by
    rw [UInt32.toNat_sub_of_le]
    · rw [size]
      have four : (4 : UInt32).toNat = 4 := rfl
      omega
    · rw [UInt32.le_iff_toNat_le, size]
      have four : (4 : UInt32).toNat = 4 := rfl
      omega
  have first := reads_int fsize.toUInt32
    (([item.type.cmd] ++ fieldsBytes item.type.fields item.values) ++ rest)
  have second := Reads.bytes ([item.type.cmd] ++ fieldsBytes item.type.fields item.values) rest
  rw [← minus] at second
  rw [LoggedRollEntry.bytes, reserved, Option.getD_some, List.append_assoc, takeRollEntry, first]
  simp only [Option.bind_eq_bind, Option.bind_some, second, tokuParseRollback_eq known fits]
  rfl

end

/-- Entries are loaded one after another, in the order in which they were written. -/
theorem loadRollEntries_eq : ∀ {entries : List LoggedRollEntry} {fuel : Nat},
    (∀ item ∈ entries, item.type ∈ rollbacks ∧ item.bytes.length < 2 ^ 32) →
      entries.length ≤ fuel →
        loadRollEntries fuel (entries.flatMap LoggedRollEntry.bytes) = some (some entries) := by
  -- Entries are taken off the front until none is left, with fuel for each of them.
  intro entries
  induction entries with
  | nil =>
    intro fuel _ _
    cases fuel <;> rfl
  | cons item entries ih =>
    intro fuel all enough
    cases fuel with
    | zero => simp at enough
    | succ fuel =>
      obtain ⟨known, bound⟩ := all item (by simp)
      obtain ⟨fsize, reserved⟩ := rollbackFsize_some known
      have length := (rollEntry_length reserved).1
      have others : loadRollEntries fuel (entries.flatMap LoggedRollEntry.bytes) =
          some (some entries) :=
        ih (fun other member => all other (by simp [member])) (by simpa using enough)
      have taken := takeRollEntry_eq known reserved (by omega)
        (entries.flatMap LoggedRollEntry.bytes)
      have filled : (item :: entries).flatMap LoggedRollEntry.bytes ≠ [] := by
        intro empty
        have size := congrArg List.length empty
        have positive := rollEntry_positive item
        rw [List.flatMap_cons, List.length_append, List.length_nil] at size
        omega
      rw [loadRollEntries]
      · rw [List.flatMap_cons, taken]
        simp only [bind_runs, others]
        rfl
      · exact filled

end Entries

section Nodes

variable {log : StoredRollbackLog}

/-- The bytes of everything but the entries. -/
def StoredRollbackLog.headBytes (buildId : UInt32) (log : StoredRollbackLog) : Bytes :=
  rollbackMagic ++ (uintBytes 4 log.layoutVersion.toNat ++
    (uintBytes 4 log.layoutVersionOriginal.toNat ++ (uintBytes 4 buildId.toNat ++
      ((ulonglongBytes log.txnid.parentId64 ++ ulonglongBytes log.txnid.childId64) ++
        (ulonglongBytes log.sequence ++ (ulonglongBytes log.blocknum.toUInt64 ++
          (ulonglongBytes log.previous.toUInt64 ++
            (ulonglongBytes log.rollentryResidentBytecount ++
              ulonglongBytes log.arenaSize))))))))

/-- Everything but the entries takes a fixed number of bytes. -/
theorem headBytes_length (buildId : UInt32) : (log.headBytes buildId).length = 76 := by
  simp [StoredRollbackLog.headBytes, rollbackMagic]

/-- Everything but the entries is written as its bytes. -/
theorem writes_head (buildId : UInt32) :
    Writes (log.wbufHead buildId) (log.headBytes buildId) :=
  (Writes.bytes _).andThen ((Writes.bytes _).andThen ((Writes.bytes _).andThen
    ((Writes.bytes _).andThen (((writes_ulonglong _).andThen (writes_ulonglong _)).andThen
      ((writes_ulonglong _).andThen ((writes_ulonglong _).andThen ((writes_ulonglong _).andThen
        ((writes_ulonglong _).andThen (writes_ulonglong _)))))))))

/-- Everything but the entries is read back, with the identifier of the build that wrote it. -/
theorem reads_head (buildId : UInt32) :
    Reads rbufHead (log.headBytes buildId)
      (rollbackMagic, { log with buildId, entries := [] }) := by
  -- The fields of the head are read in the order in which they were written.
  have last := (reads_ulonglong log.arenaSize).map fun arenaSize =>
    (rollbackMagic, (⟨log.layoutVersion, log.layoutVersionOriginal, buildId, log.txnid,
      log.sequence, log.blocknum, log.previous, log.rollentryResidentBytecount, arenaSize, []⟩ :
      StoredRollbackLog))
  exact Reads.bind (Reads.bytes rollbackMagic) (Reads.bind (reads_int _) (Reads.bind (reads_int _)
    (Reads.bind (reads_int _) (Reads.bind (reads_txnidPair _) (Reads.bind (reads_ulonglong _)
      (Reads.bind (reads_blocknum _) (Reads.bind (reads_blocknum _)
        (Reads.bind (reads_ulonglong _) last))))))))

/-- The entries of a node are of known kinds, and their sizes are counted. -/
structure StoredRollbackLog.Counted (log : StoredRollbackLog) : Prop where
  known : ∀ item ∈ log.entries, item.type ∈ rollbacks
  counted : log.rollentryResidentBytecount.toNat =
    (log.entries.map fun item => item.rollbackFsize.getD 0).sum

/-- The entries take as many bytes as are counted. -/
theorem entries_length : ∀ {entries : List LoggedRollEntry},
    (∀ item ∈ entries, item.type ∈ rollbacks) →
      (entries.flatMap LoggedRollEntry.bytes).length =
        (entries.map fun item => item.rollbackFsize.getD 0).sum ∧
      entries.length ≤ (entries.flatMap LoggedRollEntry.bytes).length ∧
      ∀ item ∈ entries, item.bytes.length ≤ (entries.flatMap LoggedRollEntry.bytes).length := by
  -- No entry is empty, so that there are at least as many bytes as entries.
  intro entries
  induction entries with
  | nil => intro _; simp
  | cons item entries ih =>
    intro known
    obtain ⟨total, count, each⟩ := ih fun other member => known other (by simp [member])
    obtain ⟨fsize, reserved⟩ := rollbackFsize_some (known item (by simp))
    have length := (rollEntry_length reserved).1
    have positive := rollEntry_positive item
    refine ⟨?_, ?_, ?_⟩
    · rw [List.flatMap_cons, List.length_append, total, List.map_cons, List.sum_cons, reserved,
        Option.getD_some, length]
    · rw [List.flatMap_cons, List.length_append, List.length_cons]
      omega
    · intro other member
      rw [List.flatMap_cons, List.length_append]
      rcases List.mem_cons.mp member with same | member
      · rw [same]
        omega
      · have bound := each other member
        omega

/-- The bytes of a node. -/
def StoredRollbackLog.bytes (buildId : UInt32) (log : StoredRollbackLog) : Bytes :=
  log.headBytes buildId ++ log.entries.flatMap LoggedRollEntry.bytes

/-- The size of a node is that of its bytes. -/
theorem StoredRollbackLog.Counted.size (counted : log.Counted) (buildId : UInt32) :
    (log.bytes buildId).length = log.serializeSize := by
  rw [StoredRollbackLog.bytes, List.length_append, headBytes_length,
    (entries_length counted.known).1, ← counted.counted, StoredRollbackLog.serializeSize,
    nodeHeaderOverhead]

section

variable (counted : log.Counted) (version : log.layoutVersion = ftLayoutVersion)
  (bound : log.serializeSize < 2 ^ 32) (buildId : UInt32)
include counted version bound buildId

/-- A node whose entries are counted is written as its bytes. -/
theorem serialize_eq :
    log.serialize buildId = some (log.bytes buildId) := by
  -- The size is reserved before anything is written, and it is exactly what is needed.
  have size := counted.size buildId
  have total := (entries_length counted.known).1
  have room : (log.headBytes buildId).length +
      (log.entries.flatMap LoggedRollEntry.bytes).length = log.serializeSize := by
    rw [← size, StoredRollbackLog.bytes, List.length_append]
  have head : log.wbufHead buildId ⟨log.serializeSize % 2 ^ 32, []⟩ =
      some ⟨log.serializeSize % 2 ^ 32, log.headBytes buildId⟩ := by
    apply writes_head buildId ⟨log.serializeSize % 2 ^ 32, []⟩
    show 0 + (log.headBytes buildId).length ≤ log.serializeSize % 2 ^ 32
    omega
  have body : putAll LoggedRollEntry.wbufNocrcWrite log.entries
      ⟨log.serializeSize % 2 ^ 32, log.headBytes buildId⟩ =
      some ⟨log.serializeSize % 2 ^ 32, log.bytes buildId⟩ := by
    apply Writes.all (fun item member => writes_rollEntry (counted.known item member))
      ⟨log.serializeSize % 2 ^ 32, log.headBytes buildId⟩
    show (log.headBytes buildId).length + (log.entries.flatMap LoggedRollEntry.bytes).length ≤
      log.serializeSize % 2 ^ 32
    omega
  have resident : (log.headBytes buildId).length + log.rollentryResidentBytecount.toNat =
      (log.bytes buildId).length := by
    rw [counted.counted, ← total, room, size]
  have fits : (log.bytes buildId).length = log.serializeSize % 2 ^ 32 := by omega
  simp only [StoredRollbackLog.serialize, invariant_of version, head, body, Option.bind_eq_bind,
    Option.bind_some, invariant_of resident, invariant_of fits, invariant_of size.symm]
  rfl

/-- A node is read back from its bytes, with the identifier of the build that wrote it. -/
theorem deserialize_eq :
    deserializeRollbackLog log.blocknum (log.bytes buildId) = some (some { log with buildId }) := by
  -- The head ends where the entries begin, and the entries are all that is left.
  have size := counted.size buildId
  obtain ⟨total, count, each⟩ := entries_length counted.known
  have large : 4 < (log.bytes buildId).length := by
    rw [StoredRollbackLog.bytes, List.length_append, headBytes_length]
    omega
  have head : rbufHead.run (log.bytes buildId) =
      some ((rollbackMagic, { log with buildId, entries := [] }),
        log.entries.flatMap LoggedRollEntry.bytes) :=
    reads_head buildId (log.entries.flatMap LoggedRollEntry.bytes)
  have loaded : loadRollEntries (log.entries.flatMap LoggedRollEntry.bytes).length
      (log.entries.flatMap LoggedRollEntry.bytes) = some (some log.entries) := by
    apply loadRollEntries_eq _ count
    intro item member
    refine ⟨counted.known item member, ?_⟩
    have inside := each item member
    rw [StoredRollbackLog.bytes, List.length_append] at size
    omega
  have supported : (25 ≤ log.layoutVersion ∧ log.layoutVersion ≤ 27) ∨
      log.layoutVersion = ftLayoutVersion := .inr version
  rw [deserializeRollbackLog, head]
  simp only [bind_runs, invariant_of supported, invariant_of large, loaded]
  rw [invariant_of trivial]
  simp

end

end Nodes

end Tokuft
