import Tokuft.Rollback.SerializeExact

/-! Log entries, rollback entries and rollback log nodes read back from what is written. -/

namespace Tokuft

variable {now : UInt64} {entry : LogEntry} {item : LoggedRollEntry} {log : StoredRollbackLog}

/-- A value is kept by writing and reading when it is not a time of zero, and when it is not a
format identifier of more than 32 bits. -/
def KeptField (field : Field) (value : field.type.Value) : Prop :=
  (∀ now, stamp now field value = value) ∧ readBack field.type value = value

/-- All values are kept. -/
def KeptFields : (fields : List Field) → FieldValues fields → Prop
  | [], _ => True
  | field :: fields, (value, values) => KeptField field value ∧ KeptFields fields values

/-- Values that are kept are the same after writing and reading. -/
theorem keptFields_eq (now : UInt64) : ∀ (fields : List Field) (values : FieldValues fields),
    KeptFields fields values →
      FieldValues.map (fun field => readBack field.type) fields
        (FieldValues.map (stamp now) fields values) = values := by
  intro fields
  induction fields with
  | nil => exact fun _ _ => rfl
  | cons field fields ih =>
    intro ⟨value, values⟩ ⟨kept, others⟩
    show (readBack field.type (stamp now field value), _) = (value, values)
    rw [kept.1 now, kept.2, ih values others]

/-- An entry whose values are kept reads back as itself. -/
theorem logged_eq (kept : KeptFields entry.type.fields entry.values) :
    entry.logged now = entry := by
  rw [LogEntry.logged, LogEntry.stamped, keptFields_eq now _ _ kept]

/-- Some bytes read as an entry, forward from their start and backward from their end, whatever is
around them; both readers consume exactly these bytes. -/
def ReadsBack (written : Bytes) (entry : LogEntry) : Prop :=
  ∀ before rest : Bytes,
    tokuLogFread (before ++ (written ++ rest)) before.length =
      .ok (entry, before.length + written.length) ∧
    (logHeaderEnd ≤ before.length →
      tokuLogFreadBackward (before ++ (written ++ rest)) (before.length + written.length) =
        .ok (entry, before.length))

/-- What was written for a log entry has the length that was reserved, and reads back. -/
theorem tokuLog_readsBack (known : entry.type ∈ logtypes) {written : Bytes}
    (done : tokuLog now entry = some written) :
    entry.buflen = some written.length ∧ ReadsBack written (entry.logged now) := by
  obtain ⟨buflen, reserved, rest⟩ := of_bind done
  obtain ⟨bound, _⟩ := of_invariant rest
  rw [tokuLog_eq reserved bound] at done
  cases done
  rw [bytes_length now reserved bound]
  refine ⟨reserved, fun before rest => ?_⟩
  rw [bytes_length now reserved bound]
  exact ⟨tokuLogFread_eq known reserved bound before rest,
    fun header => tokuLogFreadBackward_eq known reserved bound header rest⟩

/-- What is written for a rollback entry has the length that was reserved, and parses. -/
theorem rollEntry_parses (known : item.type ∈ rollbacks) {fsize : Nat}
    (reserved : item.rollbackFsize = some fsize) (bound : fsize < 2 ^ 32) :
    ∃ parsed : Bytes, (uintBytes 4 fsize ++ parsed).length = fsize ∧
      Writes item.wbufNocrcWrite (uintBytes 4 fsize ++ parsed) ∧
      tokuParseRollback parsed = some (some item) := by
  obtain ⟨length, fits⟩ := rollEntry_length reserved
  have writes := writes_rollEntry known
  rw [LoggedRollEntry.bytes, reserved, Option.getD_some, toNat_toUInt32 bound] at length writes
  exact ⟨_, length, writes, tokuParseRollback_eq known (fits bound)⟩

/-- Log entries read back as they were written, but that a time of zero has become the time of the
writing and that format identifiers have lost their high half. Rollback entries and the nodes that
hold them read back as they were, whichever build wrote them. -/
theorem codecs_invert (now : UInt64) (buildId : UInt32) :
    (∀ entry : LogEntry, entry.type ∈ logtypes →
      (∀ buflen, entry.buflen = some buflen → buflen < 2 ^ 30 →
        ∃ written, tokuLog now entry = some written) ∧
      (∀ written, tokuLog now entry = some written →
        entry.buflen = some written.length ∧ ReadsBack written (entry.logged now)) ∧
      (KeptFields entry.type.fields entry.values → entry.logged now = entry)) ∧
    (∀ item : LoggedRollEntry, item.type ∈ rollbacks → ∀ fsize, item.rollbackFsize = some fsize →
      fsize < 2 ^ 32 → ∃ parsed : Bytes, (uintBytes 4 fsize ++ parsed).length = fsize ∧
        Writes item.wbufNocrcWrite (uintBytes 4 fsize ++ parsed) ∧
        tokuParseRollback parsed = some (some item)) ∧
    (∀ log : StoredRollbackLog, log.Counted → log.layoutVersion = ftLayoutVersion →
      log.serializeSize < 2 ^ 32 → ∃ written, log.serialize buildId = some written ∧
        written.length = log.serializeSize ∧
        deserializeRollbackLog log.blocknum written = some (some { log with buildId })) := by
  refine ⟨fun entry known => ⟨?_, ?_, ?_⟩, ?_, ?_⟩
  · intro buflen reserved bound
    exact ⟨_, tokuLog_eq reserved bound⟩
  · intro written done
    exact tokuLog_readsBack known done
  · exact logged_eq
  · intro item known fsize reserved bound
    exact rollEntry_parses known reserved bound
  · intro log counted version bound
    exact ⟨_, serialize_eq counted version bound buildId, counted.size buildId,
      deserialize_eq counted version bound buildId⟩

/-- The kind of entry that begins a checkpoint. -/
def beginCheckpointType : LogType :=
  ⟨"begin_checkpoint", 'x', [⟨.uint64, "timestamp"⟩, ⟨.txnid, "last_xid"⟩]⟩

/-- The kind of entry that prepares a transaction. -/
def xprepareType : LogType :=
  ⟨"xprepare", 'P', [⟨.txnidPair, "xid"⟩, ⟨.xidp, "xa_xid"⟩]⟩

/-- The entry of a checkpoint that begins at some time. -/
def beginCheckpointEntry (timestamp : UInt64) : LogEntry where
  type := beginCheckpointType
  lsn := 1
  values := (timestamp, (9 : UInt64), ())

/-- The entry of a transaction that is prepared under a name of some format. -/
def xprepareEntry (formatID : Int64) : LogEntry where
  type := xprepareType
  lsn := 2
  values := ((⟨3, 0⟩ : LoggedTxnidPair), (⟨formatID, [0x67], [0x62]⟩ : TokuXaXid), ())

/-- A checkpoint that begins at a time other than zero reads back from its bytes. -/
theorem codecs_invert_checkpoint : ∃ written, tokuLog 5 (beginCheckpointEntry 4) = some written ∧
    tokuLogFread written 0 = .ok (beginCheckpointEntry 4, written.length) := by
  obtain ⟨succeeds, reads, kept⟩ := (codecs_invert 5 0).1 (beginCheckpointEntry 4)
    (by decide +kernel)
  obtain ⟨written, done⟩ := succeeds 37 (by decide) (by decide)
  have back := ((reads written done).2 [] []).1
  have same : (beginCheckpointEntry 4).logged 5 = beginCheckpointEntry 4 := by
    apply kept
    refine ⟨⟨fun now => ?_, rfl⟩, ⟨fun now => rfl, rfl⟩, trivial⟩
    rfl
  rw [same, List.append_nil, List.nil_append, List.length_nil, Nat.zero_add] at back
  exact ⟨written, done, back⟩

/-- An entry that does not read back as itself is told apart by the reader. -/
theorem changed_entry {buflen : Nat} (known : entry.type ∈ logtypes)
    (reserved : entry.buflen = some buflen) (bound : buflen < 2 ^ 30)
    (changed : entry.logged now ≠ entry) : ∃ written, tokuLog now entry = some written ∧
      tokuLogFread written 0 ≠ .ok (entry, written.length) := by
  have done : tokuLog now entry = some (entry.bytes now buflen) := tokuLog_eq reserved bound
  have back := ((tokuLog_readsBack known done).2 [] []).1
  rw [List.append_nil, List.nil_append, List.length_nil] at back
  refine ⟨_, done, fun wrong => changed ?_⟩
  rw [back] at wrong
  injection wrong with pair
  exact congrArg Prod.fst pair

/-- A time of zero does not read back as it was given, and neither does a format identifier of
minus one. -/
theorem codecs_change :
    (∃ written, tokuLog 5 (beginCheckpointEntry 0) = some written ∧
      tokuLogFread written 0 ≠ .ok (beginCheckpointEntry 0, written.length)) ∧
    ∃ written, tokuLog 5 (xprepareEntry (-1)) = some written ∧
      tokuLogFread written 0 ≠ .ok (xprepareEntry (-1), written.length) := by
  have time : (beginCheckpointEntry 0).buflen = some 37 := by decide
  have name : (xprepareEntry (-1)).buflen = some 45 := by decide
  constructor
  · apply changed_entry (by decide +kernel) time (by decide)
    decide +kernel
  · apply changed_entry (by decide +kernel) name (by decide)
    decide +kernel

end Tokuft
