import Tokuft.Tree.LogicalRows

/-! The count of logical rows that a checkpoint stores, and what recovery makes of it. -/

namespace Tokuft

variable {Key : Type} [LinearOrder Key]

/-- What a sender does to a tree: insert a row, or delete one. -/
inductive RowOp (Key : Type) where
  | insert (key : Key) (val : Bytes) (xids : List Nat) (type : FtMsgType)
  | delete (key : Key) (xids : List Nat)
  deriving DecidableEq

/-- What a sender adds to the count. -/
def RowOp.delta : RowOp Key → Int
  | .insert .. => 1
  | .delete .. => -1

/-- An operation with the sequence number of its log entry. -/
structure LoggedOp (Key : Type) where
  lsn : Nat
  op : RowOp Key
  deriving DecidableEq

/-- The header of a checkpoint that is being made, with the tree as it was when it began: its nodes
are written for the checkpoint. -/
structure CheckpointHeader (Key : Type) [LinearOrder Key] where
  checkpointLsn : Nat
  dirty : Bool
  ft : CountedFt Key

/-- A tree as it is stored, with its header. -/
structure StoredFt (Key : Type) [LinearOrder Key] where
  checkpointLsn : Nat
  onDiskLogicalRows : Int
  pending : List (FtMsg Key)
  bn : BnData Key

/-- A tree in memory and on disk, with the log of what was sent to it. -/
structure LoggedFt (Key : Type) [LinearOrder Key] where
  ft : CountedFt Key
  /-- Whether a node has changed since a checkpoint began. -/
  dirty : Bool
  /-- The last sequence number. -/
  lsn : Nat
  log : List (LoggedOp Key)
  checkpointHeader : Option (CheckpointHeader Key)
  disk : StoredFt Key

/-- A tree that has just been created. -/
def LoggedFt.create : LoggedFt Key where
  ft := .create
  dirty := false
  lsn := 0
  log := []
  checkpointHeader := none
  disk := ⟨0, 0, [], .empty⟩

/-- What can happen to a tree: its count or its nodes change, a checkpoint begins or is written, or
the system crashes and recovers from a part of the log that has reached the disk. -/
inductive RowEvent (Key : Type) where
  | send (op : RowOp Key)
  | adjust (delta : Int)
  | apply (gcInfo : TxnGcInfo)
  | flushed
  | beginCheckpoint
  | checkpoint
  | crash (kept : Nat)

/-- Send the message of an operation, and decide on its adjustment. -/
def CountedFt.sendOp (ft : CountedFt Key) : RowOp Key → Option (CountedFt Key)
  | .insert key val xids type => ft.maybeInsert key val xids type
  | .delete key xids => some (ft.maybeDelete key xids)

/-- Make the adjustment that was decided on last. -/
def CountedFt.adjustNow (ft : CountedFt Key) (delta : Int) : CountedFt Key :=
  { ft with
    adjusting := ft.adjusting.erase delta
    inMemoryLogicalRows := adjustLogicalRowCount ft.inMemoryLogicalRows delta }

/-- Send an operation of the log again, unless the tree on disk has it. -/
def CountedFt.recoverOp (treeLsn : Nat) (ft : CountedFt Key) (entry : LoggedOp Key) :
    Option (CountedFt Key) :=
  if entry.lsn ≤ treeLsn then some ft
  else do
    let ft ← ft.sendOp entry.op
    return ft.adjustNow entry.op.delta

/-- A tree as it is read from disk. -/
def StoredFt.open (disk : StoredFt Key) : CountedFt Key where
  inMemoryLogicalRows := disk.onDiskLogicalRows
  adjusting := []
  logicalRowsDelta := 0
  pending := disk.pending
  bn := disk.bn

namespace LoggedFt

/-- Copy the header for a checkpoint, and mark the nodes that are written for it. -/
def ftBeginCheckpoint (tree : LoggedFt Key) : Option (LoggedFt Key) := do
  invariant (tree.checkpointHeader.isNone)
  let checkpointLsn := tree.lsn + 1
  return { tree with
    lsn := checkpointLsn
    dirty := false
    checkpointHeader := some ⟨checkpointLsn, tree.dirty, tree.ft⟩ }

/-- Write the header of the checkpoint with the count of rows in memory, if a node was written, and
end the checkpoint. -/
def ftCheckpoint (tree : LoggedFt Key) : Option (LoggedFt Key) := do
  let ch ← tree.checkpointHeader
  let ended := { tree with checkpointHeader := none }
  if ch.dirty then
    return { ended with
      disk := ⟨ch.checkpointLsn, tree.ft.inMemoryLogicalRows, ch.ft.pending, ch.ft.bn⟩ }
  else return ended

/-- Open the tree on disk, and send again what the log has kept. -/
def crash (tree : LoggedFt Key) (kept : Nat) : Option (LoggedFt Key) := do
  let log := tree.log.take kept
  let ft ← log.foldlM (CountedFt.recoverOp tree.disk.checkpointLsn) tree.disk.open
  return { tree with
    ft
    dirty := log.any fun entry => tree.disk.checkpointLsn < entry.lsn
    log
    checkpointHeader := none }

/-- One step, absent when the event cannot happen. -/
def next (updateFun : UpdateFunc Key) (tree : LoggedFt Key) :
    RowEvent Key → Option (LoggedFt Key)
  | .send op => do
    let ft ← tree.ft.sendOp op
    return { tree with
      ft
      dirty := true
      lsn := tree.lsn + 1
      log := tree.log ++ [⟨tree.lsn + 1, op⟩] }
  | .adjust delta => do
    let ft ← tree.ft.next updateFun (.adjust delta)
    return { tree with ft }
  | .apply gcInfo => do
    let ft ← tree.ft.next updateFun (.apply gcInfo)
    return { tree with ft, dirty := true }
  | .flushed => do
    let ft ← tree.ft.next updateFun .flushed
    return { tree with ft }
  | .beginCheckpoint => tree.ftBeginCheckpoint
  | .checkpoint => tree.ftCheckpoint
  | .crash kept => tree.crash kept

/-- The operations of a log behind a sequence number. -/
def opsAfter (lsn : Nat) (log : List (LoggedOp Key)) : List (RowOp Key) :=
  (log.filter fun entry => lsn < entry.lsn).map LoggedOp.op

/-- No sum comes out as the unknown count while operations are sent again. -/
def MissesUnknown (rows : Int) : List (RowOp Key) → Prop
  | [] => True
  | op :: ops => rows + op.delta ≠ -1 ∧ MissesUnknown (rows + op.delta) ops

instance decidableMissesUnknown (rows : Int) :
    (ops : List (RowOp Key)) → Decidable (MissesUnknown rows ops)
  | [] => .isTrue trivial
  | op :: ops =>
    have := decidableMissesUnknown (rows + op.delta) ops
    inferInstanceAs (Decidable (_ ∧ _))

/-- The condition under which one step keeps the counts right. A message reports the change that it
makes, no sum comes out as the unknown count, and when a checkpoint is written, the count has
changed since the checkpoint began by just the adjustments that were still to be made then. -/
def StepCounts (tree : LoggedFt Key) : RowEvent Key → Prop
  | .send _ | .flushed | .beginCheckpoint => True
  | .adjust delta => tree.ft.StepReports (.adjust delta)
  | .apply gcInfo => tree.ft.StepReports (.apply gcInfo)
  | .checkpoint => ∀ ch ∈ tree.checkpointHeader, ch.dirty = true →
    tree.ft.inMemoryLogicalRows =
      ch.ft.inMemoryLogicalRows + ch.ft.adjusting.sum + ch.ft.logicalRowsDelta
  | .crash kept =>
    MissesUnknown tree.disk.onDiskLogicalRows
      (opsAfter tree.disk.checkpointLsn (tree.log.take kept))

instance (tree : LoggedFt Key) (event : RowEvent Key) : Decidable (tree.StepCounts event) :=
  match event with
  | .send _ | .flushed | .beginCheckpoint => .isTrue trivial
  | .adjust delta => inferInstanceAs (Decidable (tree.ft.StepReports (.adjust delta)))
  | .apply gcInfo => inferInstanceAs (Decidable (tree.ft.StepReports (.apply gcInfo)))
  | .checkpoint => inferInstanceAs (Decidable (∀ ch ∈ tree.checkpointHeader, _))
  | .crash _ => inferInstanceAs (Decidable (MissesUnknown _ _))

/-- A step that meets the condition. -/
def CountingStep (updateFun : UpdateFunc Key) (tree : LoggedFt Key) (event : RowEvent Key)
    (after : LoggedFt Key) : Prop :=
  tree.StepCounts event ∧ tree.next updateFun event = some after

/-- One step, absent also when the condition is not met. -/
def nextCounting (updateFun : UpdateFunc Key) (tree : LoggedFt Key) (event : RowEvent Key) :
    Option (LoggedFt Key) :=
  if tree.StepCounts event then tree.next updateFun event else none

/-- A computed step that checks the condition is a step that meets it. -/
theorem countingStep_of {updateFun : UpdateFunc Key} {tree after : LoggedFt Key}
    {event : RowEvent Key} (taken : tree.nextCounting updateFun event = some after) :
    tree.CountingStep updateFun event after := by
  simpa [CountingStep, nextCounting] using taken

end LoggedFt

/-- The rows of a tree once all of its messages are applied. -/
def anticipatedRows (bn : BnData Key) (pending : List (FtMsg Key)) : Int :=
  bn.count rowPresent + (pending.map fun msg => sentDelta msg.type).sum

/-- What a tree on disk satisfies whose count has never gone wrong. -/
structure StoredFt.Exact (disk : StoredFt Key) : Prop where
  known : disk.onDiskLogicalRows ≠ -1
  keyed : ∀ msg ∈ disk.pending, isKeyMessage msg.type = true
  solid : BnSolid disk.bn
  counted : disk.onDiskLogicalRows = anticipatedRows disk.bn disk.pending

/-- What trees in memory, on disk, and on the way there satisfy whose counts have never gone
wrong. -/
structure LoggedFt.Exact (tree : LoggedFt Key) : Prop where
  memory : tree.ft.Exact
  disk : tree.disk.Exact
  started : ∀ ch ∈ tree.checkpointHeader, ch.ft.Exact

/-- A message that is sent is anticipated. -/
theorem anticipatedRows_append (bn : BnData Key) (pending : List (FtMsg Key)) (msg : FtMsg Key) :
    anticipatedRows bn (pending ++ [msg]) = anticipatedRows bn pending + sentDelta msg.type := by
  simp [anticipatedRows, Int.add_assoc]

section Sending

variable {ft after : CountedFt Key} {op : RowOp Key}

/-- Whatever is anticipated is counted, or still to be counted. -/
theorem CountedFt.Exact.anticipated (exact : ft.Exact) :
    ft.inMemoryLogicalRows + ft.adjusting.sum + ft.logicalRowsDelta =
      anticipatedRows ft.bn ft.pending := exact.counted

/-- Sending an operation adds its delta to what is anticipated, and leaves it to be counted. -/
theorem CountedFt.Exact.sentOp (exact : ft.Exact) (sent : ft.sendOp op = some after) :
    after.Exact ∧ after.adjusting = ft.adjusting ++ [op.delta] ∧
      after.inMemoryLogicalRows = ft.inMemoryLogicalRows ∧
      after.logicalRowsDelta = ft.logicalRowsDelta ∧
      anticipatedRows after.bn after.pending = anticipatedRows ft.bn ft.pending + op.delta := by
  cases op with
  | insert key val xids type =>
    simp only [sendOp, maybeInsert, bind_inv, invariant_eq_some] at sent
    obtain ⟨-, kind, rfl⟩ := sent
    have one : sentDelta type = 1 := by rcases kind with rfl | rfl <;> rfl
    have keyed : isKeyMessage type = true := by rcases kind with rfl | rfl <;> rfl
    refine ⟨exact.sent keyed (by simp [rootPutMsg, one]), rfl, rfl, rfl, ?_⟩
    exact (anticipatedRows_append _ _ _).trans (congrArg _ one)
  | delete key xids =>
    cases sent
    exact ⟨exact.sent rfl (by simp [rootPutMsg, sentDelta]), rfl, rfl, rfl,
      anticipatedRows_append _ _ _⟩

/-- A tree is opened with the count that was stored for it. -/
theorem StoredFt.Exact.opened {disk : StoredFt Key} (exact : disk.Exact) : disk.open.Exact where
  known := exact.known
  keyed := exact.keyed
  solid := exact.solid
  counted := by
    show disk.onDiskLogicalRows + 0 + 0 = _
    rw [exact.counted, Int.add_zero, Int.add_zero]
    rfl

/-- An operation that is sent again is counted right away. -/
theorem CountedFt.Exact.recovered {treeLsn : Nat} {entry : LoggedOp Key} (exact : ft.Exact)
    (settled : ft.adjusting = []) (newer : treeLsn < entry.lsn)
    (misses : ft.inMemoryLogicalRows + entry.op.delta ≠ -1)
    (sent : ft.recoverOp treeLsn entry = some after) :
    after.Exact ∧ after.adjusting = [] ∧
      after.inMemoryLogicalRows = ft.inMemoryLogicalRows + entry.op.delta := by
  rw [recoverOp, if_neg (by omega)] at sent
  obtain ⟨middle, sending, rest⟩ := of_bind sent
  cases rest
  obtain ⟨exact', adjusting, same, _, _⟩ := exact.sentOp sending
  rw [settled, List.nil_append] at adjusting
  have moved : adjustLogicalRowCount middle.inMemoryLogicalRows entry.op.delta =
      ft.inMemoryLogicalRows + entry.op.delta := by
    rw [same]
    exact adjustLogicalRowCount_eq exact.known (.inr misses)
  have counted := exact'.anticipated
  rw [same, adjusting] at counted
  refine ⟨⟨?_, exact'.keyed, exact'.solid, ?_⟩, ?_, moved⟩
  · show adjustLogicalRowCount _ _ ≠ -1
    rw [moved]
    exact misses
  · show adjustLogicalRowCount _ _ + (middle.adjusting.erase entry.op.delta).sum +
      middle.logicalRowsDelta = anticipatedRows middle.bn middle.pending
    rw [moved, ← counted, adjusting]
    simp
  · show middle.adjusting.erase entry.op.delta = []
    rw [adjusting]
    simp

/-- What the log has kept is sent again, oldest entry first. -/
theorem CountedFt.Exact.recoveredAll {treeLsn : Nat} : ∀ {log : List (LoggedOp Key)}
    {ft after : CountedFt Key}, ft.Exact → ft.adjusting = [] →
      LoggedFt.MissesUnknown ft.inMemoryLogicalRows (LoggedFt.opsAfter treeLsn log) →
        log.foldlM (recoverOp treeLsn) ft = some after → after.Exact := by
  intro log
  induction log with
  | nil =>
    intro ft after exact _ _ done
    cases done
    exact exact
  | cons entry log ih =>
    intro ft after exact settled misses done
    rw [List.foldlM_cons] at done
    obtain ⟨middle, sent, rest⟩ := of_bind done
    by_cases newer : treeLsn < entry.lsn
    · have ops : LoggedFt.opsAfter treeLsn (entry :: log) =
          entry.op :: LoggedFt.opsAfter treeLsn log := by
        simp [LoggedFt.opsAfter, newer]
      rw [ops] at misses
      obtain ⟨here, later⟩ := misses
      obtain ⟨exact', settled', counted⟩ := exact.recovered settled newer here sent
      rw [← counted] at later
      exact ih exact' settled' later rest
    · -- The tree on disk has the operation already.
      have ops : LoggedFt.opsAfter treeLsn (entry :: log) = LoggedFt.opsAfter treeLsn log := by
        simp [LoggedFt.opsAfter, newer]
      rw [ops] at misses
      rw [recoverOp, if_pos (by omega)] at sent
      cases sent
      exact ih exact settled misses rest

end Sending

section Steps

variable {updateFun : UpdateFunc Key} {tree after : LoggedFt Key} {event : RowEvent Key}

/-- A new tree counts rightly, in memory and on disk. -/
theorem LoggedFt.exact_create : (create : LoggedFt Key).Exact where
  memory := CountedFt.exact_create
  disk := by
    have exact : (CountedFt.create : CountedFt Key).Exact := CountedFt.exact_create
    exact ⟨exact.known, exact.keyed, exact.solid, exact.anticipated⟩
  started := by simp [create]

/-- A checkpoint that is written counts what the tree had when it began. -/
theorem LoggedFt.Exact.written {ch : CheckpointHeader Key} (exact : tree.Exact)
    (started : tree.checkpointHeader = some ch)
    (balance : tree.ft.inMemoryLogicalRows =
      ch.ft.inMemoryLogicalRows + ch.ft.adjusting.sum + ch.ft.logicalRowsDelta) :
    (⟨ch.checkpointLsn, tree.ft.inMemoryLogicalRows, ch.ft.pending, ch.ft.bn⟩ :
      StoredFt Key).Exact := by
  have frozen := exact.started ch started
  exact ⟨exact.memory.known, frozen.keyed, frozen.solid, balance.trans frozen.anticipated⟩

/-- Every step that meets the condition leaves all counts right. -/
theorem LoggedFt.Exact.step (exact : tree.Exact) (taken : tree.CountingStep updateFun event after) :
    after.Exact := by
  obtain ⟨counts, taken⟩ := taken
  cases event with
  | send op =>
    obtain ⟨ft, sent, rest⟩ := of_bind taken
    cases rest
    exact ⟨(exact.memory.sentOp sent).1, exact.disk, exact.started⟩
  | adjust delta =>
    obtain ⟨ft, adjusted, rest⟩ := of_bind taken
    cases rest
    have step : tree.ft.ReportingStep updateFun (.adjust delta) ft := ⟨counts, adjusted⟩
    exact ⟨exact.memory.step step, exact.disk, exact.started⟩
  | apply gcInfo =>
    obtain ⟨ft, applied, rest⟩ := of_bind taken
    cases rest
    have step : tree.ft.ReportingStep updateFun (.apply gcInfo) ft := ⟨counts, applied⟩
    exact ⟨exact.memory.step step, exact.disk, exact.started⟩
  | flushed =>
    obtain ⟨ft, flushed, rest⟩ : ∃ ft, tree.ft.next updateFun .flushed = some ft ∧
        some { tree with ft } = some after := ⟨_, rfl, taken⟩
    cases rest
    have step : tree.ft.ReportingStep updateFun .flushed ft := ⟨trivial, flushed⟩
    exact ⟨exact.memory.step step, exact.disk, exact.started⟩
  | beginCheckpoint =>
    -- The checkpoint starts out with a tree that counts rightly.
    obtain ⟨_, rest⟩ := of_invariant taken
    cases rest
    refine ⟨exact.memory, exact.disk, ?_⟩
    intro ch started
    cases started
    exact exact.memory
  | checkpoint =>
    obtain ⟨ch, started, rest⟩ := of_bind taken
    by_cases dirty : ch.dirty = true
    · rw [if_pos dirty] at rest
      cases rest
      exact ⟨exact.memory, exact.written started (counts ch started dirty), by simp⟩
    · -- Nothing is written, so the disk has what it had.
      rw [if_neg dirty] at rest
      cases rest
      exact ⟨exact.memory, exact.disk, by simp⟩
  | crash kept =>
    obtain ⟨ft, replayed, rest⟩ := of_bind taken
    cases rest
    exact ⟨exact.disk.opened.recoveredAll rfl counts replayed, exact.disk, by simp⟩

end Steps

/-- In a run whose steps all meet the condition, the count is exact whenever all messages are
applied and all adjustments made, after recovery as before a crash, and the count on disk never includes
more than the tree on disk. -/
theorem checkpointedRows_exact {updateFun : UpdateFunc Key} {events : List (RowEvent Key)}
    {tree : LoggedFt Key} (run : Runs (LoggedFt.CountingStep updateFun) .create events tree) :
    (tree.ft.Settled → tree.ft.inMemoryLogicalRows = tree.ft.bn.count rowPresent) ∧
      tree.disk.onDiskLogicalRows = anticipatedRows tree.disk.bn tree.disk.pending := by
  have exact : tree.Exact := run.invariant LoggedFt.exact_create fun exact taken => exact.step taken
  refine ⟨fun settled => ?_, exact.disk.counted⟩
  obtain ⟨applied, adjusted, flushed⟩ := settled
  simpa [applied, adjusted, flushed] using exact.memory.counted

/-- An operation is sent and counted, and its message is applied with a report. -/
def sendCounted (op : RowOp Nat) (reported : Int) : List (RowEvent Nat) :=
  [.send op, .adjust op.delta, .apply keepAllGc, .flushed, .adjust reported]

/-- A row is checkpointed, another is inserted, and both are there after a crash. -/
theorem checkpointedRows_exact_crash :
    ∃ tree : LoggedFt Nat, tree.ft.inMemoryLogicalRows = 2 ∧
      tree.ft.inMemoryLogicalRows = tree.ft.bn.count rowPresent := by
  have run : Runs (fun before event after => before.nextCounting noUpdate event = some after)
      LoggedFt.create (sendCounted (.insert 1 [7] [1] .insert) 0 ++
        [.beginCheckpoint, .checkpoint] ++
        sendCounted (.insert 2 [8] [1] .insert) 0 ++
        [.crash 2, .apply keepAllGc, .flushed, .adjust 0]) _ := Runs.of_foldlM rfl
  exact ⟨_, rfl, (checkpointedRows_exact (run.mono LoggedFt.countingStep_of)).1 ⟨rfl, rfl, rfl⟩⟩

/-- A row that is inserted between the begin of a checkpoint and its end is counted twice after a
crash. -/
theorem checkpointedRows_drift :
    ∃ tree : LoggedFt Nat,
      Runs (fun before event after => before.next noUpdate event = some after) LoggedFt.create
        (sendCounted (.insert 1 [7] [1] .insert) 0 ++ [.beginCheckpoint] ++
          sendCounted (.insert 2 [8] [1] .insert) 0 ++
          [.checkpoint, .crash 2, .apply keepAllGc, .flushed, .adjust 0]) tree ∧
      tree.ft.Settled ∧ tree.ft.inMemoryLogicalRows = 3 ∧ tree.ft.bn.count rowPresent = 2 :=
  ⟨_, Runs.of_foldlM rfl, ⟨rfl, rfl, rfl⟩, rfl, rfl⟩

end Tokuft
