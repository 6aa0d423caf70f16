import Tokuft.Tree.RowCount

/-! The header's count of logical rows, adjusted by senders and by whoever applies messages. -/

namespace Tokuft

variable {Key : Type} [LinearOrder Key]

/--
Add to the header's count of rows.

The source keeps the count in an unsigned word and lets its largest value, written minus one here,
stand for a count that is not known.
A sum that comes out as that value is moved up by one.
-/
def adjustLogicalRowCount (inMemoryLogicalRows delta : Int) : Int :=
  if delta ≠ 0 ∧ inMemoryLogicalRows ≠ -1 then
    let rows := inMemoryLogicalRows + delta
    if rows = -1 then rows + 1 else rows
  else inMemoryLogicalRows

/-- A tree of one basement node, with the messages and adjustments that are on their way. -/
structure CountedFt (Key : Type) [LinearOrder Key] where
  inMemoryLogicalRows : Int
  /-- Adjustments that a caller has decided on and not made yet. -/
  adjusting : List Int
  /-- The changes that the messages of the current flush have reported so far. -/
  logicalRowsDelta : Int
  /-- The messages that were sent and not applied yet, oldest first. -/
  pending : List (FtMsg Key)
  bn : BnData Key

/-- A new tree has no rows and counts none. -/
def CountedFt.create : CountedFt Key where
  inMemoryLogicalRows := 0
  adjusting := []
  logicalRowsDelta := 0
  pending := []
  bn := .empty

/-- What can happen to the count: a sender, an adjustment, or a flush makes its next step. -/
inductive CountEvent (Key : Type) where
  | maybeInsert (key : Key) (val : Bytes) (xids : List Nat) (type : FtMsgType)
  | maybeDelete (key : Key) (xids : List Nat)
  | rollback (key : Key) (xids : List Nat)
  | commit (key : Key) (xids : List Nat)
  | adjust (delta : Int)
  | apply (gcInfo : TxnGcInfo)
  | flushed

/-- Send a message, stamped with its number by the tree that takes it. -/
def CountedFt.rootPutMsg (ft : CountedFt Key) (msg : FtMsg Key) : CountedFt Key :=
  { ft with pending := ft.pending ++ [msg] }

/-- Send an insert, and count a row more. -/
def CountedFt.maybeInsert (ft : CountedFt Key) (key : Key) (val : Bytes) (xids : List Nat)
    (type : FtMsgType) : Option (CountedFt Key) := do
  invariant (type = .insert ∨ type = .insertNoOverwrite)
  let ft := ft.rootPutMsg { key, val, type, msn := 0, xids }
  pure { ft with adjusting := ft.adjusting ++ [1] }

/-- Send a delete, and count a row less without looking for it. -/
def CountedFt.maybeDelete (ft : CountedFt Key) (key : Key) (xids : List Nat) : CountedFt Key :=
  let ft := ft.rootPutMsg { key, val := [], type := .deleteAny, msn := 0, xids }
  { ft with adjusting := ft.adjusting ++ [-1] }

/-- One step of the tree, absent when the event cannot happen. -/
def CountedFt.next (updateFun : UpdateFunc Key) (ft : CountedFt Key) :
    CountEvent Key → Option (CountedFt Key)
  | .maybeInsert key val xids type => ft.maybeInsert key val xids type
  | .maybeDelete key xids => some (ft.maybeDelete key xids)
  -- Neither kind of finish touches the count when it is sent.
  | .rollback key xids =>
    some (ft.rootPutMsg { key, val := [], type := .abortAny, msn := 0, xids })
  | .commit key xids =>
    some (ft.rootPutMsg { key, val := [], type := .commitAny, msn := 0, xids })
  | .adjust delta => do
    invariant (delta ∈ ft.adjusting)
    pure { ft with
      adjusting := ft.adjusting.erase delta
      inMemoryLogicalRows := adjustLogicalRowCount ft.inMemoryLogicalRows delta }
  | .apply gcInfo =>
    match ft.pending with
    | [] => none
    | msg :: pending => do
      let (bn, delta) ← bnApplyMsg updateFun ft.bn msg gcInfo
      pure { ft with pending, bn, logicalRowsDelta := ft.logicalRowsDelta + delta }
  | .flushed =>
    some { ft with adjusting := ft.adjusting ++ [ft.logicalRowsDelta], logicalRowsDelta := 0 }

/--
The condition under which one step keeps the count right.

A message has to report the change it makes, and no sum may come out as the unknown count.
-/
def CountedFt.StepReports (ft : CountedFt Key) : CountEvent Key → Prop
  | .apply _ => ∀ msg ∈ ft.pending.head?, BnReports ft.bn msg
  | .adjust delta => delta = 0 ∨ ft.inMemoryLogicalRows + delta ≠ -1
  | _ => True

instance (ft : CountedFt Key) (event : CountEvent Key) : Decidable (ft.StepReports event) :=
  match event with
  | .apply _ => inferInstanceAs (Decidable (∀ msg ∈ ft.pending.head?, BnReports ft.bn msg))
  | .adjust delta =>
    inferInstanceAs (Decidable (delta = 0 ∨ ft.inMemoryLogicalRows + delta ≠ -1))
  | .maybeInsert .. | .maybeDelete .. | .rollback .. | .commit .. | .flushed => .isTrue trivial

/-- A step of the tree that meets the condition. -/
def CountedFt.ReportingStep (updateFun : UpdateFunc Key) (ft : CountedFt Key)
    (event : CountEvent Key) (after : CountedFt Key) : Prop :=
  ft.StepReports event ∧ ft.next updateFun event = some after

/-- One step of the tree, absent also when the condition is not met. -/
def CountedFt.nextReporting (updateFun : UpdateFunc Key) (ft : CountedFt Key)
    (event : CountEvent Key) : Option (CountedFt Key) :=
  if ft.StepReports event then ft.next updateFun event else none

/-- A computed step that checks the condition is a step that meets it. -/
theorem CountedFt.reportingStep_of {updateFun : UpdateFunc Key} {ft after : CountedFt Key}
    {event : CountEvent Key} (taken : ft.nextReporting updateFun event = some after) :
    ft.ReportingStep updateFun event after := by
  simpa [ReportingStep, nextReporting] using taken

/-- What a count that has never gone wrong satisfies, however much is still on its way. -/
structure CountedFt.Exact (ft : CountedFt Key) : Prop where
  known : ft.inMemoryLogicalRows ≠ -1
  keyed : ∀ msg ∈ ft.pending, isKeyMessage msg.type = true
  solid : BnSolid ft.bn
  /-- The header and the outstanding adjustments anticipate the messages not applied yet. -/
  counted : ft.inMemoryLogicalRows + ft.adjusting.sum + ft.logicalRowsDelta =
    ft.bn.count rowPresent + (ft.pending.map fun msg => sentDelta msg.type).sum

/-- An adjustment adds up unless it meets the unknown count. -/
theorem adjustLogicalRowCount_eq {rows delta : Int} (known : rows ≠ -1)
    (missed : delta = 0 ∨ rows + delta ≠ -1) :
    adjustLogicalRowCount rows delta = rows + delta := by
  unfold adjustLogicalRowCount
  rcases missed with rfl | missed
  · simp
  · split
    · simp [missed]
    · omega

/-- A new tree counts rightly. -/
theorem CountedFt.exact_create : (create : CountedFt Key).Exact where
  known := by simp [create]
  keyed := by simp [create]
  solid := by
    intro key le member
    simp [create, SortedTable.empty, SortedTable.get, getEntry] at member
  counted := rfl

/-- Sending a message and deciding on its adjustment together leave the count right. -/
theorem CountedFt.Exact.sent {ft : CountedFt Key} (exact : ft.Exact) {msg : FtMsg Key}
    {adjusting : List Int} (keyed : isKeyMessage msg.type = true)
    (decided : adjusting.sum = ft.adjusting.sum + sentDelta msg.type) :
    Exact { ft.rootPutMsg msg with adjusting } where
  known := exact.known
  keyed := by
    intro other member
    rcases List.mem_append.mp member with earlier | last
    · exact exact.keyed other earlier
    · rw [List.mem_singleton.mp last]; exact keyed
  solid := exact.solid
  counted := by
    have counted := exact.counted
    simp only [rootPutMsg, List.map_append, List.sum_append, List.map_cons, List.map_nil,
      List.sum_cons, List.sum_nil]
    omega

/-- Every step that meets the condition leaves the count right. -/
theorem CountedFt.Exact.step {updateFun : UpdateFunc Key} {ft after : CountedFt Key}
    {event : CountEvent Key} (exact : ft.Exact) (taken : ft.ReportingStep updateFun event after) :
    after.Exact := by
  obtain ⟨reports, taken⟩ := taken
  have counted := exact.counted
  cases event with
  | maybeInsert key val xids type =>
    simp only [next, maybeInsert, bind_inv, invariant_eq_some] at taken
    obtain ⟨-, kind, rfl⟩ := taken
    refine exact.sent ?_ ?_ <;> rcases kind with rfl | rfl <;>
      simp [isKeyMessage, sentDelta, rootPutMsg]
  | maybeDelete key xids =>
    cases taken
    exact exact.sent rfl (by simp [sentDelta, rootPutMsg])
  | rollback key xids =>
    cases taken
    exact exact.sent rfl (by simp [sentDelta])
  | commit key xids =>
    cases taken
    exact exact.sent rfl (by simp [sentDelta])
  | adjust delta =>
    simp only [next, bind_inv, invariant_eq_some] at taken
    obtain ⟨-, member, rfl⟩ := taken
    have moved := adjustLogicalRowCount_eq exact.known reports
    have left := List.sum_erase member
    refine ⟨?_, exact.keyed, exact.solid, ?_⟩
    · -- The condition keeps the sum away from the unknown count.
      dsimp only
      rw [moved]
      rcases reports with rfl | missed
      · simpa using exact.known
      · exact missed
    · dsimp only
      rw [moved]
      omega
  | apply gcInfo =>
    simp only [next] at taken
    split at taken
    · cases taken
    · rename_i msg pending queued
      simp only [bind_inv, Prod.exists] at taken
      obtain ⟨bn, delta, applied, rfl⟩ := taken
      have keyed : isKeyMessage msg.type = true := exact.keyed msg (by simp [queued])
      obtain ⟨solid, right⟩ := bnApplyMsg_delta applied keyed exact.solid
      -- The oldest message leaves the queue as its change enters the basement node.
      have change := right.mpr (reports msg (by simp [queued]))
      rw [queued, List.map_cons, List.sum_cons] at counted
      refine ⟨exact.known, fun other member => exact.keyed other (by simp [queued, member]),
        solid, ?_⟩
      dsimp only
      rw [change]
      omega
  | flushed =>
    cases taken
    refine ⟨exact.known, exact.keyed, exact.solid, ?_⟩
    simp only [List.sum_append, List.sum_cons, List.sum_nil]
    omega

/-- Everything that was sent has been applied, and every adjustment made. -/
def CountedFt.Settled (ft : CountedFt Key) : Prop :=
  ft.pending = [] ∧ ft.adjusting = [] ∧ ft.logicalRowsDelta = 0

/-- In a run whose steps all meet the condition, the count is exact whenever all is settled. -/
theorem logicalRowCount_exact {updateFun : UpdateFunc Key} {events : List (CountEvent Key)}
    {ft : CountedFt Key} (run : Runs (CountedFt.ReportingStep updateFun) .create events ft)
    (settled : ft.Settled) : ft.inMemoryLogicalRows = ft.bn.count rowPresent := by
  -- The condition carries exactness along the run, and nothing outstanding is left to anticipate.
  have exact : ft.Exact := run.invariant CountedFt.exact_create fun exact taken => exact.step taken
  obtain ⟨applied, adjusted, flushed⟩ := settled
  simpa [applied, adjusted, flushed] using exact.counted

/-- A caller that keeps every committed record, with nothing known of other transactions. -/
def keepAllGc : TxnGcInfo where
  txnStateForGc := none
  oldestReferencedXidForSimpleGc := txnidNone
  oldestReferencedXidForImplicitPromotion := txnidNone
  mvccNeeded := true

/-- A caller sends, the message is applied and reports a change, and both adjustments are made. -/
def sendAndApply (send : CountEvent Nat) (reported sent : Int) : List (CountEvent Nat) :=
  [send, .apply keepAllGc, .flushed, .adjust reported, .adjust sent]

/-- No row is ever updated through a function of the user. -/
def noUpdate : UpdateFunc Nat := fun _ _ _ => none

/-- A row is inserted, overwritten by a child, deleted by the child, and uncovered by its abort. -/
theorem logicalRowCount_exact_childAborts :
    ∃ ft : CountedFt Nat, ft.bn.count rowPresent = 1 ∧
      ft.inMemoryLogicalRows = ft.bn.count rowPresent := by
  have run : Runs (fun before event after => before.nextReporting noUpdate event = some after)
      CountedFt.create (sendAndApply (.maybeInsert 1 [7] [1] .insert) 0 1 ++
        sendAndApply (.maybeInsert 1 [8] [1, 2] .insert) (-1) 1 ++
        sendAndApply (.maybeDelete 1 [1, 2]) 0 (-1) ++
        [.rollback 1 [1, 2], .apply keepAllGc, .flushed, .adjust 1]) _ := Runs.of_foldlM rfl
  exact ⟨_, rfl, logicalRowCount_exact (run.mono CountedFt.reportingStep_of) ⟨rfl, rfl, rfl⟩⟩

/--
The count goes wrong in two ways.

One transaction inserts a row and deletes another that is not there.
A second overwrites a row twice committed, aborts, and takes a row away that stays.
-/
theorem logicalRowCount_drifts :
    (∃ ft : CountedFt Nat,
      Runs (fun before event after => before.next noUpdate event = some after) .create
        (sendAndApply (.maybeInsert 1 [7] [1] .insert) 0 1 ++
          sendAndApply (.maybeDelete 2 [1]) 0 (-1)) ft ∧
      ft.Settled ∧ ft.inMemoryLogicalRows = 0 ∧ ft.bn.count rowPresent = 1) ∧
    ∃ ft : CountedFt Nat,
      Runs (fun before event after => before.next noUpdate event = some after) .create
        (sendAndApply (.maybeInsert 1 [7] [1] .insert) 0 1 ++
          sendAndApply (.maybeInsert 1 [8] [2] .insert) (-1) 1 ++
          sendAndApply (.maybeInsert 1 [9] [3] .insert) (-1) 1 ++
          [.rollback 1 [3], .apply keepAllGc, .flushed, .adjust (-1)]) ft ∧
      ft.Settled ∧ ft.inMemoryLogicalRows = 0 ∧ ft.bn.count rowPresent = 1 :=
  ⟨⟨_, Runs.of_foldlM rfl, ⟨rfl, rfl, rfl⟩, rfl, rfl⟩,
    ⟨_, Runs.of_foldlM rfl, ⟨rfl, rfl, rfl⟩, rfl, rfl⟩⟩

end Tokuft
