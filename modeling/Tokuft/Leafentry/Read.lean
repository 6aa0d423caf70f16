import Tokuft.Leafentry.NestedRefines
import Tokuft.Txn.Manager

/-! Which record of a row a transaction reads. -/

namespace Tokuft

/-- Whether the newest record of a row deletes it. -/
def leLatestIsDel (le : Ule) : Bool := (uleGetInnermostUxr le).any uxrIsDelete

/-- The value of the newest record of a row. -/
def leLatestVal (le : Ule) : Option Bytes :=
  match uleGetInnermostUxr le with
  | some { type := .insert val, .. } => some val
  | _ => none

/-- The outermost provisional transaction of a row, or none. -/
def leOutermostUncommittedXid (le : Ule) : Nat :=
  (uleGetOutermostProvisional le).elim txnidNone Uxr.xid

/-- The oldest root that was live when a snapshot was created, or none. -/
def getOldestInLiveRootTxnList (liveRootTxnList : List Nat) : Nat :=
  liveRootTxnList.head?.getD txnidNone

/-- The first of an ordered list is below everything that the whole list is above. -/
theorem lt_head_iff_of_sorted {xid : Nat} {liveList : List Nat}
    (sorted : liveList.Pairwise (· < ·)) :
    xid < getOldestInLiveRootTxnList liveList ↔
      liveList ≠ [] ∧ ∀ other ∈ liveList, xid < other := by
  cases liveList with
  | nil => simp [getOldestInLiveRootTxnList]
  | cons oldest others =>
    have above := (List.pairwise_cons.mp sorted).1
    simp only [getOldestInLiveRootTxnList, List.head?_cons, Option.getD_some, ne_eq,
      reduceCtorEq, not_false_eq_true, true_and, List.forall_mem_cons]
    exact ⟨fun below => ⟨below, fun other member => Nat.lt_trans below (above other member)⟩,
      fun both => both.1⟩

/--
Whether a transaction reads what another root transaction wrote.

The result is absent where the source would follow a list that is not there.
A server that is started to rescue its data reads everything.
-/
def tokuTxnReadsTxnid (forceRecovery : Bool) (txnid : Nat) (txn : TokuTxn) : Option Bool :=
  if forceRecovery then pure true
  else do
    let liveRootTxnList ← txn.liveRootTxnList
    let oldestLiveInSnapshot := getOldestInLiveRootTxnList liveRootTxnList
    if oldestLiveInSnapshot = txnidNone ∧ txnid < txn.snapshotTxnid64 then pure true
    else if txnid < oldestLiveInSnapshot ∨ txnid = txn.parentId64 then pure true
    else if txn.snapshotTxnid64 < txnid ∨ isTxnInLiveRootTxnList liveRootTxnList txnid then
      pure false
    else pure true

/-- How a caller looks at a transaction's identifier, told whether its record is provisional. -/
abbrev LeIterateCallback := Nat → Bool → Option Bool

/-- A snapshot reader asks about every record alike. -/
def leIterateReadSnapshotCallback (forceRecovery : Bool) (txn : TokuTxn) : LeIterateCallback :=
  fun txnid _ => tokuTxnReadsTxnid forceRecovery txnid txn

/-- A reader of whatever is committed asks only about a provisional record. -/
def leIterateReadCommittedCallback (forceRecovery : Bool) (txn : TokuTxn) : LeIterateCallback :=
  fun txnid isProvisional =>
    if isProvisional then tokuTxnReadsTxnid forceRecovery txnid txn else pure true

/-- The place of the first identifier that is accepted, or of the last, which nobody is asked. -/
def leIterateGetAcceptedIndex (f : LeIterateCallback) : Bool → List Nat → Option Nat
  | _, [] => none
  | _, [_] => some 0
  | topIsProvisional, xid :: next :: older => do
    let accepts ← f xid topIsProvisional
    if accepts then pure 0
    else
      let index ← leIterateGetAcceptedIndex f false (next :: older)
      pure (index + 1)

/-- The record that a reader is given. -/
def leIterateXr (f : LeIterateCallback) (le : Ule) : Option Xr := do
  let interesting := interestingXrs le
  let index ← leIterateGetAcceptedIndex f (0 < le.numPuxrs) (interesting.map Uxr.xid)
  let uxr ← interesting[index]?
  pure uxr.type

/-- How a cursor reads. -/
inductive CursorReadType where
  | any
  | snapshot
  | committed
  deriving DecidableEq, Repr

/-- The record that a cursor's transaction reads from a row. -/
def leReadXr (forceRecovery : Bool) (le : Ule) (readType : CursorReadType) (txn : TokuTxn) :
    Option Xr :=
  match readType with
  | .snapshot => leIterateXr (leIterateReadSnapshotCallback forceRecovery txn) le
  | .committed => leIterateXr (leIterateReadCommittedCallback forceRecovery txn) le
  | .any => (uleGetInnermostUxr le).map Uxr.type

/-- Whether there is nothing for a cursor's transaction to read in a row. -/
def leValIsDel (forceRecovery : Bool) (le : Ule) (readType : CursorReadType) (txn : TokuTxn) :
    Option Bool :=
  (leReadXr forceRecovery le readType txn).map fun xr => !(xr matches .insert _)

/-- The value that a cursor's transaction reads from a row, which a deleted row has not. -/
def leExtractVal (forceRecovery : Bool) (le : Ule) (readType : CursorReadType) (txn : TokuTxn) :
    Option (Option Bytes) :=
  (leReadXr forceRecovery le readType txn).map fun
    | .insert val => some val
    | _ => none

end Tokuft
