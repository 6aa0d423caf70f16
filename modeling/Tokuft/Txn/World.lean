import Tokuft.Library.Runs
import Tokuft.Txn.Manager

/-! Transactions over their whole lives, each step as the engine takes it on one of them. -/

namespace Tokuft

/-- What is remembered of a root transaction that has left the live roots. -/
structure FinishedTxn where
  xid : Nat
  /-- Whether it ended without having logged anything. -/
  readOnly : Bool
  /-- Whether it ended by commit. -/
  committed : Bool
  /-- The last identifier that had been given out when it left. -/
  lastXid : Nat
  deriving DecidableEq, Repr

/-- The manager and the transactions that are open. -/
structure TxnWorld where
  mgr : TxnManager
  /-- A root transaction's open transactions, the innermost child first and the root last. -/
  txns : Nat → List TokuTxn
  /-- The last identifier that a root's child manager has given out. -/
  lastChildXid : Nat → Nat
  /-- The roots that have left the live roots, latest first; no step of the engine reads this. -/
  finished : List FinishedTxn

/-- Before anything happens. -/
def TxnWorld.init : TxnWorld where
  mgr := .init
  txns := fun _ => []
  lastChildXid := fun _ => txnidNone
  finished := []

/-- What can happen to transactions. -/
inductive TxnEvent where
  | beginRoot (snapshotType : TxnSnapshotType) (readOnly : Bool)
  /-- The innermost open transaction of a root starts a child. -/
  | beginChild (root : Nat)
  /-- The innermost open transaction of a root is about to write, so all of them are logged. -/
  | logBegin (root : Nat)
  | noteCommit (root : Nat)
  | noteAbort (root : Nat)
  | completeChild (root : Nat)
  | completeRoot (root : Nat)
  deriving DecidableEq, Repr

/-- Start a root transaction. -/
def TxnWorld.beginRoot (world : TxnWorld) (snapshotType : TxnSnapshotType) (readOnly : Bool) :
    TxnWorld :=
  let (mgr, txn) := world.mgr.startTxn (.create snapshotType readOnly) snapshotType readOnly
  { world with
    mgr
    txns := Function.update world.txns txn.parentId64 [txn]
    lastChildXid := Function.update world.lastChildXid txn.parentId64 txnidNone }

/-- A new child transaction, which may write when its parent may. -/
def TokuTxn.createChild (parent : TokuTxn) (childXid : Nat) : TokuTxn :=
  { TokuTxn.create parent.snapshotType parent.declaredReadOnly with
    parentId64 := parent.parentId64, childId64 := childXid }

/--
Start a child transaction, which reads and writes as its parent does.

The layer above the engine admits no child of another isolation level.
It declares the children of read-only transactions read-only.
-/
def TxnWorld.beginChild (world : TxnWorld) (root : Nat) : Option TxnWorld :=
  match world.txns root with
  | [] => none
  | parent :: outer => do
    invariant (parent.state = .live)
    invariant (parent.declaredReadOnly ∨ (parent :: outer).length < maxNestedTransactions)
    let childXid := startChildTxn root (world.lastChildXid root)
    let (mgr, chain) ← world.mgr.handleSnapshotCreateForChildTxn (parent.createChild childXid)
      parent outer
    pure { world with
      mgr
      txns := Function.update world.txns root chain
      lastChildXid := Function.update world.lastChildXid root childXid }

/-- Log the start of a transaction and of its ancestors before it writes. -/
def TxnWorld.logBegin (world : TxnWorld) (root : Nat) : Option TxnWorld :=
  match world.txns root with
  | [] => none
  | txn :: outer => do
    invariant (txn.declaredReadOnly = false ∧ txn.state = .live)
    let chain := (txn :: outer).map fun txn => { txn with beginWasLogged := true }
    pure { world with txns := Function.update world.txns root chain }

/-- Note that a root transaction without a child begins to commit or to abort. -/
def TxnWorld.note (world : TxnWorld) (root : Nat) (state : TokuTxnState) : Option TxnWorld :=
  match world.txns root with
  | [txn] => do
    invariant (txn.state = .live)
    pure { world with txns := Function.update world.txns root [{ txn with state }] }
  | _ => none

/-- Complete a child transaction, whose changes are its parent's from now on or gone. -/
def TxnWorld.completeChild (world : TxnWorld) (root : Nat) : Option TxnWorld :=
  match world.txns root with
  | child :: parent :: outer => do
    let (mgr, chain) ← world.mgr.handleSnapshotDestroyForChildTxn child (parent :: outer)
    pure { world with mgr, txns := Function.update world.txns root chain }
  | _ => none

/-- Complete a root transaction. -/
def TxnWorld.completeRoot (world : TxnWorld) (root : Nat) : Option TxnWorld :=
  match world.txns root with
  | [txn] => do
    invariant (txn.state = .committing ∨ txn.state = .aborting)
    let mgr ← world.mgr.finishTxn txn
    let finished := if txn.declaredReadOnly then world.finished else
      { xid := root, readOnly := txnIsReadOnly txn, committed := txn.state == .committing,
        lastXid := world.mgr.lastXid } :: world.finished
    pure { world with mgr, txns := Function.update world.txns root [], finished }
  | _ => none

/-- One step, absent when the event cannot happen. -/
def TxnWorld.next (world : TxnWorld) : TxnEvent → Option TxnWorld
  | .beginRoot snapshotType readOnly => some (world.beginRoot snapshotType readOnly)
  | .beginChild root => world.beginChild root
  | .logBegin root => world.logBegin root
  | .noteCommit root => world.note root .committing
  | .noteAbort root => world.note root .aborting
  | .completeChild root => world.completeChild root
  | .completeRoot root => world.completeRoot root

/-- The worlds that a run of events leads to. -/
def TxnWorld.Reaches (events : List TxnEvent) (world : TxnWorld) : Prop :=
  Runs (fun before event after => before.next event = some after) .init events world

section Inversion

variable {world after : TxnWorld} {root : Nat}

/-- What starting a child has done. -/
theorem TxnWorld.beginChild_inv (taken : world.beginChild root = some after) :
    ∃ parent outer mgr chain, world.txns root = parent :: outer ∧ parent.state = .live ∧
      (parent.declaredReadOnly = true ∨ (parent :: outer).length < maxNestedTransactions) ∧
      world.mgr.handleSnapshotCreateForChildTxn
        (parent.createChild (startChildTxn root (world.lastChildXid root))) parent outer =
          some (mgr, chain) ∧
      after = { world with
        mgr
        txns := Function.update world.txns root chain
        lastChildXid := Function.update world.lastChildXid root
          (startChildTxn root (world.lastChildXid root)) } := by
  unfold TxnWorld.beginChild at taken
  split at taken
  · cases taken
  · rename_i parent outer found
    simp only [bind_inv, invariant_eq_some, Prod.exists] at taken
    obtain ⟨-, live, -, nested, mgr, chain, create, rfl⟩ := taken
    exact ⟨parent, outer, mgr, chain, found, live, nested, create, rfl⟩

/-- What logging the start of transactions has done. -/
theorem TxnWorld.logBegin_inv (taken : world.logBegin root = some after) :
    ∃ txn outer, world.txns root = txn :: outer ∧ txn.declaredReadOnly = false ∧
      txn.state = .live ∧ after = { world with
        txns := Function.update world.txns root
          ((txn :: outer).map fun txn => { txn with beginWasLogged := true }) } := by
  unfold TxnWorld.logBegin at taken
  split at taken
  · cases taken
  · rename_i txn outer found
    simp only [bind_inv, invariant_eq_some] at taken
    obtain ⟨-, ⟨writes, live⟩, rfl⟩ := taken
    exact ⟨txn, outer, found, writes, live, rfl⟩

/-- What noting the end of a root transaction has done. -/
theorem TxnWorld.note_inv {state : TokuTxnState} (taken : world.note root state = some after) :
    ∃ txn, world.txns root = [txn] ∧ txn.state = .live ∧
      after = { world with txns := Function.update world.txns root [{ txn with state }] } := by
  unfold TxnWorld.note at taken
  split at taken
  · rename_i txn found
    simp only [bind_inv, invariant_eq_some] at taken
    obtain ⟨-, live, rfl⟩ := taken
    exact ⟨txn, found, live, rfl⟩
  · cases taken

/-- What completing a child has done. -/
theorem TxnWorld.completeChild_inv (taken : world.completeChild root = some after) :
    ∃ child parent outer mgr chain, world.txns root = child :: parent :: outer ∧
      world.mgr.handleSnapshotDestroyForChildTxn child (parent :: outer) = some (mgr, chain) ∧
      after = { world with mgr, txns := Function.update world.txns root chain } := by
  unfold TxnWorld.completeChild at taken
  split at taken
  · rename_i child parent outer found
    simp only [bind_inv, Prod.exists] at taken
    obtain ⟨mgr, chain, destroy, rfl⟩ := taken
    exact ⟨child, parent, outer, mgr, chain, found, destroy, rfl⟩
  · cases taken

variable {mgr left : TxnManager} {txn parent : TokuTxn} {outer chain : List TokuTxn}

/-- A child gets a snapshot of its own, or a new copy of the list, or what its parent has. -/
theorem TxnManager.createForChild_cases
    (create : mgr.handleSnapshotCreateForChildTxn txn parent outer = some (left, chain)) :
    (txnRecordsSnapshot txn.snapshotType true = true ∧ left = (mgr.createSnapshot txn).1 ∧
      chain = (mgr.createSnapshot txn).2 :: parent :: outer) ∨
    (¬txnRecordsSnapshot txn.snapshotType true = true ∧
      txnCopiesSnapshot txn.snapshotType true = true ∧ left = mgr ∧
      chain = (inheritSnapshotFromParent txn parent :: parent :: outer).map fun txn =>
        { txn with liveRootTxnList := some mgr.liveRootIds }) ∨
    (¬txnRecordsSnapshot txn.snapshotType true = true ∧
      ¬txnCopiesSnapshot txn.snapshotType true = true ∧ left = mgr ∧
      chain = inheritSnapshotFromParent txn parent :: parent :: outer) := by
  unfold TxnManager.handleSnapshotCreateForChildTxn at create
  split at create
  · rename_i records
    cases create
    exact Or.inl ⟨records, rfl, rfl⟩
  · rename_i bare
    split at create
    · rename_i copies
      simp only [bind_inv, Prod.mk.injEq] at create
      obtain ⟨-, -, rfl, rfl⟩ := create
      exact Or.inr (Or.inl ⟨bare, copies, rfl, rfl⟩)
    · rename_i plain
      cases create
      exact Or.inr (Or.inr ⟨bare, plain, rfl, rfl⟩)

/-- A child withdraws its own snapshot, or frees the list that it shares, or neither. -/
theorem TxnManager.destroyForChild_cases
    (destroy : mgr.handleSnapshotDestroyForChildTxn txn outer = some (left, chain)) :
    (txnRecordsSnapshot txn.snapshotType true = true ∧ mgr.removeSnapshot txn = some left ∧
      chain = outer) ∨
    (¬txnRecordsSnapshot txn.snapshotType true = true ∧
      txnCopiesSnapshot txn.snapshotType true = true ∧ left = mgr ∧
      chain = outer.map fun txn => { txn with liveRootTxnList := none }) ∨
    (¬txnRecordsSnapshot txn.snapshotType true = true ∧
      ¬txnCopiesSnapshot txn.snapshotType true = true ∧ left = mgr ∧ chain = outer) := by
  unfold TxnManager.handleSnapshotDestroyForChildTxn at destroy
  split at destroy
  · rename_i records
    simp only [bind_inv, Prod.mk.injEq] at destroy
    obtain ⟨left, removal, rfl, rfl⟩ := destroy
    exact Or.inl ⟨records, removal, rfl⟩
  · rename_i bare
    split at destroy
    · rename_i copies
      simp only [bind_inv, Prod.mk.injEq] at destroy
      obtain ⟨-, -, rfl, rfl⟩ := destroy
      exact Or.inr (Or.inl ⟨bare, copies, rfl, rfl⟩)
    · rename_i plain
      cases destroy
      exact Or.inr (Or.inr ⟨bare, plain, rfl, rfl⟩)

end Inversion

end Tokuft
