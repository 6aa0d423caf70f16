import Tokuft.Txn.State

/-! The transaction manager: live roots, recorded snapshots, and the reverse live list. -/

namespace Tokuft

/-- How a transaction reads: from which snapshot, and whether that snapshot is recorded. -/
inductive TxnSnapshotType where
  /-- Reads do not use a snapshot. -/
  | none
  /-- Every transaction uses the snapshot of its root. -/
  | root
  /-- Every child creates a snapshot of its own. -/
  | child
  /-- The list of live roots is copied, and no snapshot is recorded. -/
  | copies
  deriving DecidableEq, Repr

/-- Where a transaction stands between its start and its end. -/
inductive TokuTxnState where
  | live
  | committing
  | aborting
  deriving DecidableEq, Repr

/-- Whether a transaction enters the list of recorded snapshots. -/
def txnRecordsSnapshot (snapshotType : TxnSnapshotType) (hasParent : Bool) : Bool :=
  match snapshotType with
  | .copies => false
  | .none => false
  | .root => !hasParent
  | .child => true

/-- Whether a transaction copies the list of live roots. -/
def txnCopiesSnapshot (snapshotType : TxnSnapshotType) (hasParent : Bool) : Bool :=
  snapshotType == .copies || txnRecordsSnapshot snapshotType hasParent

/-- A transaction, as far as the manager and its readers look at it. -/
structure TokuTxn where
  /-- The identifier of the root transaction. -/
  parentId64 : Nat
  /-- The identifier of a child within its root, or none for the root itself. -/
  childId64 : Nat
  snapshotTxnid64 : Nat
  snapshotType : TxnSnapshotType
  /-- The roots that were live when the snapshot was created, in order. -/
  liveRootTxnList : Option (List Nat)
  beginWasLogged : Bool
  declaredReadOnly : Bool
  state : TokuTxnState
  deriving DecidableEq, Repr

/-- A new transaction, before it gets its identifier. -/
def TokuTxn.create (snapshotType : TxnSnapshotType) (readOnly : Bool) : TokuTxn where
  parentId64 := txnidNone
  childId64 := txnidNone
  snapshotTxnid64 := txnidNone
  snapshotType := snapshotType
  liveRootTxnList := none
  beginWasLogged := false
  declaredReadOnly := readOnly
  state := .live

/-- A transaction that has logged nothing did no work. -/
def txnIsReadOnly (txn : TokuTxn) : Bool := !txn.beginWasLogged

/--
A transaction in the list of recorded snapshots.

The source links the transactions themselves.
What the manager reads through those links stays as it is while the snapshot is recorded.
-/
structure Snapshot where
  /-- The identifiers of the transaction that owns the snapshot. -/
  owner : Nat × Nat
  snapshotTxnid64 : Nat
  liveRootTxnList : List Nat
  deriving DecidableEq, Repr

/-- The entry of a transaction in the list of recorded snapshots. -/
def TokuTxn.snapshot (txn : TokuTxn) : Snapshot where
  owner := (txn.parentId64, txn.childId64)
  snapshotTxnid64 := txn.snapshotTxnid64
  liveRootTxnList := txn.liveRootTxnList.getD []

/-- The transaction manager. -/
structure TxnManager where
  /-- The live root transactions in order, each named by its own identifier. -/
  liveRootTxns : List Nat
  liveRootIds : List Nat
  /-- The recorded snapshots, head first. -/
  snapshots : List Snapshot
  numSnapshots : Nat
  /-- The finished transactions that recorded snapshots still hold as live. -/
  referencedXids : List ReferencedXidTuple
  lastXid : Nat
  lastCalculatedOldestReferencedXid : Nat
  deriving DecidableEq, Repr

/-- A new manager. -/
def TxnManager.init : TxnManager where
  liveRootTxns := []
  liveRootIds := []
  snapshots := []
  numSnapshots := 0
  referencedXids := []
  lastXid := 0
  lastCalculatedOldestReferencedXid := txnidNone

/-- The identifiers of the recorded snapshots, head first. -/
def TxnManager.snapshotXids (mgr : TxnManager) : List Nat :=
  mgr.snapshots.map Snapshot.snapshotTxnid64

/-- Copy what garbage collection needs to know. -/
def TxnManager.cloneStateForGc (mgr : TxnManager) : TxnManagerState where
  snapshotXids := mgr.snapshotXids
  referencedXids := mgr.referencedXids
  liveRootTxns := mgr.liveRootIds

/-- The lower of an identifier and another that may be missing. -/
def lowerXid (xid : Nat) (other : Option Nat) : Nat := other.elim xid (min xid)

/--
Publish a bound below every transaction that a reader may still ask for.

The source starts from the largest identifier and ends with the last one given out.
Here the search starts from the last one.
-/
def TxnManager.setOldestReferencedXid (mgr : TxnManager) : TxnManager :=
  let oldest := lowerXid mgr.lastXid mgr.liveRootIds.head?
  let oldest := lowerXid oldest (mgr.referencedXids.head?.map ReferencedXidTuple.beginId)
  let oldest := lowerXid oldest (mgr.snapshots.head?.map Snapshot.snapshotTxnid64)
  { mgr with lastCalculatedOldestReferencedXid := oldest }

/-- Give a transaction a snapshot of its own and record it at the tail. -/
def TxnManager.createSnapshot (mgr : TxnManager) (txn : TokuTxn) : TxnManager × TokuTxn :=
  let xid := mgr.lastXid + 1
  let txn := { txn with snapshotTxnid64 := xid, liveRootTxnList := some mgr.liveRootIds }
  ({ mgr with lastXid := xid, snapshots := mgr.snapshots ++ [txn.snapshot],
              numSnapshots := mgr.numSnapshots + 1 }, txn)

/-- Take one reference off a transaction, whose tuple goes with its last reference. -/
def referencedXidsNoteSnapshotTxnEnd (liveXid : Nat) :
    List ReferencedXidTuple → Option (List ReferencedXidTuple)
  | [] => some []
  | tuple :: rest =>
    if tuple.beginId = liveXid then do
      invariant (0 < tuple.references)
      if tuple.references - 1 = 0 then pure rest
      else pure ({ tuple with references := tuple.references - 1 } :: rest)
    else (referencedXidsNoteSnapshotTxnEnd liveXid rest).map (tuple :: ·)

/-- Look every member of a closing snapshot's list up among the referenced transactions. -/
def noteSnapshotTxnEndByRefXids (refs : List ReferencedXidTuple) (liveList : List Nat) :
    Option (List ReferencedXidTuple) :=
  liveList.foldlM (fun refs xid => referencedXidsNoteSnapshotTxnEnd xid refs) refs

/-- Take references off in one walk, and note the places where none is left. -/
def noteSnapshotTxnEndByTxnLiveListIter (liveList : List Nat) :
    Nat → List ReferencedXidTuple → Option (List ReferencedXidTuple × List Nat)
  | _, [] => some ([], [])
  | index, tuple :: rest =>
    if liveList.contains tuple.beginId then do
      invariant (0 < tuple.references)
      let (rest, indexes) ← noteSnapshotTxnEndByTxnLiveListIter liveList (index + 1) rest
      let indexes := if tuple.references - 1 = 0 then index :: indexes else indexes
      pure ({ tuple with references := tuple.references - 1 } :: rest, indexes)
    else do
      let (rest, indexes) ← noteSnapshotTxnEndByTxnLiveListIter liveList (index + 1) rest
      pure (tuple :: rest, indexes)

/-- Look every referenced transaction up in a closing snapshot's list. -/
def noteSnapshotTxnEndByTxnLiveList (refs : List ReferencedXidTuple) (liveList : List Nat) :
    Option (List ReferencedXidTuple) := do
  let (refs, indexesToDelete) ← noteSnapshotTxnEndByTxnLiveListIter liveList 0 refs
  -- The last place goes first, so that the places before it stay where they are.
  pure (indexesToDelete.reverse.foldl List.eraseIdx refs)

/-- Take a snapshot out of the list, and its references off the finished transactions. -/
def TxnManager.removeSnapshot (mgr : TxnManager) (txn : TokuTxn) : Option TxnManager := do
  let liveList := txn.liveRootTxnList.getD []
  let refXidsSize := mgr.referencedXids.length
  let referencedXids ←
    if 0 < refXidsSize ∧ 0 < liveList.length then
      if refXidsSize < liveList.length ∧ refXidsSize < 2000 then
        noteSnapshotTxnEndByTxnLiveList mgr.referencedXids liveList
      else noteSnapshotTxnEndByRefXids mgr.referencedXids liveList
    else pure mgr.referencedXids
  pure { mgr with snapshots := mgr.snapshots.erase txn.snapshot,
                  numSnapshots := mgr.numSnapshots - 1, referencedXids }

/-- Give a root transaction its identifier, and enter it among the live roots. -/
def TxnManager.registerTxn (mgr : TxnManager) (txn : TokuTxn) (readOnly : Bool) :
    TxnManager × TokuTxn :=
  let xid := mgr.lastXid + 1
  let txn := { txn with parentId64 := xid, childId64 := txnidNone }
  let mgr := { mgr with lastXid := xid }
  -- A transaction that will not write is not among the live roots.
  let mgr := if readOnly then mgr else { mgr with
    liveRootTxns := mgr.liveRootTxns ++ [xid], liveRootIds := mgr.liveRootIds ++ [xid] }
  (mgr.setOldestReferencedXid, txn)

/-- Give a root transaction what it reads from. -/
def TxnManager.startSnapshot (mgr : TxnManager) (txn : TokuTxn)
    (snapshotType : TxnSnapshotType) : TxnManager × TokuTxn :=
  if txnRecordsSnapshot snapshotType false then mgr.createSnapshot txn
  else if txnCopiesSnapshot snapshotType false then
    (mgr, { txn with liveRootTxnList := some mgr.liveRootIds })
  else (mgr, txn)

/--
Start a root transaction.

It is among the live roots before it gets its snapshot, so it is in its own list.
-/
def TxnManager.startTxn (mgr : TxnManager) (txn : TokuTxn) (snapshotType : TxnSnapshotType)
    (readOnly : Bool) : TxnManager × TokuTxn :=
  let (mgr, txn) := mgr.registerTxn txn readOnly
  mgr.startSnapshot txn snapshotType

/-- Put the tuple of a finished transaction in its place. -/
def insertReferencedXid (tuple : ReferencedXidTuple) :
    List ReferencedXidTuple → Option (List ReferencedXidTuple)
  | [] => some [tuple]
  | other :: rest =>
    if tuple.beginId < other.beginId then some (tuple :: other :: rest)
    else do
      invariant (tuple.beginId ≠ other.beginId)
      let rest ← insertReferencedXid tuple rest
      pure (other :: rest)

/-- Take a finished root out of the live roots, and remember it while snapshots hold it. -/
def TxnManager.leaveLiveRoots (mgr : TxnManager) (txn : TokuTxn) : Option TxnManager := do
  let idx := mgr.liveRootTxns.idxOf txn.parentId64
  invariant (idx < mgr.liveRootTxns.length)
  let mgr := { mgr with liveRootTxns := mgr.liveRootTxns.eraseIdx idx,
                        liveRootIds := mgr.liveRootIds.eraseIdx idx }
  if txnIsReadOnly txn then pure mgr
  else
    -- The search runs from the tail, where the youngest snapshots are.
    let holders := mgr.snapshots.reverse.takeWhile fun snapshot =>
      decide (txn.parentId64 < snapshot.snapshotTxnid64)
    let numReferences := holders.length
    if 0 < numReferences then do
      let referencedXids ← insertReferencedXid
        { beginId := txn.parentId64, endId := mgr.lastXid + 1, references := numReferences }
        mgr.referencedXids
      pure { mgr with lastXid := mgr.lastXid + 1, referencedXids }
    else pure mgr

/-- Finish a root transaction. -/
def TxnManager.finishTxn (mgr : TxnManager) (txn : TokuTxn) : Option TxnManager := do
  let mgr ← if txnRecordsSnapshot txn.snapshotType false then mgr.removeSnapshot txn else pure mgr
  if txn.declaredReadOnly then pure mgr else mgr.leaveLiveRoots txn

/-- A child transaction that gets no snapshot of its own reads from its parent's. -/
def inheritSnapshotFromParent (child parent : TokuTxn) : TokuTxn :=
  { child with snapshotTxnid64 := parent.snapshotTxnid64,
               liveRootTxnList := parent.liveRootTxnList }

/--
Give a child transaction what it reads from.

The child comes first in the result, in front of its ancestors.
-/
def TxnManager.handleSnapshotCreateForChildTxn (mgr : TxnManager) (txn parent : TokuTxn)
    (outer : List TokuTxn) : Option (TxnManager × List TokuTxn) :=
  if txnRecordsSnapshot txn.snapshotType true then
    let (mgr, txn) := mgr.createSnapshot txn
    some (mgr, txn :: parent :: outer)
  else if txnCopiesSnapshot txn.snapshotType true then do
    -- The child shares the list of its ancestors, which is overwritten for all of them.
    invariant (parent.liveRootTxnList.isSome)
    pure (mgr, (inheritSnapshotFromParent txn parent :: parent :: outer).map fun txn =>
      { txn with liveRootTxnList := some mgr.liveRootIds })
  else some (mgr, inheritSnapshotFromParent txn parent :: parent :: outer)

/-- Take from a child transaction what it read from, and leave its ancestors. -/
def TxnManager.handleSnapshotDestroyForChildTxn (mgr : TxnManager) (txn : TokuTxn)
    (outer : List TokuTxn) : Option (TxnManager × List TokuTxn) :=
  if txnRecordsSnapshot txn.snapshotType true then do
    let mgr ← mgr.removeSnapshot txn
    pure (mgr, outer)
  else if txnCopiesSnapshot txn.snapshotType true then do
    invariant (txn.liveRootTxnList.isSome)
    -- The list that is freed is the one that the ancestors share.
    pure (mgr, outer.map fun txn => { txn with liveRootTxnList := none })
  else some (mgr, outer)

end Tokuft
