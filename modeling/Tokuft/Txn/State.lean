import Tokuft.Basic

/-! What garbage collection knows about transactions: a copy of the manager's three lists. -/

namespace Tokuft

/-- The child manager of a root transaction counts up and skips the root's own identifier. -/
def startChildTxn (rootXid lastXid : Nat) : Nat :=
  if lastXid + 1 = rootXid then lastXid + 2 else lastXid + 1

/-- A finished root transaction that some recorded snapshot still counts as live. -/
structure ReferencedXidTuple where
  beginId : Nat
  endId : Nat
  references : Nat
  deriving DecidableEq, Repr

/-- A copy of the manager's snapshots, referenced transactions, and live roots, each in order. -/
structure TxnManagerState where
  /-- The identifiers of the recorded snapshots, oldest first. -/
  snapshotXids : List Nat
  /-- The referenced transactions, oldest first. -/
  referencedXids : List ReferencedXidTuple
  /-- The identifiers of the live root transactions, oldest first. -/
  liveRootTxns : List Nat
  deriving DecidableEq, Repr

/-- Whether a transaction is in a list of live roots. -/
def isTxnInLiveRootTxnList (liveRootTxns : List Nat) (xid : Nat) : Bool := liveRootTxns.contains xid

/-- The youngest identifier of an ordered list below a bound, or none. -/
def youngestBelow (xids : List Nat) (bound : Nat) : Option Nat :=
  (xids.filter (· < bound)).getLast?

/-- The tuple of a referenced transaction. -/
def findTupleByXid (referencedXids : List ReferencedXidTuple) (xid : Nat) :
    Option ReferencedXidTuple :=
  referencedXids.find? (·.beginId == xid)

/-- The youngest recorded snapshot that counts a finished transaction as live, or none. -/
def getYoungestLiveListTxnidFor (xc : Nat) (snapshotXids : List Nat)
    (referencedXids : List ReferencedXidTuple) : Nat :=
  match findTupleByXid referencedXids xc with
  | none => txnidNone
  | some tuple =>
    -- A snapshot that started after the transaction ended does not count it as live.
    match youngestBelow snapshotXids tuple.endId with
    | none => txnidNone
    | some live => if tuple.beginId < live then live else txnidNone

/-- The recorded snapshot next older than a transaction, or none. -/
def getNextOlderTxnid (xc : Nat) (snapshotXids : List Nat) : Nat :=
  (youngestBelow snapshotXids xc).getD txnidNone

/-- Whether a snapshot may read what a transaction committed. -/
def xidReadsCommittedXid (tl1 xc : Nat) (snapshotXids : List Nat)
    (referencedXids : List ReferencedXidTuple) : Bool :=
  -- A snapshot reads nothing newer than itself.
  if tl1 < xc then false
  else
    let x := getYoungestLiveListTxnidFor xc snapshotXids referencedXids
    if x = txnidNone then true else x < tl1

end Tokuft
