import Tokuft.Indexer.UndoDo

/-! A hot indexer goes through the leaf entries of its source, with their transactions pinned. -/

namespace Tokuft

/-- A transaction as the indexer pins it. -/
structure IndexerTxn where
  state : TokutxnState
  numPin : Nat
  isReadOnly : Bool
  deriving DecidableEq, Repr

/-- The transactions that are found by their identifiers. -/
abbrev IndexerTxns := Nat → Option IndexerTxn

/-- How often a transaction is pinned. -/
def pinsOf (txns : IndexerTxns) (xid : Nat) : Nat := (txns xid).elim 0 IndexerTxn.numPin

/-- What the indexer does with pins, which the source does not record. -/
inductive PinEvent where
  | pinned (xid : Nat)
  /-- A new dictionary is about to be sent messages, with the transactions as they are. -/
  | processed (whichDb : Nat) (txns : IndexerTxns)
  | unpinned (xid : Nat)

/-- The transactions, and what was done with their pins. -/
structure PinWorld where
  txns : IndexerTxns
  events : List PinEvent

namespace PinWorld

/-- Pin a transaction that is live or preparing. -/
def txnPinLiveTxn (world : PinWorld) (xid : Nat) : Option PinWorld := do
  let txn ← world.txns xid
  invariant (txn.state.isPinnable = true)
  invariant (txn.isReadOnly = false)
  return {
    txns := Function.update world.txns xid (some { txn with numPin := txn.numPin + 1 })
    events := world.events ++ [.pinned xid] }

/-- Unpin a transaction. -/
def txnUnpinLiveTxn (world : PinWorld) (xid : Nat) : Option PinWorld := do
  let txn ← world.txns xid
  invariant (txn.state.isPinnable = true)
  invariant (0 < txn.numPin)
  return {
    txns := Function.update world.txns xid (some { txn with numPin := txn.numPin - 1 })
    events := world.events ++ [.unpinned xid] }

/-- The state of the transaction of a record, which is pinned if it can be. -/
def fillRecord (world : PinWorld) (xid : Nat) :
    Option ((TokutxnState × Option Nat) × PinWorld) :=
  match world.txns xid with
  | none => some ((.retired, none), world)
  | some txn =>
    if txn.state.isPinnable then
      (world.txnPinLiveTxn xid).map fun world => ((txn.state, some xid), world)
    else some ((txn.state, some xid), world)

/-- The states of the transactions of some records. -/
def fillRecords : List Uxr → PinWorld → Option (List (TokutxnState × Option Nat) × PinWorld)
  | [], world => some ([], world)
  | uxr :: rest, world => do
    let (filled, world) ← world.fillRecord uxr.xid
    let (more, world) ← fillRecords rest world
    some (filled :: more, world)

/-- What is known of a leaf entry, with its live transactions pinned. -/
def indexerFillProvInfo (world : PinWorld) (key : Bytes) (ule : Ule) :
    Option (UleProvInfo × PinWorld) :=
  match ule.puxrs.reverse with
  | [] => some ({ key, ule, provStates := [], provTxns := [] }, world)
  | outermost :: inner =>
    if (world.txns outermost.xid).isNone then
      -- Without the root everything is retired.
      some ({
        key, ule
        provStates := List.replicate (inner.length + 1) .retired
        provTxns := List.replicate (inner.length + 1) none }, world)
    else do
      let (filled, world) ← fillRecords (outermost :: inner) world
      some ({ key, ule, provStates := filled.map (·.1), provTxns := filled.map (·.2) }, world)

/-- Unpin the transactions that were live or preparing. -/
def releaseTxns : List (TokutxnState × Option Nat) → PinWorld → Option PinWorld
  | [], world => some world
  | (state, txn) :: rest, world =>
    if state.isPinnable then do
      let xid ← txn
      let world ← world.txnUnpinLiveTxn xid
      releaseTxns rest world
    else releaseTxns rest world

/-- A dictionary is about to be sent messages. -/
def process (world : PinWorld) (whichDb : Nat) : PinWorld :=
  { world with events := world.events ++ [.processed whichDb world.txns] }

/-- Other threads have run. -/
def interfere (world : PinWorld) (others : IndexerTxns → IndexerTxns) : PinWorld :=
  { world with txns := others world.txns }

end PinWorld

/-- Whether the checks on the current transaction pass. -/
def allowedTxn (txns : IndexerTxns) : Option Nat → Bool
  | none => true
  | some xid => (txns xid).any fun txn => txn.state.isPinnable

/-- What an indexer works with. -/
structure HotIndexer where
  senders : Nat → Int
  gen : GenerateRows
  /-- The number of new dictionaries. -/
  n : Nat
  /-- Whether a test wants an error for every row. -/
  testOnlyErrorCallback : Bool
  /-- What the caller's poll function returns after a leaf entry, or zero when it is not called. -/
  poll : Nat → Int
  /-- What other threads do to transactions in front of each dictionary of each leaf entry. -/
  others : Nat → Nat → IndexerTxns → IndexerTxns

namespace HotIndexer

variable (indexer : HotIndexer)

/-- The provisional pass, which unpins the transactions at its end. -/
def indexerUndoDoProvisional (hotdb : Nat) (info : UleProvInfo) (world : PinWorld) (s : HotState) :
    Option (Int × PinWorld × HotState) := do
  let (result, s) ← undoDoProvisionalRecords indexer.senders indexer.gen hotdb info
    (allowedTxn world.txns) s
  -- Without provisional records this is left out, but then there is nothing to unpin.
  let world ← PinWorld.releaseTxns (info.provStates.zip info.provTxns) world
  some (result, world, s)

/-- Undo and do the records of a leaf entry in a dictionary. -/
def indexerUndoDo (hotdb : Nat) (info : UleProvInfo) (world : PinWorld) (s : HotState) :
    Option (Int × PinWorld × HotState) := do
  let (result, s) ← indexerUndoDoCommitted indexer.senders indexer.gen hotdb info
    info.ule.cuxrs.reverse none s
  let (result, world, s) ← (if result = 0 then
    indexer.indexerUndoDoProvisional hotdb info world s else some (result, world, s))
  if indexer.testOnlyErrorCallback then some (einval, world, s.answered einval)
  else some (result, world, s)

/-- Undo and do a leaf entry in the dictionaries from one on, up to the first error. -/
def undoDoFrom (loopCount : Nat) (info : UleProvInfo) :
    Nat → Nat → PinWorld → HotState → Option (Int × PinWorld × HotState)
  | 0, _, world, s => some (0, world, s)
  | left + 1, whichDb, world, s => do
    let world := (world.interfere (indexer.others loopCount whichDb)).process whichDb
    let (result, world, s) ← indexer.indexerUndoDo whichDb info world s
    if result ≠ 0 then some (result, world, s)
    else undoDoFrom loopCount info left (whichDb + 1) world s

/-- One step: the transactions of a leaf entry are pinned, and every dictionary gets its rows. -/
def buildStep (loopCount : Nat) (key : Bytes) (ule : Ule) (world : PinWorld) (s : HotState) :
    Option (Int × UleProvInfo × PinWorld × HotState) := do
  let (info, world) ← world.indexerFillProvInfo key ule
  let (result, world, s) ← indexer.undoDoFrom loopCount info indexer.n 0 world s
  some (result, info, world, s)

/-- How building an index ended. -/
structure Built where
  result : Int
  /-- Whether a checkpoint was made and the index was counted as built. -/
  reported : Bool
  state : HotState
  /-- What was known of each leaf entry, which the source does not record. -/
  infos : List UleProvInfo

/-- The end of building an index. -/
def finish (result : Int) (s : HotState) (infos : List UleProvInfo) : Built where
  result := result
  reported := result == 0
  state := s
  infos := infos

end HotIndexer

end Tokuft
