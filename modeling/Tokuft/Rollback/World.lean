import Tokuft.Rollback.Log

/-! All transactions with their rollback logs, and the order in which entries were saved. -/

namespace Tokuft

variable {Item : Type}

/-- What a client of the rollback logs asks for. -/
inductive RollEvent (Item : Type) where
  | begin (txnid : TxnidPair) (parent : Option TxnidPair)
  | save (txnid : TxnidPair) (item : Item)
  | commit (txnid : TxnidPair)
  | abort (txnid : TxnidPair)
  deriving DecidableEq, Repr

/-- A transaction knows its parent and its own rollback log. -/
structure RollTxn where
  parent : Option TxnidPair
  rollInfo : RollInfo
  deriving DecidableEq, Repr

/-- The live transactions over the file of their logs. -/
structure RollWorld (Item : Type) where
  file : RollbackFile Item
  txns : TxnidPair → Option RollTxn

namespace RollWorld

/-- At the start there is no transaction and no log. -/
def start (smallestNeverUsed capacity : Nat) : RollWorld Item where
  file := RollbackFile.start smallestNeverUsed capacity
  txns := fun _ => none

/-- A transaction may close only when nothing of its log is left with it. -/
def completeTxn (world : RollWorld Item) (txnid : TxnidPair) (info : RollInfo) :
    Option (RollWorld Item) := do
  invariant (info.spilledRollbackHead = none)
  invariant (info.spilledRollbackTail = none)
  invariant (info.currentRollback = none)
  return { world with txns := Function.update world.txns txnid none }

/-- Apply the log of a transaction and close it. -/
def applyAndComplete (func : ApplyFunc) (world : RollWorld Item) (txnid : TxnidPair)
    (txn : RollTxn) : Option (RollWorld Item × List (ApplyFunc × Item)) := do
  let (file, info, applied) ← world.file.applyTxn func txnid txn.rollInfo
  let world ← { world with file := file }.completeTxn txnid info
  return (world, applied)

/-- Answer one request, with the entries that are applied for it. -/
def step (sizes : RollbackSizes Item) (world : RollWorld Item) :
    RollEvent Item → Option (RollWorld Item × List (ApplyFunc × Item))
  | .begin txnid parent =>
    some ({ world with
      txns := Function.update world.txns txnid (some { parent := parent, rollInfo := .none }) }, [])
  | .save txnid item => do
    let txn ← world.txns txnid
    let (file, info) ← world.file.saveRollback sizes txnid txn.rollInfo (.item item)
    return ({ file := file
              txns := Function.update world.txns txnid (some { txn with rollInfo := info }) }, [])
  | .commit txnid => do
    let txn ← world.txns txnid
    match txn.parent with
    | none => world.applyAndComplete .commit txnid txn
    | some parent => do
      let parentTxn ← world.txns parent
      let (file, info, parentInfo) ←
        world.file.rollbackCommitChild sizes txnid txn.rollInfo parent parentTxn.rollInfo
      let world : RollWorld Item := {
        file := file
        txns := Function.update world.txns parent (some { parentTxn with rollInfo := parentInfo }) }
      let world ← world.completeTxn txnid info
      return (world, [])
  | .abort txnid => do
    let txn ← world.txns txnid
    world.applyAndComplete .abort txnid txn

/-- Answer requests one after the other, with what was applied for each. -/
def run (sizes : RollbackSizes Item) : RollWorld Item → List (RollEvent Item) →
    Option (RollWorld Item × List (List (ApplyFunc × Item)))
  | world, [] => some (world, [])
  | world, event :: events => do
    let (world, applied) ← world.step sizes event
    let (world, later) ← run sizes world events
    return (world, applied :: later)

end RollWorld

/-- An entry as it was saved, with its place in the order of all saves. -/
structure SavedEntry (Item : Type) where
  place : Nat
  item : Item
  deriving DecidableEq, Repr

/-- A live transaction with the entries it answers for, oldest first. -/
structure SavedTxn (Item : Type) where
  parent : Option TxnidPair
  saved : List (SavedEntry Item)
  deriving DecidableEq, Repr

/-- What rollback logs are for: the entries each live transaction answers for. -/
structure SavedWorld (Item : Type) where
  live : TxnidPair → Option (SavedTxn Item)
  saves : Nat

namespace SavedWorld

/-- At the start nothing is live and nothing was saved. -/
def start : SavedWorld Item where
  live := fun _ => none
  saves := 0

/-- Close a transaction and apply what it answers for, newest first. -/
def finish (world : SavedWorld Item) (func : ApplyFunc) (txnid : TxnidPair)
    (txn : SavedTxn Item) : SavedWorld Item × List (ApplyFunc × SavedEntry Item) :=
  ({ world with live := Function.update world.live txnid none },
    txn.saved.reverse.map (func, ·))

/-- Answer one request, which needs its transaction and that one's parent to be live. -/
def step (world : SavedWorld Item) :
    RollEvent Item → Option (SavedWorld Item × List (ApplyFunc × SavedEntry Item))
  | .begin txnid parent => do
    invariant (world.live txnid = none)
    invariant (parent.all (fun parent => (world.live parent).isSome) = true)
    return ({ world with
      live := Function.update world.live txnid (some { parent := parent, saved := [] }) }, [])
  | .save txnid item => do
    let txn ← world.live txnid
    let entry := { place := world.saves, item := item }
    return ({ live := Function.update world.live txnid
                (some { txn with saved := txn.saved ++ [entry] })
              saves := world.saves + 1 }, [])
  | .commit txnid => do
    let txn ← world.live txnid
    match txn.parent with
    | none => return world.finish .commit txnid txn
    | some parent => do
      -- The parent answers for the entries of a committed child.
      let parentTxn ← world.live parent
      let live := Function.update world.live parent
        (some { parentTxn with saved := parentTxn.saved ++ txn.saved })
      return ({ world with live := Function.update live txnid none }, [])
  | .abort txnid => do
    let txn ← world.live txnid
    return world.finish .abort txnid txn

/-- Answer requests one after the other, with what is to be applied for each. -/
def run : SavedWorld Item → List (RollEvent Item) →
    Option (SavedWorld Item × List (List (ApplyFunc × SavedEntry Item)))
  | world, [] => some (world, [])
  | world, event :: events => do
    let (world, applied) ← world.step event
    let (world, later) ← run world events
    return (world, applied :: later)

end SavedWorld

end Tokuft
