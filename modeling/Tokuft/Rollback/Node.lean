import Tokuft.Basic
import Tokuft.Library.RingBuffer

/-! Rollback log nodes, the file that stores them, and the cache of empty nodes. -/

namespace Tokuft

variable {Item : Type}

/-- A transaction is named by its root and, below the root, by its own identifier. -/
structure TxnidPair where
  parentId64 : Nat
  childId64 : Nat
  deriving DecidableEq, Repr

/-- The name that belongs to no transaction. -/
def txnidPairNone : TxnidPair := { parentId64 := txnidNone, childId64 := txnidNone }

/-- The number of a block, with an absent number in the place of `ROLLBACK_NONE`. -/
abbrev Blocknum := Nat

/-- A rollback entry undoes or finishes one operation, or includes the log of a finished child. -/
inductive RollEntry (Item : Type) where
  | item (item : Item)
  | rollinclude (xid : TxnidPair) (numNodes : Nat) (spilledHead spilledTail : Option Blocknum)
  deriving DecidableEq, Repr

/-- One node of a rollback log, with its entries newest first. -/
structure RollbackLogNode (Item : Type) where
  txnid : TxnidPair
  sequence : Nat
  blocknum : Blocknum
  previous : Option Blocknum
  entries : List (RollEntry Item)
  rollentryResidentBytecount : Nat
  deriving DecidableEq, Repr

/-- What a transaction knows of its own rollback log. -/
structure RollInfo where
  numRollbackNodes : Nat
  spilledRollbackHead : Option Blocknum
  spilledRollbackTail : Option Blocknum
  currentRollback : Option Blocknum
  deriving DecidableEq, Repr

/-- A transaction starts with no rollback log. -/
def RollInfo.none : RollInfo where
  numRollbackNodes := 0
  spilledRollbackHead := Option.none
  spilledRollbackTail := Option.none
  currentRollback := Option.none

/-- The file of all rollback logs, its free block numbers, and the cache of empty nodes. -/
structure RollbackFile (Item : Type) where
  nodes : Blocknum → Option (RollbackLogNode Item)
  freelist : List Blocknum
  smallestNeverUsed : Blocknum
  rollbackCache : RingBuffer Blocknum
  /-- A ghost mark: the node was created or taken from the cache and is not yet let go. -/
  inUse : Blocknum → Bool

/-- The sizes that decide when the current node of a log is full. -/
structure RollbackSizes (Item : Type) where
  itemSize : Item → Nat
  writeBlockSize : Nat

/-- The bytes an entry takes in a log, where an including entry has fields of fixed size. -/
def RollEntry.rollbackFsize (sizes : RollbackSizes Item) : RollEntry Item → Nat
  | .item content => sizes.itemSize content
  | .rollinclude .. => 1 + 4 + 16 + 8 + 8 + 8

/-- An empty node belongs to no transaction. -/
def rollbackEmptyLogInit (blocknum : Blocknum) : RollbackLogNode Item where
  txnid := txnidPairNone
  sequence := 0
  blocknum := blocknum
  previous := none
  entries := []
  rollentryResidentBytecount := 0

/-- A node is unused as long as no transaction owns it. -/
def RollbackLogNode.isUnused (log : RollbackLogNode Item) : Prop :=
  log.txnid.parentId64 = txnidNone

instance (log : RollbackLogNode Item) : Decidable log.isUnused :=
  inferInstanceAs (Decidable (log.txnid.parentId64 = txnidNone))

/-- Make a node the next one in the log of a transaction. -/
def rollbackInitializeForTxn (log : RollbackLogNode Item) (txnid : TxnidPair) (info : RollInfo)
    (previous : Option Blocknum) : RollbackLogNode Item × RollInfo :=
  ({ txnid := txnid
     sequence := info.numRollbackNodes
     blocknum := log.blocknum
     previous := previous
     entries := []
     rollentryResidentBytecount := 0 },
   { info with numRollbackNodes := info.numRollbackNodes + 1 })

/-- The transaction and the sequence number of a node have to be the expected ones. -/
def rollbackVerifyContents (log : RollbackLogNode Item) (txnid : TxnidPair) (lastSequence : Nat) :
    Option Unit := do
  invariant (log.txnid = txnid)
  -- The source passes the number before the last sequence.
  invariant (log.sequence + 1 = lastSequence)

namespace RollbackFile

/-- A file with no nodes, whose cache has room for a number of empty ones. -/
def start (smallestNeverUsed capacity : Nat) : RollbackFile Item where
  nodes := fun _ => none
  freelist := []
  smallestNeverUsed := smallestNeverUsed
  rollbackCache := RingBuffer.empty capacity
  inUse := fun _ => false

/-- Pin a node, which must still be in use and stored under its own block number. -/
def getAndPinRollbackLog (file : RollbackFile Item) (blocknum : Blocknum) :
    Option (RollbackLogNode Item) := do
  invariant (file.inUse blocknum = true)
  let log ← file.nodes blocknum
  invariant (log.blocknum = blocknum)
  return log

/-- Unpin a node, which leaves what is written in it in the file. -/
def rollbackLogUnpin (file : RollbackFile Item) (log : RollbackLogNode Item) : RollbackFile Item :=
  { file with nodes := Function.update file.nodes log.blocknum (some log) }

/-- Take the number of a freed block, or else one that was never used. -/
def allocateBlocknum (file : RollbackFile Item) : Blocknum × RollbackFile Item :=
  match file.freelist with
  | [] => (file.smallestNeverUsed, { file with smallestNeverUsed := file.smallestNeverUsed + 1 })
  | blocknum :: rest => (blocknum, { file with freelist := rest })

/-- Mark a node as used, which it must not be already. -/
def beginUse (file : RollbackFile Item) (blocknum : Blocknum) : Option (RollbackFile Item) := do
  invariant (file.inUse blocknum = false)
  return { file with inUse := Function.update file.inUse blocknum true }

/-- Mark a node as let go, which happens at most once for every use. -/
def endUse (file : RollbackFile Item) (blocknum : Blocknum) : Option (RollbackFile Item) := do
  invariant (file.inUse blocknum = true)
  return { file with inUse := Function.update file.inUse blocknum false }

/-- Remove a node from the file and free its block number. -/
def rollbackLogUnpinAndRemove (file : RollbackFile Item) (log : RollbackLogNode Item) :
    Option (RollbackFile Item) := do
  let file ← file.endUse log.blocknum
  return { file with
    nodes := Function.update file.nodes log.blocknum none
    freelist := log.blocknum :: file.freelist }

/-- Give a node to the cache of empty nodes, which refuses it when it is full. -/
def giveRollbackLogNode (file : RollbackFile Item) (log : RollbackLogNode Item) :
    Option (Bool × RollbackFile Item) :=
  match file.rollbackCache.push log.blocknum with
  | none => some (false, file)
  | some cache => do
    let file ← file.endUse log.blocknum
    let file := { file with rollbackCache := cache }
    return (true, file.rollbackLogUnpin (rollbackEmptyLogInit log.blocknum))

/-- Give a node to the cache, or remove it when the cache is full. -/
def giveOrRemove (file : RollbackFile Item) (log : RollbackLogNode Item) :
    Option (RollbackFile Item) := do
  let (giveBack, file) ← file.giveRollbackLogNode log
  if giveBack then return file else file.rollbackLogUnpinAndRemove log

/-- Take an unused node out of the cache, when it has one. -/
def getRollbackLogNode (file : RollbackFile Item) :
    Option (Option (RollbackLogNode Item) × RollbackFile Item) :=
  match file.rollbackCache.pop with
  | none => some (none, file)
  | some (blocknum, cache) => do
    let file ← { file with rollbackCache := cache }.beginUse blocknum
    let log ← file.getAndPinRollbackLog blocknum
    invariant log.isUnused
    return (some log, file)

/-- Create a node behind the others of a log and make it the current one. -/
def rollbackLogCreate (file : RollbackFile Item) (txnid : TxnidPair) (info : RollInfo)
    (previous : Option Blocknum) :
    Option (RollbackLogNode Item × RollbackFile Item × RollInfo) := do
  let (blocknum, file) := file.allocateBlocknum
  let (log, info) := rollbackInitializeForTxn (rollbackEmptyLogInit blocknum) txnid info previous
  let file ← file.beginUse blocknum
  return (log, file.rollbackLogUnpin log, { info with currentRollback := some blocknum })

end RollbackFile

end Tokuft
