import Tokuft.Rollback.Node

/-! Saving rollback entries, handing a child's log to its parent, and applying a log. -/

namespace Tokuft

variable {Item : Type}

/-- Entries are applied either to finish a commit or to undo an abort. -/
inductive ApplyFunc where
  | commit
  | abort
  deriving DecidableEq, Repr

namespace RollbackFile

/-- Pin the current node of a transaction, or get one when there is none. -/
def getAndPinForNewEntry (file : RollbackFile Item) (txnid : TxnidPair) (info : RollInfo) :
    Option (RollbackLogNode Item × RollbackFile Item × RollInfo) := do
  let (log, file, info) ← match info.currentRollback with
    | some current => do
      let log ← file.getAndPinRollbackLog current
      rollbackVerifyContents log txnid info.numRollbackNodes
      some (log, file, info)
    | none => do
      -- Only the first node of a log may come from the cache.
      let (taken, file) ←
        if info.spilledRollbackTail.isSome then some (none, file) else file.getRollbackLogNode
      match taken with
      | some log =>
        let (log, info) := rollbackInitializeForTxn log txnid info info.spilledRollbackTail
        some (log, file.rollbackLogUnpin log, { info with currentRollback := some log.blocknum })
      | none => file.rollbackLogCreate txnid info info.spilledRollbackTail
  invariant (log.txnid = txnid)
  return (log, file, info)

end RollbackFile

/-- Make the current node part of the spilled chain once it holds too many bytes. -/
def maybeSpillRollbacks (sizes : RollbackSizes Item) (info : RollInfo)
    (log : RollbackLogNode Item) : Option RollInfo :=
  if sizes.writeBlockSize < log.rollentryResidentBytecount then do
    invariant (some log.blocknum = info.currentRollback)
    return { info with
      spilledRollbackHead :=
        if info.spilledRollbackTail.isSome then info.spilledRollbackHead else info.currentRollback
      spilledRollbackTail := info.currentRollback
      currentRollback := none }
  else some info

namespace RollbackFile

/-- Save an entry as the newest one of a transaction's log. -/
def saveRollback (sizes : RollbackSizes Item) (file : RollbackFile Item) (txnid : TxnidPair)
    (info : RollInfo) (entry : RollEntry Item) : Option (RollbackFile Item × RollInfo) := do
  let (log, file, info) ← file.getAndPinForNewEntry txnid info
  let log := { log with
    entries := entry :: log.entries
    rollentryResidentBytecount := log.rollentryResidentBytecount + entry.rollbackFsize sizes }
  let info ← maybeSpillRollbacks sizes info log
  return (file.rollbackLogUnpin log, info)

/-- Include the spilled nodes of a child in its parent's log by one entry. -/
def includeSpilled (sizes : RollbackSizes Item) (file : RollbackFile Item) (child : TxnidPair)
    (childInfo : RollInfo) (parent : TxnidPair) (parentInfo : RollInfo) :
    Option (RollbackFile Item × RollInfo × RollInfo) :=
  if childInfo.spilledRollbackTail.isSome then do
    -- The node in progress is not one of the spilled ones.
    let numNodes :=
      if childInfo.currentRollback.isSome then childInfo.numRollbackNodes - 1
      else childInfo.numRollbackNodes
    let (file, parentInfo) ← file.saveRollback sizes parent parentInfo
      (.rollinclude child numNodes childInfo.spilledRollbackHead childInfo.spilledRollbackTail)
    return (file, { childInfo with spilledRollbackHead := none, spilledRollbackTail := none },
      parentInfo)
  else some (file, childInfo, parentInfo)

/-- Move the entries of a child's current node to the front of its parent's current node. -/
def promoteCurrent (sizes : RollbackSizes Item) (file : RollbackFile Item) (child : TxnidPair)
    (childInfo : RollInfo) (parent : TxnidPair) (parentInfo : RollInfo) :
    Option (RollbackFile Item × RollInfo × RollInfo) :=
  match childInfo.currentRollback with
  | none => some (file, childInfo, parentInfo)
  | some current => do
    let (parentLog, file, parentInfo) ← file.getAndPinForNewEntry parent parentInfo
    let childLog ← file.getAndPinRollbackLog current
    rollbackVerifyContents childLog child childInfo.numRollbackNodes
    let parentLog := { parentLog with
      entries := childLog.entries ++ parentLog.entries
      rollentryResidentBytecount :=
        if childLog.entries.isEmpty then parentLog.rollentryResidentBytecount
        else parentLog.rollentryResidentBytecount + childLog.rollentryResidentBytecount }
    let file ← file.giveOrRemove childLog
    let parentInfo ← maybeSpillRollbacks sizes parentInfo parentLog
    return (file.rollbackLogUnpin parentLog, { childInfo with currentRollback := none }, parentInfo)

/-- Commit a child by handing its whole log to its parent. -/
def rollbackCommitChild (sizes : RollbackSizes Item) (file : RollbackFile Item) (child : TxnidPair)
    (childInfo : RollInfo) (parent : TxnidPair) (parentInfo : RollInfo) :
    Option (RollbackFile Item × RollInfo × RollInfo) := do
  let (file, childInfo, parentInfo) ←
    file.includeSpilled sizes child childInfo parent parentInfo
  file.promoteCurrent sizes child childInfo parent parentInfo

/-- Apply entries newest first, handing each included log to a function that applies it. -/
def applyEntries (func : ApplyFunc)
    (applyIncluded : RollbackFile Item → TxnidPair → Nat → Option Blocknum → Option Blocknum →
      Option (RollbackFile Item × List (ApplyFunc × Item))) :
    RollbackFile Item → List (RollEntry Item) →
      Option (RollbackFile Item × List (ApplyFunc × Item))
  | file, [] => some (file, [])
  | file, .item item :: older => do
    let (file, applied) ← applyEntries func applyIncluded file older
    return (file, (func, item) :: applied)
  | file, .rollinclude xid numNodes spilledHead spilledTail :: older => do
    let (file, included) ← applyIncluded file xid numNodes spilledHead spilledTail
    let (file, applied) ← applyEntries func applyIncluded file older
    return (file, included ++ applied)

/-- Note whether the node reached is the head of the spilled chain, which is its first node. -/
def noteHead (spilledHead : Option Blocknum) (foundHead : Bool) (blocknum : Blocknum)
    (log : RollbackLogNode Item) : Option Bool := do
  let foundHead ← if some blocknum = spilledHead then do
      invariant (foundHead = false)
      invariant (log.sequence = 0)
      some true
    else some foundHead
  -- Nothing comes before the head.
  invariant (foundHead = true → log.previous = none)
  return foundHead

/-- Apply and remove the nodes of an included log, walking back to its head. -/
def applyRollincludeFrom (func : ApplyFunc) : Nat → TxnidPair → Option Blocknum → Bool →
    RollbackFile Item → Nat → Option Blocknum → Option (RollbackFile Item × List (ApplyFunc × Item))
  | _, _, _, _, file, _, none => some (file, [])
  -- Every turn removes a node, so a bound on the nodes is enough fuel.
  | 0, _, _, _, _, _, some _ => none
  | fuel + 1, xid, spilledHead, foundHead, file, lastSequence, some nextLog => do
    let log ← file.getAndPinRollbackLog nextLog
    rollbackVerifyContents log xid lastSequence
    let (file, newer) ← applyEntries func
      (fun file xid numNodes spilledHead spilledTail => do
        invariant (spilledTail ≠ none)
        applyRollincludeFrom func fuel xid spilledHead false file numNodes spilledTail)
      file log.entries
    let foundHead ← noteHead spilledHead foundHead nextLog log
    let file ← file.rollbackLogUnpinAndRemove log
    let (file, older) ← applyRollincludeFrom func fuel xid
      (if foundHead then log.previous else spilledHead) foundHead file log.sequence log.previous
    return (file, newer ++ older)

/-- Apply the log that an entry includes. -/
def applyRollinclude (func : ApplyFunc) (fuel : Nat) (file : RollbackFile Item) (xid : TxnidPair)
    (numNodes : Nat) (spilledHead spilledTail : Option Blocknum) :
    Option (RollbackFile Item × List (ApplyFunc × Item)) := do
  invariant (spilledTail ≠ none)
  applyRollincludeFrom func fuel xid spilledHead false file numNodes spilledTail

/-- Apply and let go the nodes of a transaction's own log, the current node first. -/
def applyTxnFrom (func : ApplyFunc) (txnid : TxnidPair) : Nat → Bool → Bool → RollInfo →
    RollbackFile Item → Nat → Option Blocknum →
      Option (RollbackFile Item × RollInfo × List (ApplyFunc × Item))
  | _, _, _, info, file, _, none => some (file, info, [])
  | 0, _, _, _, _, _, some _ => none
  | fuel + 1, isCurrent, foundHead, info, file, lastSequence, some nextLog => do
    let log ← file.getAndPinRollbackLog nextLog
    rollbackVerifyContents log txnid lastSequence
    let (file, newer) ← applyEntries func (applyRollinclude func fuel) file log.entries
    let foundHead ← noteHead info.spilledRollbackHead foundHead nextLog log
    -- The transaction forgets the node, so that closing it does not free the node again.
    let info := if isCurrent then { info with currentRollback := none }
      else { info with spilledRollbackTail := log.previous }
    let info := if foundHead then { info with spilledRollbackHead := log.previous } else info
    -- Only the oldest node is offered to the cache.
    let file ← if log.previous = none then file.giveOrRemove log
      else file.rollbackLogUnpinAndRemove log
    let (file, info, older) ←
      applyTxnFrom func txnid fuel false foundHead info file log.sequence log.previous
    return (file, info, newer ++ older)

/-- Apply the whole log of a transaction, newest entry first. -/
def applyTxn (func : ApplyFunc) (file : RollbackFile Item) (txnid : TxnidPair) (info : RollInfo) :
    Option (RollbackFile Item × RollInfo × List (ApplyFunc × Item)) :=
  -- All nodes have smaller numbers than the first number never used.
  applyTxnFrom func txnid file.smallestNeverUsed info.currentRollback.isSome false info file
    info.numRollbackNodes (info.currentRollback.or info.spilledRollbackTail)

end RollbackFile

end Tokuft
