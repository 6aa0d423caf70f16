import Tokuft.Locktree.ConcurrentTree

/-! The lock tree of a dictionary: acquiring, releasing and escalating row locks. -/

namespace Tokuft

variable {Key : Type} [LinearOrder Key]

/-- Note a transaction in a set of conflicting ones. -/
def txnidSetAdd (conflicts : List Nat) (txnid : Nat) : List Nat := conflicts.insert txnid

/-- Copy out the locks that overlap a locked range. -/
def iterateAndGetOverlappingRowLocks (lkr : LockedKeyrange Key) :
    LockedKeyrange Key × List (RowLock Key) :=
  lkr.iterate (fun found lock => (found ++ [lock], true)) []

omit [LinearOrder Key] in
/-- Note the transactions other than a given one that hold locks of a list. -/
def determineConflictingTxnids (rowLocks : List (RowLock Key)) (txnid : Nat)
    (conflicts : List Nat) : Bool × List Nat :=
  rowLocks.foldl (fun (exist, conflicts) lock =>
    if lock.txnid ≠ txnid then (true, txnidSetAdd conflicts lock.txnid) else (exist, conflicts))
    (false, conflicts)

/-- Take the overlapping locks of a transaction out, extending a range by each of them. -/
def consolidate (txnid : Nat) : LockedKeyrange Key → Keyrange Key → List (RowLock Key) →
    Option (LockedKeyrange Key × Keyrange Key)
  | lkr, range, [] => some (lkr, range)
  | lkr, range, lock :: locks => do
    invariant (lock.txnid = txnid)
    let lkr ← lkr.remove lock.range
    consolidate txnid lkr (range.extend lock.range) locks

/-- Acquire a range together with what its transaction already holds of it, or find conflicts. -/
def acquireLockConsolidated (lkr : LockedKeyrange Key) (txnid : Nat) (range : Keyrange Key)
    (conflicts : List Nat) : Option (LockedKeyrange Key × Bool × List Nat) := do
  let lkr ← lkr.acquire range
  let (lkr, overlapping) := iterateAndGetOverlappingRowLocks lkr
  let (exist, conflicts) := determineConflictingTxnids overlapping txnid conflicts
  if exist then return (lkr, false, conflicts)
  else
    let (lkr, range) ← consolidate txnid lkr range overlapping
    let lkr ← lkr.insert { range := range, txnid := txnid }
    return (lkr, true, conflicts)

/-- What iterating over a range buffer gives of the ranges that were appended to it. -/
class RangeBuffers (Key : Type) where
  iterate : List (Keyrange Key) → Option (List (Keyrange Key))

/-- Unless it is said how keys are stored, ranges come back as they were appended. -/
instance (priority := low) RangeBuffers.lossless : RangeBuffers Key := ⟨some⟩

/-- Row locks live in the tree, or in a buffer as long as one transaction holds all of them. -/
structure Locktree (Key : Type) where
  rangetree : Treenode Key
  stoTxnid : Option Nat
  stoBuffer : List (Keyrange Key)
  stoScore : Nat

/-- A buffer of more ranges than this ends the single transaction optimisation. -/
def stoBufferMaxSize : Nat := 50 * 1024

/-- The optimisation is tried again from this score on. -/
def stoScoreThreshold : Nat := 100

/-- Escalation takes this many locks out of the tree at a time. -/
def numRowLocksPerBatch : Nat := 128

namespace Locktree

omit [LinearOrder Key] in
/-- A new lock tree is empty, and ready to try the optimisation. -/
def create : Locktree Key where
  rangetree := .nil
  stoTxnid := none
  stoBuffer := []
  stoScore := stoScoreThreshold

/-- Begin the optimisation for a transaction. -/
def stoBegin (lt : Locktree Key) (txnid : Nat) : Option (Locktree Key) := do
  invariant (lt.stoTxnid.isNone = true)
  invariant (lt.stoBuffer.isEmpty = true)
  return { lt with stoTxnid := some txnid }

/-- End the optimisation and forget its ranges. -/
def stoEnd (lt : Locktree Key) : Locktree Key := { lt with stoTxnid := none, stoBuffer := [] }

/-- Collect ranges of one transaction in a tree, consolidating those that overlap. -/
def collectRanges [BoundedOrder Key] (txnid : Nat) : Treenode Key → List (Keyrange Key) →
    Option (Treenode Key)
  | tree, [] => some tree
  | tree, range :: ranges => do
    let (lkr, granted, _) ←
      acquireLockConsolidated (LockedKeyrange.prepare tree) txnid range []
    invariant (granted = true)
    collectRanges txnid lkr.release ranges

/-- Insert locks one after the other. -/
def insertLocks : LockedKeyrange Key → List (RowLock Key) → Option (LockedKeyrange Key)
  | lkr, [] => some lkr
  | lkr, lock :: locks => do
    let lkr ← lkr.insert lock
    insertLocks lkr locks

/-- Move the buffered ranges into the empty tree whose root is locked. -/
def stoMigrateBufferRangesToTree [BoundedOrder Key] [RangeBuffers Key] (lt : Locktree Key)
    (lkr : LockedKeyrange Key) : Option (LockedKeyrange Key) := do
  invariant (lt.stoBuffer.isEmpty = false)
  invariant (lt.rangetree.size = 0)
  let txnid ← lt.stoTxnid
  let ranges ← RangeBuffers.iterate lt.stoBuffer
  let tree ← collectRanges txnid .nil ranges
  let (_, locks) := iterateAndGetOverlappingRowLocks (LockedKeyrange.prepare tree)
  let lkr ← insertLocks lkr locks
  invariant (lkr.release.size ≠ 0)
  return lkr

/-- End the optimisation while its transaction still holds locks. -/
def stoEndEarly [BoundedOrder Key] [RangeBuffers Key] (lt : Locktree Key)
    (lkr : LockedKeyrange Key) : Option (Locktree Key × LockedKeyrange Key) := do
  let lkr ← lt.stoMigrateBufferRangesToTree lkr
  return ({ lt.stoEnd with stoScore := 0 }, lkr)

/-- Try to hold a range in the buffer, ending or beginning the optimisation where needed. -/
def stoTryAcquire [BoundedOrder Key] [RangeBuffers Key] (lt : Locktree Key)
    (lkr : LockedKeyrange Key) (txnid : Nat) (range : Keyrange Key) :
    Option (Locktree Key × LockedKeyrange Key × Bool) := do
  let (lt, lkr) ←
    if lt.rangetree.size = 0 ∧ lt.stoBuffer.isEmpty ∧ stoScoreThreshold ≤ lt.stoScore then
      (lt.stoBegin txnid).map fun lt => (lt, lkr)
    else if lt.stoTxnid.isSome ∧
        (lt.stoTxnid ≠ some txnid ∨ stoBufferMaxSize < lt.stoBuffer.length) then
      lt.stoEndEarly lkr
    else some (lt, lkr)
  match lt.stoTxnid with
  | some stoTxnid => do
    invariant (stoTxnid = txnid)
    return ({ lt with stoBuffer := lt.stoBuffer ++ [range] }, lkr, true)
  | none => do
    invariant (lt.stoBuffer.isEmpty = true)
    return (lt, lkr, false)

/-- What comes of a request for a range. -/
inductive AcquireResult where
  | granted
  | notGranted (conflicts : List Nat)
  /-- The manager has no memory for another lock, even after it escalated its lock trees. -/
  | outOfLocks
  deriving DecidableEq, Repr

/-- Acquire a range, in the buffer if that is possible and otherwise in the tree. -/
def acquireLock [BoundedOrder Key] [RangeBuffers Key] (lt : Locktree Key) (txnid : Nat)
    (range : Keyrange Key) : Option (Locktree Key × AcquireResult) := do
  let (lt, lkr, acquired) ← lt.stoTryAcquire (LockedKeyrange.prepare lt.rangetree) txnid range
  if acquired then return ({ lt with rangetree := lkr.release }, .granted)
  else
    -- The root is still the one that was locked at first.
    let (lkr, granted, conflicts) ← acquireLockConsolidated lkr txnid range []
    return ({ lt with rangetree := lkr.release },
      if granted then .granted else .notGranted conflicts)

/-- Remove the locks of a transaction from a list of overlapping ones. -/
def removeLocksOf (txnid : Nat) : LockedKeyrange Key → List (RowLock Key) →
    Option (LockedKeyrange Key)
  | lkr, [] => some lkr
  | lkr, lock :: locks => do
    -- If this is not our lock, that is fine, and it stays.
    let lkr ← if lock.txnid = txnid then lkr.remove lock.range else some lkr
    removeLocksOf txnid lkr locks

/-- Remove every lock of a transaction that overlaps a range. -/
def removeOverlappingLocksForTxnid [BoundedOrder Key] (tree : Treenode Key) (txnid : Nat)
    (range : Keyrange Key) : Option (Treenode Key) := do
  let lkr ← (LockedKeyrange.prepare tree).acquire range
  let (lkr, overlapping) := iterateAndGetOverlappingRowLocks lkr
  let lkr ← removeLocksOf txnid lkr overlapping
  return lkr.release

/-- Remove every lock of a transaction that overlaps one of some ranges. -/
def removeOverlappingLocks [BoundedOrder Key] (txnid : Nat) : Treenode Key →
    List (Keyrange Key) → Option (Treenode Key)
  | tree, [] => some tree
  | tree, range :: ranges => do
    let tree ← removeOverlappingLocksForTxnid tree txnid range
    removeOverlappingLocks txnid tree ranges

/-- Release what a transaction holds, by forgetting the buffer or range by range. -/
def releaseLocks [BoundedOrder Key] [RangeBuffers Key] (lt : Locktree Key) (txnid : Nat)
    (ranges : List (Keyrange Key)) : Option (Locktree Key) :=
  match lt.stoTxnid with
  | some stoTxnid => do
    invariant (stoTxnid = txnid)
    invariant (lt.rangetree.size = 0)
    return lt.stoEnd
  | none => do
    let ranges ← RangeBuffers.iterate ranges
    let tree ← removeOverlappingLocks txnid lt.rangetree ranges
    return { lt with
      rangetree := tree
      stoScore := if lt.stoScore < stoScoreThreshold then lt.stoScore + 1 else lt.stoScore }

/-- Copy a lock out as long as fewer than a given number were copied. -/
def extractLock (numToExtract : Nat) (extracted : List (RowLock Key)) (lock : RowLock Key) :
    List (RowLock Key) × Bool :=
  if extracted.length < numToExtract then (extracted ++ [lock], true) else (extracted, false)

/-- Remove locks one after the other. -/
def removeLocks : LockedKeyrange Key → List (RowLock Key) → Option (LockedKeyrange Key)
  | lkr, [] => some lkr
  | lkr, lock :: locks => do
    let lkr ← lkr.remove lock.range
    removeLocks lkr locks

/-- Take the first locks out of a locked range. -/
def extractFirstNRowLocks (lkr : LockedKeyrange Key) (numToExtract : Nat) :
    Option (LockedKeyrange Key × List (RowLock Key)) := do
  let (lkr, extracted) := lkr.iterate (extractLock numToExtract) []
  invariant (extracted.length ≤ numToExtract)
  let lkr ← removeLocks lkr extracted
  return (lkr, extracted)

omit [LinearOrder Key] in
/-- Merge neighbouring locks of one transaction into one from the first left to
the last right end. -/
def mergeRuns (current : RowLock Key) : List (RowLock Key) → List (RowLock Key)
  | [] => [current]
  | next :: rest =>
    if current.txnid = next.txnid then
      mergeRuns
        { current with range := { left := current.range.left, right := next.range.right } } rest
    else current :: mergeRuns next rest

omit [LinearOrder Key] in
/-- Put a range behind the others of its transaction, keeping the transactions in order. -/
def appendToBuffer (lock : RowLock Key) :
    List (Nat × List (Keyrange Key)) → List (Nat × List (Keyrange Key))
  | [] => [(lock.txnid, [lock.range])]
  | (txnid, ranges) :: rest =>
    if lock.txnid < txnid then (txnid, ranges) :: appendToBuffer lock rest
    else if txnid = lock.txnid then (txnid, ranges ++ [lock.range]) :: rest
    else (lock.txnid, [lock.range]) :: (txnid, ranges) :: rest

/-- Take all locks out of the tree in batches and collect the merged ones by transaction. -/
def extractBatches : Nat → LockedKeyrange Key → List (Nat × List (Keyrange Key)) →
    Option (LockedKeyrange Key × List (Nat × List (Keyrange Key)))
  -- Every batch but the last takes locks out, so one turn more than their number is enough fuel.
  | 0, _, _ => none
  | fuel + 1, lkr, buffers => do
    let (lkr, extracted) ← extractFirstNRowLocks lkr numRowLocksPerBatch
    match extracted with
    | [] => return (lkr, buffers)
    | first :: rest =>
      extractBatches fuel lkr
        ((mergeRuns first rest).foldl (fun buffers lock => appendToBuffer lock buffers) buffers)

omit [LinearOrder Key] in
/-- The locks that some range buffers stand for. -/
def locksOfBuffers (buffers : List (Nat × List (Keyrange Key))) : List (RowLock Key) :=
  buffers.flatMap fun (txnid, ranges) => ranges.map fun range => { range := range, txnid := txnid }

omit [LinearOrder Key] in
/-- Iterate over the range buffers of all transactions. -/
def iterateBuffers [RangeBuffers Key] : List (Nat × List (Keyrange Key)) →
    Option (List (Nat × List (Keyrange Key)))
  | [] => some []
  | (txnid, ranges) :: buffers => do
    let ranges ← RangeBuffers.iterate ranges
    let buffers ← iterateBuffers buffers
    return (txnid, ranges) :: buffers

/-- Merge neighbouring locks in the whole tree, and tell what each transaction then holds. -/
def escalate [BoundedOrder Key] [RangeBuffers Key] (lt : Locktree Key) :
    Option (Locktree Key × List (Nat × List (Keyrange Key))) := do
  let lkr ← (LockedKeyrange.prepare lt.rangetree).acquire .infinite
  let (lt, lkr) ← if lt.stoTxnid.isSome then lt.stoEndEarly lkr else some (lt, lkr)
  let (lkr, buffers) ← extractBatches (lkr.release.size + 1) lkr []
  invariant (lkr.release.size = 0)
  let buffers ← iterateBuffers buffers
  let lkr ← insertLocks lkr (locksOfBuffers buffers)
  return ({ lt with rangetree := lkr.release }, buffers)

end Locktree

end Tokuft
