import Tokuft.Locktree.LocktreeLaws

/-! The operations of a lock tree with the memory that they tell the manager about. Each clause
says anew where memory is noted, since a release is checked at that very place. -/

namespace Tokuft

variable {Key : Type}

/-- What the accounting adds up: the sizes of keys, of the two structs around
them, and of a header. -/
structure LockSizes (Key : Type) where
  key : Key → Nat
  keyrange : Nat
  treenode : Nat
  recordHeader : Nat
  headerPositive : 0 < recordHeader

/-- The chunks that the buffer of a single transaction is written to. -/
structure Memarena where
  size : Nat
  used : Nat
  sizeOfOtherChunks : Nat
  deriving DecidableEq, Repr

namespace Memarena

/-- A new chunk is no larger than this, unless one allocation needs it. -/
def maxChunkSize : Nat := 64 * 1024 * 1024

/-- At first there is no chunk. -/
def create : Memarena where
  size := 0
  used := 0
  sizeOfOtherChunks := 0

/-- Round up to whole pages. -/
def roundToPage (size : Nat) : Nat := 4096 + (size - 1) / 4096 * 4096

/-- Allocate in the current chunk, or in a new one twice as large. -/
def mallocFromArena (arena : Memarena) (size : Nat) : Memarena :=
  if arena.size = 0 ∨ arena.size < arena.used + size then
    let newSize := min maxChunkSize (2 * arena.size)
    -- Without a chunk the size to add is zero.
    { size := roundToPage (if newSize < size then size else newSize)
      used := size
      sizeOfOtherChunks := arena.sizeOfOtherChunks + arena.size }
  else { arena with used := arena.used + size }

/-- Chunks that are full count as a whole. -/
def totalSizeInUse (arena : Memarena) : Nat := arena.sizeOfOtherChunks + arena.used

/-- Append a range, with one copy of the key when both ends are the same object. -/
def append (sizes : LockSizes Key) (arena : Memarena) (point : Bool) (range : Keyrange Key) :
    Memarena :=
  if point then arena.mallocFromArena (sizes.recordHeader + sizes.key range.left)
  else arena.mallocFromArena
    (sizes.recordHeader + sizes.key range.left + sizes.key range.right)

end Memarena

/-- The memory of a range, with both of its keys. -/
def Keyrange.getMemorySize (sizes : LockSizes Key) (range : Keyrange Key) : Nat :=
  sizes.key range.left + sizes.key range.right + sizes.keyrange

/-- The memory of a row lock in the tree. -/
def rowLockSizeInTree (sizes : LockSizes Key) (lock : RowLock Key) : Nat :=
  lock.range.getMemorySize sizes + sizes.treenode

/-- The manager counts memory that is used. -/
def noteMemUsed (memory used : Nat) : Nat := memory + used

/-- The manager counts memory that is released, which has to be counted before. -/
def noteMemReleased (memory released : Nat) : Option Nat := do
  invariant (released ≤ memory)
  return memory - released

/-- A lock tree, with the bytes that its buffer occupies. -/
structure AccountedLocktree (Key : Type) where
  lt : Locktree Key
  stoArena : Memarena

namespace AccountedLocktree

/-- A new lock tree occupies nothing. -/
def create : AccountedLocktree Key where
  lt := Locktree.create
  stoArena := .create

variable (sizes : LockSizes Key)

/-- Hold a range in the buffer, and count by how much the buffer grows. -/
def stoAppend (accounted : AccountedLocktree Key) (point : Bool) (range : Keyrange Key)
    (memory : Nat) : AccountedLocktree Key × Nat :=
  let bufferMem := accounted.stoArena.totalSizeInUse
  let stoArena := accounted.stoArena.append sizes point range
  ({ lt := { accounted.lt with stoBuffer := accounted.lt.stoBuffer ++ [range] }, stoArena },
    noteMemUsed memory (stoArena.totalSizeInUse - bufferMem))

/-- End the optimisation, and release all that the buffer occupies. -/
def stoEnd (accounted : AccountedLocktree Key) (memory : Nat) :
    Option (AccountedLocktree Key × Nat) := do
  let memory ← noteMemReleased memory accounted.stoArena.totalSizeInUse
  return ({ lt := accounted.lt.stoEnd, stoArena := .create }, memory)

variable [LinearOrder Key]

/-- Remove a row lock, and release what it occupies. -/
def removeRowLockFromTree (lkr : LockedKeyrange Key) (lock : RowLock Key) (memory : Nat) :
    Option (LockedKeyrange Key × Nat) := do
  let lkr ← lkr.remove lock.range
  let memory ← noteMemReleased memory (rowLockSizeInTree sizes lock)
  return (lkr, memory)

/-- Insert a row lock, and count what it occupies. -/
def insertRowLockIntoTree (lkr : LockedKeyrange Key) (lock : RowLock Key) (memory : Nat) :
    Option (LockedKeyrange Key × Nat) := do
  let lkr ← lkr.insert lock
  return (lkr, noteMemUsed memory (rowLockSizeInTree sizes lock))

/-- Take the overlapping locks of a transaction out, extending a range by each of them. -/
def consolidate (txnid : Nat) : LockedKeyrange Key → Keyrange Key → List (RowLock Key) → Nat →
    Option (LockedKeyrange Key × Keyrange Key × Nat)
  | lkr, range, [], memory => some (lkr, range, memory)
  | lkr, range, lock :: locks, memory => do
    invariant (lock.txnid = txnid)
    let (lkr, memory) ← removeRowLockFromTree sizes lkr lock memory
    consolidate txnid lkr (range.extend lock.range) locks memory

/-- Acquire a range together with what its transaction already holds of it, or find conflicts. -/
def acquireLockConsolidated (lkr : LockedKeyrange Key) (txnid : Nat) (range : Keyrange Key)
    (conflicts : List Nat) (memory : Nat) :
    Option (LockedKeyrange Key × Bool × List Nat × Nat) := do
  let lkr ← lkr.acquire range
  let (lkr, overlapping) := iterateAndGetOverlappingRowLocks lkr
  let (exist, conflicts) := determineConflictingTxnids overlapping txnid conflicts
  if exist then return (lkr, false, conflicts, memory)
  else
    let (lkr, range, memory) ← consolidate sizes txnid lkr range overlapping memory
    let (lkr, memory) ← insertRowLockIntoTree sizes lkr { range := range, txnid := txnid } memory
    return (lkr, true, conflicts, memory)

variable [BoundedOrder Key]

/-- Collect ranges of one transaction in a tree, consolidating those that overlap. -/
def collectRanges (txnid : Nat) : Treenode Key → List (Keyrange Key) → Nat →
    Option (Treenode Key × Nat)
  | tree, [], memory => some (tree, memory)
  | tree, range :: ranges, memory => do
    let (lkr, granted, _, memory) ←
      acquireLockConsolidated sizes (LockedKeyrange.prepare tree) txnid range [] memory
    invariant (granted = true)
    collectRanges txnid lkr.release ranges memory

/-- Move the buffered ranges into the empty tree, where the other tree was counted already. -/
def stoMigrateBufferRangesToTree (accounted : AccountedLocktree Key) (lkr : LockedKeyrange Key)
    (memory : Nat) : Option (LockedKeyrange Key × Nat) := do
  invariant (accounted.lt.stoBuffer.isEmpty = false)
  invariant (accounted.lt.rangetree.size = 0)
  let txnid ← accounted.lt.stoTxnid
  let (tree, memory) ← collectRanges sizes txnid .nil accounted.lt.stoBuffer memory
  let (_, locks) := iterateAndGetOverlappingRowLocks (LockedKeyrange.prepare tree)
  let lkr ← Locktree.insertLocks lkr locks
  invariant (lkr.release.size ≠ 0)
  return (lkr, memory)

/-- End the optimisation while its transaction still holds locks. -/
def stoEndEarly (accounted : AccountedLocktree Key) (lkr : LockedKeyrange Key) (memory : Nat) :
    Option (AccountedLocktree Key × LockedKeyrange Key × Nat) := do
  let (lkr, memory) ← accounted.stoMigrateBufferRangesToTree sizes lkr memory
  let (ended, memory) ← accounted.stoEnd memory
  return ({ ended with lt := { ended.lt with stoScore := 0 } }, lkr, memory)

/-- Try to hold a range in the buffer, ending or beginning the optimisation where needed. -/
def stoTryAcquire (accounted : AccountedLocktree Key) (lkr : LockedKeyrange Key) (txnid : Nat)
    (point : Bool) (range : Keyrange Key) (memory : Nat) :
    Option (AccountedLocktree Key × LockedKeyrange Key × Bool × Nat) := do
  let (accounted, lkr, memory) ←
    if accounted.lt.rangetree.size = 0 ∧ accounted.lt.stoBuffer.isEmpty ∧
        stoScoreThreshold ≤ accounted.lt.stoScore then
      (accounted.lt.stoBegin txnid).map fun lt => ({ accounted with lt }, lkr, memory)
    else if accounted.lt.stoTxnid.isSome ∧ (accounted.lt.stoTxnid ≠ some txnid ∨
        stoBufferMaxSize < accounted.lt.stoBuffer.length) then
      accounted.stoEndEarly sizes lkr memory
    else some (accounted, lkr, memory)
  match accounted.lt.stoTxnid with
  | some stoTxnid => do
    invariant (stoTxnid = txnid)
    let (appended, memory) := accounted.stoAppend sizes point range memory
    return (appended, lkr, true, memory)
  | none => do
    invariant (accounted.lt.stoBuffer.isEmpty = true)
    return (accounted, lkr, false, memory)

/-- Acquire a range, in the buffer if that is possible and otherwise in the tree. -/
def acquireLock (accounted : AccountedLocktree Key) (txnid : Nat) (point : Bool)
    (range : Keyrange Key) (memory : Nat) :
    Option (AccountedLocktree Key × Locktree.AcquireResult × Nat) := do
  let (accounted, lkr, acquired, memory) ← accounted.stoTryAcquire sizes
    (LockedKeyrange.prepare accounted.lt.rangetree) txnid point range memory
  if acquired then
    return ({ accounted with lt := { accounted.lt with rangetree := lkr.release } }, .granted,
      memory)
  else
    let (lkr, granted, conflicts, memory) ←
      acquireLockConsolidated sizes lkr txnid range [] memory
    return ({ accounted with lt := { accounted.lt with rangetree := lkr.release } },
      if granted then .granted else .notGranted conflicts, memory)

omit [BoundedOrder Key] in
/-- Remove the locks of a transaction from a list of overlapping ones. -/
def removeLocksOf (txnid : Nat) : LockedKeyrange Key → List (RowLock Key) → Nat →
    Option (LockedKeyrange Key × Nat)
  | lkr, [], memory => some (lkr, memory)
  | lkr, lock :: locks, memory => do
    let (lkr, memory) ← if lock.txnid = txnid then removeRowLockFromTree sizes lkr lock memory
      else some (lkr, memory)
    removeLocksOf txnid lkr locks memory

/-- Remove every lock of a transaction that overlaps a range. -/
def removeOverlappingLocksForTxnid (tree : Treenode Key) (txnid : Nat) (range : Keyrange Key)
    (memory : Nat) : Option (Treenode Key × Nat) := do
  let lkr ← (LockedKeyrange.prepare tree).acquire range
  let (lkr, overlapping) := iterateAndGetOverlappingRowLocks lkr
  let (lkr, memory) ← removeLocksOf sizes txnid lkr overlapping memory
  return (lkr.release, memory)

/-- Remove every lock of a transaction that overlaps one of some ranges. -/
def removeOverlappingLocks (txnid : Nat) : Treenode Key → List (Keyrange Key) → Nat →
    Option (Treenode Key × Nat)
  | tree, [], memory => some (tree, memory)
  | tree, range :: ranges, memory => do
    let (tree, memory) ← removeOverlappingLocksForTxnid sizes tree txnid range memory
    removeOverlappingLocks txnid tree ranges memory

/-- Release what a transaction holds, by forgetting the buffer or range by range. -/
def releaseLocks (accounted : AccountedLocktree Key) (txnid : Nat) (ranges : List (Keyrange Key))
    (memory : Nat) : Option (AccountedLocktree Key × Nat) :=
  match accounted.lt.stoTxnid with
  | some stoTxnid => do
    invariant (stoTxnid = txnid)
    invariant (accounted.lt.rangetree.size = 0)
    accounted.stoEnd memory
  | none => do
    let (tree, memory) ←
      removeOverlappingLocks sizes txnid accounted.lt.rangetree ranges memory
    let score := accounted.lt.stoScore
    return ({ accounted with lt := { accounted.lt with
      rangetree := tree
      stoScore := if score < stoScoreThreshold then score + 1 else score } }, memory)

omit [BoundedOrder Key] in
/-- Remove locks one after the other. -/
def removeLocks : LockedKeyrange Key → List (RowLock Key) → Nat →
    Option (LockedKeyrange Key × Nat)
  | lkr, [], memory => some (lkr, memory)
  | lkr, lock :: locks, memory => do
    let (lkr, memory) ← removeRowLockFromTree sizes lkr lock memory
    removeLocks lkr locks memory

omit [BoundedOrder Key] in
/-- Insert locks one after the other. -/
def insertLocks : LockedKeyrange Key → List (RowLock Key) → Nat →
    Option (LockedKeyrange Key × Nat)
  | lkr, [], memory => some (lkr, memory)
  | lkr, lock :: locks, memory => do
    let (lkr, memory) ← insertRowLockIntoTree sizes lkr lock memory
    insertLocks lkr locks memory

omit [BoundedOrder Key] in
/-- Take the first locks out of a locked range. -/
def extractFirstNRowLocks (lkr : LockedKeyrange Key) (numToExtract : Nat) (memory : Nat) :
    Option (LockedKeyrange Key × List (RowLock Key) × Nat) := do
  let (lkr, extracted) := lkr.iterate (Locktree.extractLock numToExtract) []
  invariant (extracted.length ≤ numToExtract)
  let (lkr, memory) ← removeLocks sizes lkr extracted memory
  return (lkr, extracted, memory)

omit [BoundedOrder Key] in
/-- Take all locks out of the tree in batches and collect the merged ones by transaction. -/
def extractBatches : Nat → LockedKeyrange Key → List (Nat × List (Keyrange Key)) → Nat →
    Option (LockedKeyrange Key × List (Nat × List (Keyrange Key)) × Nat)
  | 0, _, _, _ => none
  | fuel + 1, lkr, buffers, memory => do
    let (lkr, extracted, memory) ←
      extractFirstNRowLocks sizes lkr numRowLocksPerBatch memory
    match extracted with
    | [] => return (lkr, buffers, memory)
    | first :: rest =>
      extractBatches fuel lkr ((Locktree.mergeRuns first rest).foldl
        (fun buffers lock => Locktree.appendToBuffer lock buffers) buffers) memory

/-- Merge neighbouring locks in the whole tree, and tell what each transaction then holds. -/
def escalate (accounted : AccountedLocktree Key) (memory : Nat) :
    Option (AccountedLocktree Key × List (Nat × List (Keyrange Key)) × Nat) := do
  let lkr ← (LockedKeyrange.prepare accounted.lt.rangetree).acquire .infinite
  let (accounted, lkr, memory) ← if accounted.lt.stoTxnid.isSome then
      accounted.stoEndEarly sizes lkr memory
    else some (accounted, lkr, memory)
  let (lkr, buffers, memory) ← extractBatches sizes (lkr.release.size + 1) lkr [] memory
  invariant (lkr.release.size = 0)
  let (lkr, memory) ← insertLocks sizes lkr (Locktree.locksOfBuffers buffers) memory
  return ({ accounted with lt := { accounted.lt with rangetree := lkr.release } }, buffers, memory)

end AccountedLocktree

end Tokuft
