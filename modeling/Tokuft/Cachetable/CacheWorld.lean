import Tokuft.Cachetable.Evictor

/-! The values of a cache, what happens to them, and what the counters are told of it. -/

namespace Tokuft

/-- Who has a value for writing. -/
inductive PairUser where
  | client
  | fetcher
  | partialEvicter
  | evicter
  deriving DecidableEq, Repr

/-- The lock of a value. -/
inductive PairLock where
  | free
  | readers (n : Nat)
  | writer (user : PairUser)
  deriving DecidableEq, Repr

/-- A value in the cache. One whose file was closed is not in the table but stays with the file. -/
structure CachePair where
  attr : PairAttr
  dirty : Bool
  clonedValueData : Bool
  clonedValueSize : Nat
  sizeEvictingEstimate : Int
  valueRwlock : PairLock
  stale : Bool
  deriving DecidableEq, Repr

/-- A new value, which its lock is taken for. -/
def pairInit (attr : PairAttr) (dirty : Bool) (user : PairUser) : CachePair where
  attr := attr
  dirty := dirty
  clonedValueData := false
  clonedValueSize := 0
  sizeEvictingEstimate := 0
  valueRwlock := .writer user
  stale := false

/-- Write a value that is locked. Writing can change what it takes. -/
def cachetableWriteLockedPair (ev : Evictor) (p : CachePair) (newAttr : PairAttr) :
    Option (Evictor × CachePair) := do
  invariant (p.clonedValueData = false)
  if p.dirty = true ∧ newAttr.isValid = true then do
    let ev ← ev.changePairAttr p.attr newAttr
    return (ev, { p with attr := newAttr, dirty := false })
  else return (ev, { p with dirty := false })

/-- Clone a value that is locked, so that it can be written later. -/
def clonePair (ev : Evictor) (p : CachePair) (newAttr : PairAttr) (cloneSize : Nat) :
    Option (Evictor × CachePair) := do
  invariant (p.clonedValueData = false)
  let (ev, attr) ←
    (if newAttr.isValid = true then
      (ev.changePairAttr p.attr newAttr).map fun ev => (ev, newAttr)
    else some (ev, p.attr))
  return (ev.addClonedDataSize cloneSize, { p with
    attr := attr
    dirty := false
    clonedValueData := true
    clonedValueSize := cloneSize })

/-- Evict a value that is locked. It stays when others came to use it. -/
def evictPair (ev : Evictor) (p : CachePair) (newAttr : PairAttr) (users : Bool) :
    Option (Evictor × Option CachePair) := do
  let (ev, p) ← (if p.dirty then cachetableWriteLockedPair ev p newAttr else some (ev, p))
  let ev ← ev.decreaseSizeEvicting p.sizeEvictingEstimate
  if users then return (ev, some { p with valueRwlock := .free })
  else do
    invariant (p.clonedValueData = false)
    let ev ← ev.removePairAttr p.attr
    return (ev, none)

/-- The values of a cache, with changes of what values take and ends of evictions that the counters
were not told yet. -/
structure CacheWorld where
  ev : Evictor
  pairs : List CachePair
  untold : List (PairAttr × PairAttr)
  undecreased : List Int

/-- How a partial eviction goes: at once, or later in the background. -/
inductive PartialEvictionCost where
  | cheap (newAttr : PairAttr)
  | expensive (bytesFreedEstimate : Int)
  deriving DecidableEq, Repr

/-- What happens in a cache. What changes a value under its lock happens at once. -/
inductive CacheEvent where
  | put (attr : PairAttr)
  | insertToFetch
  | fetchPair (i : Nat) (attr : PairAttr) (dirty keepPairLocked : Bool)
  | readLock (i : Nat)
  | writeLock (i : Nat)
  | unlock (i : Nat)
  | doPartialFetch (i : Nat) (newAttr : PairAttr) (keepPairLocked : Bool)
  | unpin (i : Nat) (dirty : Bool) (attr : PairAttr)
  | tellEvictor (j : Nat)
  | writeLockedPair (i : Nat) (newAttr : PairAttr)
  | clonePair (i : Nat) (newAttr : PairAttr) (cloneSize : Nat)
  | checkpointClonedPair (i : Nat)
  | runPartialEviction (i : Nat) (cost : PartialEvictionCost)
  | doPartialEviction (i : Nat) (newAttr : PairAttr)
  | decreaseSizeEvicting (j : Nat)
  | tryEvictPair (i : Nat) (users : Bool)
  | evictPair (i : Nat) (newAttr : PairAttr) (users : Bool)
  | unpinAndRemove (i : Nat)
  | flushPairForClose (i : Nat)
  | removePairForClose (i : Nat) (completely : Bool)
  | addToCachetableOnly (i : Nat)
  | evictSomeStalePair (i : Nat)
  | reserveMemory (share upperBound : Nat)
  | releaseReservedMemory (reservedMemory : Nat)
  deriving DecidableEq, Repr

namespace PairLock

/-- One more reader. -/
def readLock : PairLock → Option PairLock
  | .free => some (.readers 1)
  | .readers n => some (.readers (n + 1))
  | .writer _ => none

/-- A client is done. -/
def unlock : PairLock → Option PairLock
  | .readers (n + 2) => some (.readers (n + 1))
  | .readers 1 | .writer .client => some .free
  | _ => none

end PairLock

namespace CacheWorld

/-- An empty cache. -/
def init (unreservable : Int) : CacheWorld := ⟨.init unreservable, [], [], []⟩

/-- Put a value in the place of one that is there. -/
def setPair (world : CacheWorld) (ev : Evictor) (i : Nat) (p : CachePair) : CacheWorld :=
  { world with ev := ev, pairs := world.pairs.set i p }

/-- A value is removed, and the counters are told what it took. -/
def cachetableRemovePair (world : CacheWorld) (i : Nat) (p : CachePair) : Option CacheWorld := do
  let ev ← world.ev.removePairAttr p.attr
  return { world with ev := ev, pairs := world.pairs.eraseIdx i }

/-- A value is set or removed. -/
def setOrErase (world : CacheWorld) (i : Nat) (left : Evictor × Option CachePair) : CacheWorld :=
  match left.2 with
  | some p => world.setPair left.1 i p
  | none => { world with ev := left.1, pairs := world.pairs.eraseIdx i }

/-- What happens next. -/
def next (world : CacheWorld) : CacheEvent → Option CacheWorld
  | .put attr => do
    let ev ← world.ev.addPairAttr attr
    return { world with ev := ev, pairs := world.pairs ++ [pairInit attr true .client] }
  | .insertToFetch => do
    let ev ← world.ev.addPairAttr zeroAttr
    return { world with ev := ev, pairs := world.pairs ++ [pairInit zeroAttr false .fetcher] }
  | .fetchPair i attr dirty keepPairLocked => do
    let p ← world.pairs[i]?
    let ev ← world.ev.addPairAttr attr
    return world.setPair ev i { p with
      attr := attr
      dirty := dirty || p.dirty
      valueRwlock := if keepPairLocked then .writer .client else .free }
  | .readLock i => do
    let p ← world.pairs[i]?
    let lock ← p.valueRwlock.readLock
    return world.setPair world.ev i { p with valueRwlock := lock }
  | .writeLock i => do
    let p ← world.pairs[i]?
    return world.setPair world.ev i { p with valueRwlock := .writer .client }
  | .unlock i => do
    let p ← world.pairs[i]?
    let lock ← p.valueRwlock.unlock
    return world.setPair world.ev i { p with valueRwlock := lock }
  | .doPartialFetch i newAttr keepPairLocked => do
    let p ← world.pairs[i]?
    -- Only a clean value may have pieces missing.
    invariant (p.dirty = false)
    invariant (p.valueRwlock = .writer .client)
    let ev ← world.ev.changePairAttr p.attr newAttr
    return world.setPair ev i { p with
      attr := newAttr
      valueRwlock := if keepPairLocked then p.valueRwlock else .free }
  | .unpin i dirty attr => do
    let p ← world.pairs[i]?
    let lock ← p.valueRwlock.unlock
    -- The counters are told after the lock is given back.
    if attr.isValid then
      return { world.setPair world.ev i { p with
        attr := attr, dirty := dirty || p.dirty, valueRwlock := lock } with
        untold := world.untold ++ [(p.attr, attr)] }
    else return world.setPair world.ev i { p with dirty := dirty || p.dirty, valueRwlock := lock }
  | .tellEvictor j => do
    let (oldAttr, newAttr) ← world.untold[j]?
    let ev ← world.ev.changePairAttr oldAttr newAttr
    return { world with ev := ev, untold := world.untold.eraseIdx j }
  | .writeLockedPair i newAttr => do
    let p ← world.pairs[i]?
    let (ev, p) ← cachetableWriteLockedPair world.ev p newAttr
    return world.setPair ev i p
  | .clonePair i newAttr cloneSize => do
    let p ← world.pairs[i]?
    let (ev, p) ← Tokuft.clonePair world.ev p newAttr cloneSize
    return world.setPair ev i p
  | .checkpointClonedPair i => do
    let p ← world.pairs[i]?
    return world.setPair (world.ev.removeClonedDataSize p.clonedValueSize) i { p with
      clonedValueData := false
      clonedValueSize := 0 }
  | .runPartialEviction i (.cheap newAttr) => do
    let p ← world.pairs[i]?
    let ev ← world.ev.changePairAttr p.attr newAttr
    return world.setPair ev i { p with attr := newAttr, sizeEvictingEstimate := 0 }
  | .runPartialEviction i (.expensive bytesFreedEstimate) => do
    let p ← world.pairs[i]?
    -- It is only worth its cost when it is expected to free something.
    if 0 < bytesFreedEstimate then
      return world.setPair (world.ev.increaseSizeEvicting bytesFreedEstimate) i { p with
        sizeEvictingEstimate := bytesFreedEstimate
        valueRwlock := .writer .partialEvicter }
    else return world
  | .doPartialEviction i newAttr => do
    let p ← world.pairs[i]?
    let ev ← world.ev.changePairAttr p.attr newAttr
    return { world.setPair ev i { p with attr := newAttr, valueRwlock := .free } with
      undecreased := world.undecreased ++ [p.sizeEvictingEstimate] }
  | .decreaseSizeEvicting j => do
    let sizeEvictingEstimate ← world.undecreased[j]?
    let ev ← world.ev.decreaseSizeEvicting sizeEvictingEstimate
    return { world with ev := ev, undecreased := world.undecreased.eraseIdx j }
  | .tryEvictPair i users => do
    let p ← world.pairs[i]?
    invariant (p.valueRwlock = .free)
    -- A clean value is evicted at once, and a dirty one later in the background.
    if p.dirty = false then do
      let left ← Tokuft.evictPair world.ev { p with sizeEvictingEstimate := 0 } p.attr users
      return world.setOrErase i left
    else do
      invariant (0 ≤ world.ev.sizeEvicting)
      let ev := world.ev.increaseSizeEvicting p.attr.size
      invariant (0 ≤ ev.sizeEvicting)
      return world.setPair ev i { p with
        sizeEvictingEstimate := p.attr.size
        valueRwlock := .writer .evicter }
  | .evictPair i newAttr users => do
    let p ← world.pairs[i]?
    let left ← Tokuft.evictPair world.ev p newAttr users
    return world.setOrErase i left
  | .unpinAndRemove i => do
    let p ← world.pairs[i]?
    invariant (p.valueRwlock = .writer .client)
    invariant (p.clonedValueData = false)
    -- The cleaner must not pick the value any more.
    let p := { p with dirty := false, attr := { p.attr with cachePressureSize := 0 } }
    world.cachetableRemovePair i p
  | .flushPairForClose i => do
    let p ← world.pairs[i]?
    invariant (p.valueRwlock = .free)
    invariant (p.clonedValueData = false)
    -- What writing tells about the value is not looked at.
    return world.setPair world.ev i { p with dirty := false }
  | .removePairForClose i completely => do
    let p ← world.pairs[i]?
    invariant (p.valueRwlock = .free)
    invariant (p.clonedValueData = false)
    invariant (p.dirty = false)
    if completely then world.cachetableRemovePair i p
    else return world.setPair world.ev i { p with stale := true }
  | .addToCachetableOnly i => do
    let p ← world.pairs[i]?
    return world.setPair world.ev i { p with stale := false }
  | .evictSomeStalePair i => do
    let p ← world.pairs[i]?
    world.cachetableRemovePair i p
  | .reserveMemory share upperBound =>
    some { world with ev := world.ev.reserveMemory share upperBound }
  | .releaseReservedMemory reservedMemory =>
    some { world with ev := world.ev.releaseReservedMemory reservedMemory }

/-- A value is in the table, and something is true of it. -/
def Listed (world : CacheWorld) (i : Nat) (holds : CachePair → Prop) : Prop :=
  ∃ p, world.pairs[i]? = some p ∧ p.stale = false ∧ holds p

/-- What locks allow to happen. What callbacks say that a value takes is valid where it has to be,
and only a value that is closed with its file is neither used nor written. -/
def Allowed (world : CacheWorld) : CacheEvent → Prop
  | .put attr => attr.isValid = true
  | .insertToFetch => True
  | .fetchPair i attr _ _ =>
    attr.isValid = true ∧ world.Listed i fun p => p.valueRwlock = .writer .fetcher
  | .readLock i => world.Listed i fun p => p.valueRwlock.readLock.isSome
  | .writeLock i => world.Listed i fun p => p.valueRwlock = .free
  | .unlock i => world.Listed i fun p => p.valueRwlock.unlock.isSome
  | .doPartialFetch i newAttr _ => newAttr.isValid = true ∧
    world.Listed i fun p => p.valueRwlock = .writer .client ∧ p.dirty = false
  | .unpin i _ _ => world.Listed i fun p => p.valueRwlock.unlock.isSome
  | .tellEvictor j => j < world.untold.length
  -- A checkpoint writes and clones what nobody uses, or what a client just locked.
  | .writeLockedPair i _ => world.Listed i fun p =>
    (p.valueRwlock = .free ∨ p.valueRwlock = .writer .client) ∧ p.clonedValueData = false
  | .clonePair i _ _ => world.Listed i fun p =>
    (p.valueRwlock = .free ∨ p.valueRwlock = .writer .client) ∧ p.clonedValueData = false ∧
      p.dirty = true
  | .checkpointClonedPair i => world.Listed i fun p => p.clonedValueData = true
  | .runPartialEviction i cost =>
    (∀ newAttr, cost = .cheap newAttr → newAttr.isValid = true) ∧
      world.Listed i fun p => p.valueRwlock = .free ∧ p.clonedValueData = false
  | .doPartialEviction i newAttr =>
    newAttr.isValid = true ∧ world.Listed i fun p => p.valueRwlock = .writer .partialEvicter
  | .decreaseSizeEvicting j => j < world.undecreased.length
  | .tryEvictPair i _ =>
    world.Listed i fun p => p.valueRwlock = .free ∧ p.clonedValueData = false
  | .evictPair i _ _ => world.Listed i fun p => p.valueRwlock = .writer .evicter
  -- The clone of a value is waited for before it is removed.
  | .unpinAndRemove i => world.Listed i fun p =>
    p.valueRwlock = .writer .client ∧ p.clonedValueData = false
  | .flushPairForClose i =>
    world.Listed i fun p => p.valueRwlock = .free ∧ p.clonedValueData = false
  | .removePairForClose i _ =>
    world.Listed i fun p =>
      p.valueRwlock = .free ∧ p.clonedValueData = false ∧ p.dirty = false
  | .addToCachetableOnly i => ∃ p, world.pairs[i]? = some p ∧ p.stale = true
  | .evictSomeStalePair i => ∃ p, world.pairs[i]? = some p ∧ p.stale = true
  | .reserveMemory _ _ => True
  | .releaseReservedMemory _ => True

/-- The cache pressure of a value that is taken from it before it is removed. -/
def pressureLost (world : CacheWorld) : CacheEvent → Nat
  | .unpinAndRemove i =>
    match world.pairs[i]? with
    | some p => p.attr.cachePressureSize
    | none => 0
  | _ => 0

/-- Something that is allowed happens, and the cache pressure that is lost is noted. -/
def Step (before : CacheWorld) (noted : CacheEvent × Nat) (after : CacheWorld) : Prop :=
  before.Allowed noted.1 ∧ before.next noted.1 = some after ∧
    noted.2 = before.pressureLost noted.1

/-- Nothing is going on but that clients use values. -/
def Idle (world : CacheWorld) : Prop :=
  world.untold = [] ∧ world.undecreased = [] ∧ ∀ p ∈ world.pairs, p.clonedValueData = false ∧
    p.valueRwlock ≠ .writer .partialEvicter ∧ p.valueRwlock ≠ .writer .evicter

/-- The sum of a field over all values in the table and with closed files. -/
def total (world : CacheWorld) (field : PairAttr → Nat) : Int :=
  (world.pairs.map fun p => (field p.attr : Int)).sum

/-- The counters are those of the values. -/
structure Exact (unreservable : Int) (world : CacheWorld) : Prop where
  current : world.ev.sizeCurrent = world.total PairAttr.size + world.ev.sizeClonedData +
    (world.ev.sizeReserved - unreservable)
  nonleaf : world.ev.sizeNonleaf = world.total PairAttr.nonleafSize
  leaf : world.ev.sizeLeaf = world.total PairAttr.leafSize
  rollback : world.ev.sizeRollback = world.total PairAttr.rollbackSize
  cachepressure : world.ev.sizeCachepressure = world.total PairAttr.cachePressureSize
  cloned : world.ev.sizeClonedData = 0
  evicting : world.ev.sizeEvicting = 0

end CacheWorld

end Tokuft
