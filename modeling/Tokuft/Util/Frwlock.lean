import Tokuft.Basic

/-! The fair reader-writer lock, and threads that use it one critical section at a time. -/

namespace Tokuft

/-- What stands in the queue: the readers that wait, or a writer on its own stack. -/
inductive QueueItem (Thread : Type) where
  | read
  | write (t : Thread)
  deriving DecidableEq, Repr

/-- The lock. A context is that of the work a thread does. -/
structure Frwlock (Thread Context : Type) where
  numReaders : Nat
  numWriters : Nat
  numWantWrite : Nat
  numWantRead : Nat
  numSignaledReaders : Nat
  numExpensiveWantWrite : Nat
  currentWriterExpensive : Bool
  readWaitExpensive : Bool
  currentWriterTid : Option Thread
  blockingWriterContextId : Option Context
  waitReadIsInQueue : Bool
  waitHead : Option (QueueItem Thread)
  waitTail : Option (QueueItem Thread)
  /-- The item that follows, in each item that exists. -/
  next : QueueItem Thread → Option (QueueItem Thread)

namespace Frwlock

variable {Thread Context : Type} [DecidableEq Thread]

/-- A lock that nobody has used. -/
def init : Frwlock Thread Context where
  numReaders := 0
  numWriters := 0
  numWantWrite := 0
  numWantRead := 0
  numSignaledReaders := 0
  numExpensiveWantWrite := 0
  currentWriterExpensive := false
  readWaitExpensive := false
  currentWriterTid := none
  blockingWriterContextId := none
  waitReadIsInQueue := false
  waitHead := none
  waitTail := none
  next := fun _ => none

/-- Nobody waits in the queue. -/
def queueIsEmpty (l : Frwlock Thread Context) : Bool := l.waitHead.isNone

/-- Put an item at the end of the queue. -/
def enqItem (l : Frwlock Thread Context) (item : QueueItem Thread) :
    Option (Frwlock Thread Context) := do
  invariant (l.next item = none)
  match l.waitTail with
  | some tail =>
    return { l with next := Function.update l.next tail (some item), waitTail := some item }
  | none =>
    invariant (l.waitHead = none)
    return { l with waitHead := some item, waitTail := some item }

/-- Take the first item off the queue; it stands for its condition variable. -/
def deqItem (l : Frwlock Thread Context) :
    Option (QueueItem Thread × Frwlock Thread Context) := do
  let item ← l.waitHead
  invariant (l.waitTail ≠ none)
  return (item, { l with
    waitHead := l.next item
    waitTail := if l.waitTail = some item then none else l.waitTail })

/-- Take the lock for writing when nobody has it or waits for it. -/
def tryWriteLock (l : Frwlock Thread Context) (t : Thread) (expensive : Bool)
    (context : Context) : Option (Bool × Frwlock Thread Context) :=
  if 0 < l.numReaders ∨ 0 < l.numWriters ∨ 0 < l.numSignaledReaders ∨ 0 < l.numWantWrite then
    some (false, l)
  else do
    invariant (l.numWantWrite = 0)
    invariant (l.numWantRead = 0)
    return (true, { l with
      numWriters := 1
      currentWriterExpensive := expensive
      currentWriterTid := some t
      blockingWriterContextId := some context })

/-- Take the lock for writing, or go as far as the wait. -/
def writeLock (l : Frwlock Thread Context) (t : Thread) (expensive : Bool) (context : Context) :
    Option (Bool × Frwlock Thread Context) := do
  let (granted, l) ← l.tryWriteLock t expensive context
  if granted then return (true, l)
  -- The item is made on the stack of the thread.
  let l := { l with next := Function.update l.next (.write t) none }
  let l ← l.enqItem (.write t)
  let l := { l with
    numWantWrite := l.numWantWrite + 1
    numExpensiveWantWrite :=
      if expensive then l.numExpensiveWantWrite + 1 else l.numExpensiveWantWrite }
  -- The first to want a write lock keeps new readers out.
  if l.numWriters = 0 ∧ l.numWantWrite = 1 then
    return (false, { l with
      currentWriterTid := some t
      blockingWriterContextId := some context })
  return (false, l)

/-- What a writer does after its wait. -/
def writeLockWoken (l : Frwlock Thread Context) (t : Thread) (expensive : Bool)
    (context : Context) : Option (Frwlock Thread Context) := do
  invariant (0 < l.numWantWrite)
  invariant (l.numReaders = 0)
  invariant (l.numWriters = 0)
  invariant (l.numSignaledReaders = 0)
  return { l with
    numWantWrite := l.numWantWrite - 1
    numExpensiveWantWrite :=
      if expensive then l.numExpensiveWantWrite - 1 else l.numExpensiveWantWrite
    numWriters := 1
    currentWriterExpensive := expensive
    currentWriterTid := some t
    blockingWriterContextId := some context }

/-- Take the lock for reading, or go as far as the wait. -/
def readLock (l : Frwlock Thread Context) : Option (Bool × Frwlock Thread Context) :=
  if 0 < l.numWriters ∨ 0 < l.numWantWrite then do
    let l ← if !l.waitReadIsInQueue then do
        -- All readers that wait share one item.
        invariant (l.numSignaledReaders = l.numWantRead)
        let l := { l with next := Function.update l.next .read none }
        let l ← l.enqItem .read
        let l := { l with waitReadIsInQueue := true }
        invariant (!l.readWaitExpensive)
        pure { l with
          readWaitExpensive := l.currentWriterExpensive || decide (0 < l.numExpensiveWantWrite) }
      else pure l
    return (false, { l with numWantRead := l.numWantRead + 1 })
  else some (true, { l with numReaders := l.numReaders + 1 })

/-- What a reader does after its wait. -/
def readLockWoken (l : Frwlock Thread Context) : Option (Frwlock Thread Context) := do
  invariant (l.numWriters = 0)
  invariant (0 < l.numWantRead)
  invariant (0 < l.numSignaledReaders)
  return { l with
    numWantRead := l.numWantRead - 1
    numSignaledReaders := l.numSignaledReaders - 1
    numReaders := l.numReaders + 1 }

/-- Take the lock for reading when no writer has it or waits for it. -/
def tryReadLock (l : Frwlock Thread Context) : Bool × Frwlock Thread Context :=
  if 0 < l.numWriters ∨ 0 < l.numWantWrite then (false, l)
  else (true, { l with numReaders := l.numReaders + 1 })

/-- Signal the first writer of the queue when the last reader has gone. -/
def maybeSignalNextWriter (l : Frwlock Thread Context) :
    Option (Option (QueueItem Thread) × Frwlock Thread Context) :=
  if 0 < l.numWantWrite ∧ l.numSignaledReaders = 0 ∧ l.numReaders = 0 then do
    let (item, l) ← l.deqItem
    invariant (item ≠ .read)
    invariant (0 < l.numWantWrite)
    return (some item, l)
  else some (none, l)

/-- Let go of the lock after reading. -/
def readUnlock (l : Frwlock Thread Context) :
    Option (Option (QueueItem Thread) × Frwlock Thread Context) := do
  invariant (l.numWriters = 0)
  invariant (0 < l.numReaders)
  { l with numReaders := l.numReaders - 1 }.maybeSignalNextWriter

/-- Whether reading waits for something expensive. -/
def readLockIsExpensive (l : Frwlock Thread Context) : Bool :=
  if l.waitReadIsInQueue then l.readWaitExpensive
  else l.currentWriterExpensive || decide (0 < l.numExpensiveWantWrite)

/-- Signal the first of the queue: one writer, or all readers that wait. -/
def maybeSignalOrBroadcastNext (l : Frwlock Thread Context) :
    Option (Option (QueueItem Thread) × Frwlock Thread Context) := do
  invariant (l.numSignaledReaders = 0)
  if l.queueIsEmpty then
    invariant (l.numWantWrite = 0)
    invariant (l.numWantRead = 0)
    return (none, l)
  let (item, l) ← l.deqItem
  if item = .read then
    invariant (l.waitReadIsInQueue)
    invariant (0 < l.numWantRead)
    return (some item, { l with
      numSignaledReaders := l.numWantRead
      waitReadIsInQueue := false
      readWaitExpensive := false })
  invariant (0 < l.numWantWrite)
  return (some item, l)

/-- Let go of the lock after writing. -/
def writeUnlock (l : Frwlock Thread Context) :
    Option (Option (QueueItem Thread) × Frwlock Thread Context) := do
  invariant (l.numWriters = 1)
  { l with
    numWriters := 0
    currentWriterExpensive := false
    currentWriterTid := none
    blockingWriterContextId := none }.maybeSignalOrBroadcastNext

/-- Whether writing waits for something expensive. -/
def writeLockIsExpensive (l : Frwlock Thread Context) : Bool :=
  decide (0 < l.numExpensiveWantWrite) || l.currentWriterExpensive

/-- How many have the lock or wait for it. -/
def users (l : Frwlock Thread Context) : Nat :=
  l.numReaders + l.numWriters + l.numWantRead + l.numWantWrite

end Frwlock

/-- Where a thread is. A writer that waits or writes may be expensive. -/
inductive LockPhase where
  | idle
  | waitingRead
  /-- The broadcast was made, and the thread has not run since. -/
  | signaledRead
  | reading
  | waitingWrite (expensive : Bool)
  /-- The signal was sent, and the thread has not run since. -/
  | signaledWrite (expensive : Bool)
  | writing (expensive : Bool)
  deriving DecidableEq, Repr

/-- The lock and its threads. The clock counts the threads that came to wait; it is only there to
tell who came first. -/
structure LockWorld (Thread Context : Type) where
  lock : Frwlock Thread Context
  phase : Thread → LockPhase
  clock : Nat
  /-- When a thread came to wait. -/
  arrival : Thread → Nat
  /-- When the item that a thread waits in was put into the queue. -/
  ticket : Thread → Nat
  /-- When the item of the readers was put into the queue last. -/
  readTicket : Nat

/-- A thread calls the lock, or goes on after its wait. -/
inductive LockEvent (Thread Context : Type) where
  | readLock (t : Thread)
  | tryReadLock (t : Thread)
  | readWoken (t : Thread)
  | readUnlock (t : Thread)
  | writeLock (t : Thread) (expensive : Bool) (context : Context)
  | tryWriteLock (t : Thread) (expensive : Bool) (context : Context)
  | writeWoken (t : Thread) (context : Context)
  | writeUnlock (t : Thread)

namespace LockWorld

variable {Thread Context : Type} [DecidableEq Thread]

/-- A lock that no thread has used. -/
def init : LockWorld Thread Context where
  lock := .init
  phase := fun _ => .idle
  clock := 0
  arrival := fun _ => 0
  ticket := fun _ => 0
  readTicket := 0

/-- A thread comes to a place with the lock as it left it. -/
def at' (world : LockWorld Thread Context) (t : Thread) (lock : Frwlock Thread Context)
    (phase : LockPhase) : LockWorld Thread Context :=
  { world with lock := lock, phase := Function.update world.phase t phase }

/-- A thread begins to wait in an item that was put into the queue at some time. -/
def wait (world : LockWorld Thread Context) (t : Thread) (lock : Frwlock Thread Context)
    (phase : LockPhase) (ticket : Nat) : LockWorld Thread Context :=
  { world.at' t lock phase with
    clock := world.clock + 1
    arrival := Function.update world.arrival t world.clock
    ticket := Function.update world.ticket t ticket }

/-- What a signal or a broadcast does to the threads that wait. -/
def wake (phase : Thread → LockPhase) : Option (QueueItem Thread) → Thread → LockPhase
  | none => phase
  | some .read => fun u => if phase u = .waitingRead then .signaledRead else phase u
  | some (.write t) => fun u =>
    match phase u with
    | .waitingWrite expensive => if u = t then .signaledWrite expensive else phase u
    | other => other

/-- A thread calls for reading. -/
def readLock (world : LockWorld Thread Context) (t : Thread) :
    Option (LockWorld Thread Context) := do
  let (granted, lock) ← world.lock.readLock
  if granted then return world.at' t lock .reading
  -- The first reader that waits puts the item of all of them into the queue.
  let ticket := if world.lock.waitReadIsInQueue then world.readTicket else world.clock
  return { world.wait t lock .waitingRead ticket with readTicket := ticket }

/-- A thread calls for writing. -/
def writeLock (world : LockWorld Thread Context) (t : Thread) (expensive : Bool)
    (context : Context) : Option (LockWorld Thread Context) := do
  let (granted, lock) ← world.lock.writeLock t expensive context
  if granted then return world.at' t lock (.writing expensive)
  return world.wait t lock (.waitingWrite expensive) world.clock

/-- A thread lets go of the lock, and whoever is signalled stops to wait. -/
def unlock (world : LockWorld Thread Context) (t : Thread)
    (unlocked : Option (Option (QueueItem Thread) × Frwlock Thread Context)) :
    Option (LockWorld Thread Context) := do
  let (signaled, lock) ← unlocked
  let world := world.at' t lock .idle
  return { world with phase := wake world.phase signaled }

/-- A thread calls only when it is at no other place, goes on only after a signal, and lets go
only of what it has. -/
def Allowed (world : LockWorld Thread Context) : LockEvent Thread Context → Prop
  | .readLock t | .tryReadLock t | .writeLock t _ _ | .tryWriteLock t _ _ => world.phase t = .idle
  | .readWoken t => world.phase t = .signaledRead
  | .readUnlock t => world.phase t = .reading
  | .writeWoken t _ => ∃ expensive, world.phase t = .signaledWrite expensive
  | .writeUnlock t => ∃ expensive, world.phase t = .writing expensive

/-- One critical section under the mutex. -/
def next (world : LockWorld Thread Context) :
    LockEvent Thread Context → Option (LockWorld Thread Context)
  | .readLock t => world.readLock t
  | .tryReadLock t =>
    let (granted, lock) := world.lock.tryReadLock
    some (if granted then world.at' t lock .reading else world)
  | .readWoken t => do
    let lock ← world.lock.readLockWoken
    return world.at' t lock .reading
  | .readUnlock t => world.unlock t world.lock.readUnlock
  | .writeLock t expensive context => world.writeLock t expensive context
  | .tryWriteLock t expensive context => do
    let (granted, lock) ← world.lock.tryWriteLock t expensive context
    return if granted then world.at' t lock (.writing expensive) else world
  | .writeWoken t context =>
    match world.phase t with
    | .signaledWrite expensive => do
      let lock ← world.lock.writeLockWoken t expensive context
      return world.at' t lock (.writing expensive)
    | _ => none
  | .writeUnlock t => world.unlock t world.lock.writeUnlock

/-- One critical section of a thread that is allowed to enter it. -/
def Step (before : LockWorld Thread Context) (event : LockEvent Thread Context)
    (after : LockWorld Thread Context) : Prop :=
  before.Allowed event ∧ before.next event = some after

end LockWorld

end Tokuft
