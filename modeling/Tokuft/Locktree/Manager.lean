import Tokuft.Locktree.MemoryLaws
import Tokuft.Locktree.Exact

/-! The manager of many lock trees, which limits the memory that all of them use together. -/

namespace Tokuft

variable {Key : Type}

/-- The lock trees of a manager, the memory it counts for them, and the most that it allows. -/
structure LocktreeManager (Key : Type) where
  locktrees : List (AccountedLocktree Key)
  currentLockMemory : Nat
  maxLockMemory : Nat

/-- What can happen to a manager, with lock trees named by their places. -/
inductive ManagerEvent (Key : Type) where
  | getLt
  | releaseLt (place : Nat)
  | setMaxLockMemory (maxLockMemory : Nat)
  | acquireLock (place : Nat) (txnid : Nat) (point : Bool) (range : Keyrange Key)
  | tryAcquireLock (place : Nat) (bigTxn : Bool) (txnid : Nat) (point : Bool) (range : Keyrange Key)
  | releaseLocks (place : Nat) (txnid : Nat) (ranges : List (Keyrange Key))
  | escalate (place : Nat)
  | runEscalation
  deriving DecidableEq, Repr

namespace LocktreeManager

/-- At first there are no lock trees. -/
def create (maxLockMemory : Nat) : LocktreeManager Key where
  locktrees := []
  currentLockMemory := 0
  maxLockMemory := maxLockMemory

/-- A new lock tree, in which nothing is held. -/
def getLt (mgr : LocktreeManager Key) : LocktreeManager Key :=
  { mgr with locktrees := mgr.locktrees ++ [.create] }

/-- Destroy a lock tree that nobody refers to any more, which then has to be empty. -/
def releaseLt (mgr : LocktreeManager Key) (place : Nat) : Option (LocktreeManager Key) := do
  let accounted ← mgr.locktrees[place]?
  invariant (accounted.lt.rangetree.size = 0)
  return { mgr with locktrees := mgr.locktrees.eraseIdx place }

/-- A limit below what is used already is refused. -/
def setMaxLockMemory (mgr : LocktreeManager Key) (maxLockMemory : Nat) : LocktreeManager Key :=
  if maxLockMemory < mgr.currentLockMemory then mgr else { mgr with maxLockMemory }

/-- No memory is left for another lock. -/
def outOfLocks (mgr : LocktreeManager Key) : Bool :=
  decide (mgr.maxLockMemory ≤ mgr.currentLockMemory)

/-- More memory is used than big transactions may use. -/
def overBigThreshold (mgr : LocktreeManager Key) : Bool :=
  decide (mgr.maxLockMemory / 2 ≤ mgr.currentLockMemory)

variable [LinearOrder Key] [BoundedOrder Key] (sizes : LockSizes Key)

/-- Escalate lock trees one after the other. -/
def escalateLocktrees : List (AccountedLocktree Key) → Nat →
    Option (List (AccountedLocktree Key) × Nat)
  | [], memory => some ([], memory)
  | accounted :: rest, memory => do
    let (accounted, _, memory) ← accounted.escalate sizes memory
    let (rest, memory) ← escalateLocktrees rest memory
    return (accounted :: rest, memory)

/-- Escalate all lock trees. -/
def runEscalation (mgr : LocktreeManager Key) : Option (LocktreeManager Key) := do
  let (locktrees, memory) ← escalateLocktrees sizes mgr.locktrees mgr.currentLockMemory
  return { mgr with locktrees, currentLockMemory := memory }

/-- Escalate a single lock tree. -/
def escalate (mgr : LocktreeManager Key) (place : Nat) : Option (LocktreeManager Key) := do
  let accounted ← mgr.locktrees[place]?
  let (accounted, _, memory) ← accounted.escalate sizes mgr.currentLockMemory
  return { mgr with
    locktrees := mgr.locktrees.set place accounted
    currentLockMemory := memory }

/-- When too much memory is used, escalate and look again. -/
def escalateIf (exceeded : LocktreeManager Key → Bool) (mgr : LocktreeManager Key) :
    Option (LocktreeManager Key × Bool) :=
  if exceeded mgr then do
    let mgr ← mgr.runEscalation sizes
    return (mgr, exceeded mgr)
  else some (mgr, false)

/-- Find out whether there is memory for another lock, and tell whether there is none. -/
def checkCurrentLockConstraints (mgr : LocktreeManager Key) (bigTxn : Bool) :
    Option (LocktreeManager Key × Bool) := do
  let (mgr, tooBig) ← mgr.escalateIf sizes fun mgr => bigTxn && mgr.overBigThreshold
  if tooBig then return (mgr, true) else mgr.escalateIf sizes outOfLocks

/-- Acquire a range in a lock tree. -/
def acquireLock (mgr : LocktreeManager Key) (place txnid : Nat) (point : Bool)
    (range : Keyrange Key) : Option (LocktreeManager Key × Locktree.AcquireResult) := do
  let accounted ← mgr.locktrees[place]?
  let (accounted, result, memory) ←
    accounted.acquireLock sizes txnid point range mgr.currentLockMemory
  return ({ mgr with
    locktrees := mgr.locktrees.set place accounted
    currentLockMemory := memory }, result)

/-- Acquire a range in a lock tree if there is memory for it. -/
def tryAcquireLock (mgr : LocktreeManager Key) (place : Nat) (bigTxn : Bool) (txnid : Nat)
    (point : Bool) (range : Keyrange Key) :
    Option (LocktreeManager Key × Locktree.AcquireResult) := do
  let (mgr, exhausted) ← mgr.checkCurrentLockConstraints sizes bigTxn
  if exhausted then return (mgr, .outOfLocks) else mgr.acquireLock sizes place txnid point range

/-- Release what a transaction holds of some ranges in a lock tree. -/
def releaseLocks (mgr : LocktreeManager Key) (place txnid : Nat) (ranges : List (Keyrange Key)) :
    Option (LocktreeManager Key) := do
  let accounted ← mgr.locktrees[place]?
  let (accounted, memory) ← accounted.releaseLocks sizes txnid ranges mgr.currentLockMemory
  return { mgr with
    locktrees := mgr.locktrees.set place accounted
    currentLockMemory := memory }

/-- Let something happen, and tell what came of it if it was a request. -/
def next (mgr : LocktreeManager Key) :
    ManagerEvent Key → Option (LocktreeManager Key × Option Locktree.AcquireResult)
  | .getLt => some (mgr.getLt, none)
  | .releaseLt place => do
    let mgr ← mgr.releaseLt place
    return (mgr, none)
  | .setMaxLockMemory maxLockMemory => some (mgr.setMaxLockMemory maxLockMemory, none)
  | .acquireLock place txnid point range => do
    let (mgr, result) ← mgr.acquireLock sizes place txnid point range
    return (mgr, some result)
  | .tryAcquireLock place bigTxn txnid point range => do
    let (mgr, result) ← mgr.tryAcquireLock sizes place bigTxn txnid point range
    return (mgr, some result)
  | .releaseLocks place txnid ranges => do
    let mgr ← mgr.releaseLocks sizes place txnid ranges
    return (mgr, none)
  | .escalate place => do
    let mgr ← mgr.escalate sizes place
    return (mgr, none)
  | .runEscalation => do
    let mgr ← mgr.runEscalation sizes
    return (mgr, none)

omit [BoundedOrder Key] in
/-- Ranges have their ends in order, the buffer of a transaction is released by itself only, and
lock trees are given up when nothing is held in them. -/
def Allowed (mgr : LocktreeManager Key) : ManagerEvent Key → Prop
  | .getLt | .setMaxLockMemory _ | .runEscalation => True
  | .releaseLt place => ∃ accounted ∈ mgr.locktrees[place]?, accounted.lt.heldLocks = []
  | .acquireLock place _ point range | .tryAcquireLock place _ _ point range =>
    place < mgr.locktrees.length ∧ range.Ordered ∧ (point = true → range.left = range.right)
  | .escalate place => place < mgr.locktrees.length
  | .releaseLocks place txnid ranges => (∀ range ∈ ranges, range.Ordered) ∧
      ∃ accounted ∈ mgr.locktrees[place]?, ∀ owner ∈ accounted.lt.stoTxnid, owner = txnid

/-- An allowed event happens and passes every check. -/
def Step (mgr : LocktreeManager Key) (event : ManagerEvent Key) (after : LocktreeManager Key) :
    Prop :=
  mgr.Allowed event ∧ ∃ result, mgr.next sizes event = some (after, result)

end LocktreeManager

end Tokuft
