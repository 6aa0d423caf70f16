import Tokuft.Locktree.MemoryExact
import Tokuft.Locktree.WaitGraphLaws

/-! Requests for row locks that wait for their conflicts, in the lock trees of a manager. -/

namespace Tokuft

variable {Key : Type}

/-- What a request returns when it is complete. -/
inductive LockRequestResult where
  | granted
  | notGranted
  | deadlock
  | outOfLocks
  deriving DecidableEq, Repr

/-- Where a request is in its life. -/
inductive LockRequestState where
  | initialized
  | pending
  | complete (completeR : LockRequestResult)
  deriving DecidableEq, Repr

/-- A request of a transaction for a range. -/
structure LockRequest (Key : Type) where
  txnid : Nat
  range : Keyrange Key
  point : Bool
  bigTxn : Bool
  conflictingTxnid : Option Nat
  state : LockRequestState
  deriving DecidableEq

namespace LockRequest

/-- Complete a request. -/
def complete (request : LockRequest Key) (completeR : LockRequestResult) : LockRequest Key :=
  { request with state := .complete completeR }

/-- Copy the keys, after which only an infinite one can be the same object at both ends. -/
def copyKeys [DecidableEq Key] [LE Key] [BoundedOrder Key] (request : LockRequest Key) :
    LockRequest Key :=
  { request with
    point := request.point && (request.range.left == ⊥ || request.range.left == ⊤) }

end LockRequest

/-- The pending requests of a lock tree, by transaction. -/
abbrev LockRequests (Key : Type) := List (LockRequest Key)

namespace LockRequests

/-- Find the request of a transaction. -/
def findLockRequest (requests : LockRequests Key) (txnid : Nat) : Option (LockRequest Key) :=
  requests.find? fun request => request.txnid = txnid

/-- Put a request before the first one of a greater transaction. -/
def insertSorted (request : LockRequest Key) : LockRequests Key → LockRequests Key
  | [] => [request]
  | first :: rest =>
    if request.txnid < first.txnid then request :: first :: rest
    else first :: insertSorted request rest

/-- Insert a request, where there may be none of its transaction. -/
def insertIntoLockRequests (requests : LockRequests Key) (request : LockRequest Key) :
    Option (LockRequests Key) := do
  invariant ((requests.findLockRequest request.txnid).isNone = true)
  return insertSorted request requests

variable [DecidableEq Key]

/-- Remove a request, which has to be the one of its transaction. -/
def removeFromLockRequests (requests : LockRequests Key) (request : LockRequest Key) :
    Option (LockRequests Key) := do
  let found ← requests.findLockRequest request.txnid
  invariant (found = request)
  return requests.erase request

end LockRequests

variable [LinearOrder Key]

/-- Find out who holds locks that overlap a range, which may rebalance the tree. -/
def Locktree.getConflicts [BoundedOrder Key] (lt : Locktree Key) (txnid : Nat)
    (range : Keyrange Key) : Option (Locktree Key × List Nat) := do
  let lkr ← (LockedKeyrange.prepare lt.rangetree).acquire range
  let (lkr, overlapping) := iterateAndGetOverlappingRowLocks lkr
  let (_, conflicts) := determineConflictingTxnids overlapping txnid []
  return ({ lt with rangetree := lkr.release }, conflicts)

namespace LockRequest

variable [BoundedOrder Key]

/-- The conflicts of a pending request. -/
def getConflicts (request : LockRequest Key) (lt : Locktree Key) :
    Option (Locktree Key × List Nat) := do
  invariant (request.state = .pending)
  lt.getConflicts request.txnid request.range

/-- If a conflicting transaction waits itself, add an edge to it, and go on there if it is new. -/
def waitFor (build : Locktree Key × Wfg → LockRequest Key → List Nat → Option (Locktree Key × Wfg))
    (requests : LockRequests Key) (request : LockRequest Key) (state : Locktree Key × Wfg)
    (conflictingTxnid : Nat) : Option (Locktree Key × Wfg) := do
  let conflictingRequest := requests.findLockRequest conflictingTxnid
  invariant (conflictingTxnid ≠ request.txnid)
  invariant (conflictingRequest ≠ some request)
  match conflictingRequest with
  | none => some state
  | some conflicting =>
    let (lt, graph) := state
    let alreadyExists := graph.nodeExists conflictingTxnid
    let graph := graph.addEdge request.txnid conflictingTxnid
    if alreadyExists then some (lt, graph)
    else do
      let (lt, otherConflicts) ← conflicting.getConflicts lt
      build (lt, graph) conflicting otherConflicts

/-- Build the graph of the transactions that a request waits for. -/
def buildWaitGraph (requests : LockRequests Key) : Nat → Locktree Key × Wfg → LockRequest Key →
    List Nat → Option (Locktree Key × Wfg)
  -- Every turn adds the node of another request, so a turn for each of them is enough.
  | 0, _, _, _ => none
  | fuel + 1, state, request, conflicts =>
    (txnidSetTxnids conflicts).foldlM
      (waitFor (buildWaitGraph requests fuel) requests request) state

/-- Find out whether a request waits for itself. -/
def deadlockExists (requests : LockRequests Key) (lt : Locktree Key) (request : LockRequest Key)
    (conflicts : List Nat) : Option (Locktree Key × Bool) := do
  let (lt, graph) ← buildWaitGraph requests (requests.length + 1) (lt, []) request conflicts
  let deadlock ← graph.cycleExistsFromTxnid request.txnid
  return (lt, deadlock)

end LockRequest

/-- A manager, and for each of its lock trees the pending requests. -/
structure LockRequestWorld (Key : Type) where
  mgr : LocktreeManager Key
  requests : List (LockRequests Key)

/-- What can happen to lock trees and requests, with lock trees named by their places. -/
inductive LockRequestEvent (Key : Type) where
  | getLt
  | releaseLt (place : Nat)
  | setMaxLockMemory (maxLockMemory : Nat)
  | start (place : Nat) (request : LockRequest Key)
  | retry (place : Nat) (txnid : Nat)
  | killWaiter (place : Nat) (txnid : Nat)
  | releaseLocks (place : Nat) (txnid : Nat) (ranges : List (Keyrange Key))
  | escalate (place : Nat)
  | runEscalation

namespace LockRequestWorld

/-- At first there are no lock trees. -/
def create (maxLockMemory : Nat) : LockRequestWorld Key where
  mgr := .create maxLockMemory
  requests := []

/-- The request of a transaction that is pending in a lock tree. -/
def findLockRequest (world : LockRequestWorld Key) (place txnid : Nat) :
    Option (LockRequest Key) := do
  let requests ← world.requests[place]?
  requests.findLockRequest txnid

variable [BoundedOrder Key] (sizes : LockSizes Key)

/-- Try to acquire the lock that a request describes, and wait for it unless that is a deadlock. -/
def start (world : LockRequestWorld Key) (place : Nat) (request : LockRequest Key) :
    Option (LockRequestWorld Key × LockRequest Key) := do
  let (mgr, result) ← world.mgr.tryAcquireLock sizes place request.bigTxn request.txnid
    request.point request.range
  match result with
  | .granted => return ({ world with mgr }, request.complete .granted)
  | .outOfLocks => return ({ world with mgr }, request.complete .outOfLocks)
  | .notGranted conflicts =>
    let conflictingTxnid ← txnidSetGet conflicts 0
    let request := { request.copyKeys with
      state := .pending
      conflictingTxnid := some conflictingTxnid }
    let requests ← world.requests[place]?
    let requests ← requests.insertIntoLockRequests request
    let accounted ← mgr.locktrees[place]?
    let (lt, deadlock) ← request.deadlockExists requests accounted.lt conflicts
    let mgr := { mgr with locktrees := mgr.locktrees.set place { accounted with lt } }
    if deadlock then
      let requests ← requests.removeFromLockRequests request
      return ({ mgr, requests := world.requests.set place requests }, request.complete .deadlock)
    else return ({ mgr, requests := world.requests.set place requests }, request)

/-- Replace the pending request of a transaction. -/
def replaceRequest (request : LockRequest Key) (requests : LockRequests Key) : LockRequests Key :=
  requests.map fun other => if other.txnid = request.txnid then request else other

/-- Try again to acquire the lock that a pending request describes. -/
def retry (world : LockRequestWorld Key) (place : Nat) (request : LockRequest Key) :
    Option (LockRequestWorld Key × LockRequest Key) := do
  invariant (request.state = .pending)
  let (mgr, result) ← world.mgr.tryAcquireLock sizes place request.bigTxn request.txnid
    request.point request.range
  let requests ← world.requests[place]?
  match result with
  | .granted =>
    let requests ← requests.removeFromLockRequests request
    return ({ mgr, requests := world.requests.set place requests }, request.complete .granted)
  | .notGranted conflicts =>
    let conflictingTxnid ← txnidSetGet conflicts 0
    let request := { request with conflictingTxnid := some conflictingTxnid }
    return ({ mgr, requests := world.requests.set place (replaceRequest request requests) },
      request)
  | .outOfLocks =>
    -- No conflict was looked for, so the set of conflicts is still empty.
    let conflictingTxnid ← txnidSetGet [] 0
    let request := { request with conflictingTxnid := some conflictingTxnid }
    return ({ mgr, requests := world.requests.set place (replaceRequest request requests) },
      request)

omit [BoundedOrder Key] in
/-- Give up a pending request, because it is killed or has waited for too long. -/
def killWaiter (world : LockRequestWorld Key) (place : Nat) (request : LockRequest Key) :
    Option (LockRequestWorld Key × LockRequest Key) := do
  let requests ← world.requests[place]?
  let requests ← requests.removeFromLockRequests request
  return ({ world with requests := world.requests.set place requests },
    request.complete .notGranted)

/-- Let something happen. -/
def next (world : LockRequestWorld Key) : LockRequestEvent Key → Option (LockRequestWorld Key)
  | .getLt => some { mgr := world.mgr.getLt, requests := world.requests ++ [[]] }
  | .releaseLt place => do
    let requests ← world.requests[place]?
    invariant (requests = [])
    let mgr ← world.mgr.releaseLt place
    return { mgr, requests := world.requests.eraseIdx place }
  | .setMaxLockMemory maxLockMemory =>
    some { world with mgr := world.mgr.setMaxLockMemory maxLockMemory }
  | .start place request => do
    let (world, _) ← world.start sizes place request
    return world
  | .retry place txnid => do
    let request ← world.findLockRequest place txnid
    let (world, _) ← world.retry sizes place request
    return world
  | .killWaiter place txnid => do
    let request ← world.findLockRequest place txnid
    let (world, _) ← world.killWaiter place request
    return world
  | .releaseLocks place txnid ranges => do
    let mgr ← world.mgr.releaseLocks sizes place txnid ranges
    return { world with mgr }
  | .escalate place => do
    let mgr ← world.mgr.escalate sizes place
    return { world with mgr }
  | .runEscalation => do
    let mgr ← world.mgr.runEscalation sizes
    return { world with mgr }

omit [BoundedOrder Key] in
/-- A transaction starts a request when it has none pending, and a lock tree is given up when
nothing is held in it and nothing pending. -/
def Allowed (world : LockRequestWorld Key) : LockRequestEvent Key → Prop
  | .getLt | .setMaxLockMemory _ | .runEscalation => True
  | .releaseLt place => world.requests[place]? = some [] ∧
      ∃ accounted ∈ world.mgr.locktrees[place]?, accounted.lt.heldLocks = []
  | .start place request => request.range.Ordered ∧
      (request.point = true → request.range.left = request.range.right) ∧
      ∃ requests ∈ world.requests[place]?, requests.findLockRequest request.txnid = none
  | .retry place txnid | .killWaiter place txnid =>
    (world.findLockRequest place txnid).isSome = true
  | .releaseLocks place txnid ranges => (∀ range ∈ ranges, range.Ordered) ∧
      ∃ accounted ∈ world.mgr.locktrees[place]?, ∀ owner ∈ accounted.lt.stoTxnid, owner = txnid
  | .escalate place => place < world.mgr.locktrees.length

/-- An allowed event happens and passes every check. -/
def Step (world : LockRequestWorld Key) (event : LockRequestEvent Key)
    (after : LockRequestWorld Key) : Prop :=
  world.Allowed event ∧ world.next sizes event = some after

end LockRequestWorld

end Tokuft
