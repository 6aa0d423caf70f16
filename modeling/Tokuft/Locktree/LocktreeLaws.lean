import Tokuft.Library.Runs
import Tokuft.Locktree.EscalateLaws

/-! What every operation of a lock tree does to the locks granted, held and still to release. -/

namespace Tokuft

variable {Key : Type}

/-- The locks that are held: those in the tree, and those of the transaction with the buffer. -/
def Locktree.heldLocks (lt : Locktree Key) : List (RowLock Key) :=
  match lt.stoTxnid with
  | none => lt.rangetree.locks
  | some txnid => lt.rangetree.locks ++ locksOf txnid lt.stoBuffer

/-- A lock tree, and for every transaction the ranges it notes to release when it ends. -/
structure LocktreeWorld (Key : Type) where
  lt : Locktree Key
  granted : Nat → List (Keyrange Key)

/-- What the manager finds of its memory for locks, each time that it looks for one request. -/
structure LockMemory where
  /-- The request is of a big transaction, and the memory is over the threshold for those. -/
  overBigThreshold : Bool := false
  /-- So it is after an escalation. -/
  stillOverBigThreshold : Bool := false
  outOfLocks : Bool := false
  /-- So it is after another escalation. -/
  stillOutOfLocks : Bool := false
  deriving DecidableEq, Repr

/-- What can happen to a lock tree. -/
inductive LocktreeEvent (Key : Type) where
  | acquire (memory : LockMemory) (txnid : Nat) (range : Keyrange Key)
  | release (txnid : Nat)
  | escalate
  deriving DecidableEq, Repr

namespace LocktreeWorld

/-- At first nothing is held. -/
def start : LocktreeWorld Key where
  lt := Locktree.create
  granted := fun _ => []

/-- Note a granted range for its transaction. -/
def noteRowLock (granted : Nat → List (Keyrange Key)) (txnid : Nat) (range : Keyrange Key) :
    Nat → List (Keyrange Key) :=
  Function.update granted txnid (granted txnid ++ [range])

/-- Replace the ranges a transaction noted by those it holds after an escalation. -/
def escalateCallback (granted : Nat → List (Keyrange Key))
    (buffer : Nat × List (Keyrange Key)) : Nat → List (Keyrange Key) :=
  Function.update granted buffer.1 buffer.2

variable [LinearOrder Key] [BoundedOrder Key] [RangeBuffers Key]

/-- Escalate the lock tree, and call back for every transaction that holds locks. -/
def escalate (world : LocktreeWorld Key) : Option (LocktreeWorld Key) := do
  let (lt, buffers) ← world.lt.escalate
  return { lt, granted := buffers.foldl escalateCallback world.granted }

/-- Escalate when memory is short. -/
def escalateIf (world : LocktreeWorld Key) (short : Bool) : Option (LocktreeWorld Key) :=
  if short then world.escalate else some world

/-- Escalate where memory is short, and tell whether there is none for another lock even then. -/
def checkCurrentLockConstraints (world : LocktreeWorld Key) (memory : LockMemory) :
    Option (LocktreeWorld Key × Bool) := do
  let world ← world.escalateIf memory.overBigThreshold
  if memory.overBigThreshold ∧ memory.stillOverBigThreshold then return (world, true)
  else
    let world ← world.escalateIf memory.outOfLocks
    return (world, memory.outOfLocks && memory.stillOutOfLocks)

/-- Acquire a range for a transaction, which notes it when it is granted, if there is memory. -/
def tryAcquireLock (world : LocktreeWorld Key) (memory : LockMemory) (txnid : Nat)
    (range : Keyrange Key) : Option (LocktreeWorld Key × Locktree.AcquireResult) := do
  let (world, refused) ← world.checkCurrentLockConstraints memory
  if refused then return (world, .outOfLocks)
  else
    let (lt, result) ← world.lt.acquireLock txnid range
    let granted := match result with
      | .granted => noteRowLock world.granted txnid range
      | _ => world.granted
    return ({ lt, granted }, result)

/-- Let something happen, and tell what came of it if it was a request. -/
def next (world : LocktreeWorld Key) :
    LocktreeEvent Key → Option (LocktreeWorld Key × Option Locktree.AcquireResult)
  | .acquire memory txnid range => do
    let (world, result) ← world.tryAcquireLock memory txnid range
    return (world, some result)
  | .release txnid => do
    let lt ← world.lt.releaseLocks txnid (world.granted txnid)
    return ({ lt := lt, granted := Function.update world.granted txnid [] }, none)
  | .escalate => do
    let world ← world.escalate
    return (world, none)

omit [BoundedOrder Key] [RangeBuffers Key] in
/-- Callers request ranges with their ends in order, and release what they were granted. -/
def Allowed (world : LocktreeWorld Key) : LocktreeEvent Key → Prop
  | .acquire _ _ range => range.Ordered
  | .release txnid => world.granted txnid ≠ []
  | .escalate => True

/-- An allowed event happens and passes every check. -/
def Step (world : LocktreeWorld Key) (event : LocktreeEvent Key) (after : LocktreeWorld Key) :
    Prop :=
  world.Allowed event ∧ ∃ result, world.next event = some (after, result)

omit [LinearOrder Key] [BoundedOrder Key] [RangeBuffers Key] in
/-- A request is for a range that the range buffers of its transaction keep. -/
def Kept (kept : Nat → Set (Keyrange Key)) : LocktreeEvent Key → Prop
  | .acquire _ txnid range => range ∈ kept txnid
  | _ => True

/-- An allowed event happens, and a request is for a range that range buffers keep. -/
def KeptStep (kept : Nat → Set (Keyrange Key)) (world : LocktreeWorld Key)
    (event : LocktreeEvent Key) (after : LocktreeWorld Key) : Prop :=
  Kept kept event ∧ Step world event after

end LocktreeWorld

variable [LinearOrder Key]

namespace Locktree

/-- The tree is in order, and it is empty as long as one transaction has its locks in the buffer. -/
structure Ok (lt : Locktree Key) : Prop where
  treeOk : LocksOk lt.rangetree.locks
  bufferOrdered : ∀ range ∈ lt.stoBuffer, range.Ordered
  idle : lt.stoTxnid = none → lt.stoBuffer = []
  active : ∀ owner, lt.stoTxnid = some owner → lt.stoBuffer ≠ [] ∧ lt.rangetree.locks = []

variable {lt : Locktree Key}

omit [LinearOrder Key] in
/-- Without the optimisation the locks in the tree are held. -/
theorem heldLocks_idle (idle : lt.stoTxnid = none) :
    lt.heldLocks = lt.rangetree.locks := by
  simp [heldLocks, idle]

/-- With the optimisation the buffered ranges are held. -/
theorem Ok.heldLocks_active (ok : lt.Ok) {owner : Nat} (active : lt.stoTxnid = some owner) :
    lt.heldLocks = locksOf owner lt.stoBuffer := by
  simp [heldLocks, active, (ok.active owner active).2]

/-- Every lock that is held has its ends in order. -/
theorem Ok.ordered (ok : lt.Ok) :
    ∀ lock ∈ lt.heldLocks, lock.range.Ordered := by
  -- The locks are in the tree, or in the buffer of the single transaction.
  intro lock member
  cases sto : lt.stoTxnid with
  | none =>
    rw [heldLocks_idle sto] at member
    exact ok.treeOk.ordered lock member
  | some owner =>
    rw [ok.heldLocks_active sto] at member
    exact ok.bufferOrdered lock.range (mem_locksOf.mp member).2

/-- Locks of different transactions never overlap. -/
theorem Ok.exclusive (ok : lt.Ok) {lock other : RowLock Key} (member : lock ∈ lt.heldLocks)
    (otherMember : other ∈ lt.heldLocks) (different : lock.txnid ≠ other.txnid) :
    lock.range.overlaps other.range = false := by
  cases sto : lt.stoTxnid with
  | none =>
    rw [heldLocks_idle sto] at member otherMember
    rw [Bool.eq_false_iff]
    intro overlap
    exact different (congrArg RowLock.txnid (ok.treeOk.eq_of_overlaps member otherMember overlap))
  | some owner =>
    -- In the buffer all locks are of one transaction.
    rw [ok.heldLocks_active sto] at member otherMember
    exact absurd ((mem_locksOf.mp member).1.trans (mem_locksOf.mp otherMember).1.symm) different

/-- A new lock tree is in order. -/
theorem create_ok : (create : Locktree Key).Ok := by
  refine ⟨LocksOk.nil, ?_, fun _ => rfl, ?_⟩
  · intro range member
    cases member
  · intro owner active
    cases active

omit [LinearOrder Key] in
/-- An empty tree has no locks. -/
theorem size_eq_zero_iff {tree : Treenode Key} : tree.size = 0 ↔ tree.locks = [] := by
  rw [tree.size_eq_length, List.length_eq_zero_iff]

variable [BoundedOrder Key] [RangeBuffers Key] {txnid : Nat} {kept : Nat → Set (Keyrange Key)}

omit [BoundedOrder Key] in
/-- What is held in the buffer comes back when the range buffers keep what is held. -/
theorem Ok.givesBack (ok : lt.Ok) (keeps : RangeBuffers.Keeps kept)
    (stored : Stored kept lt.heldLocks) : GivesBack lt.stoBuffer := by
  -- Without a single transaction the buffer is empty.
  cases sto : lt.stoTxnid with
  | none =>
    refine keeps.givesBack 0 _ fun range member => ?_
    rw [ok.idle sto] at member
    cases member
  | some owner =>
    refine keeps.givesBack owner _ fun range member => stored { range, txnid := owner } ?_
    rw [ok.heldLocks_active sto]
    exact mem_locksOf.mpr ⟨rfl, member⟩

/-- Ending the optimisation early moves what is held into the tree. -/
theorem stoEndEarly_ok (ok : lt.Ok) (reads : GivesBack lt.stoBuffer) {owner : Nat}
    (active : lt.stoTxnid = some owner) :
    ∃ migrated, lt.stoEndEarly (LockedKeyrange.prepare lt.rangetree) =
        some ({ lt.stoEnd with stoScore := 0 }, migrated) ∧ migrated.frames = [] ∧
      migrated.range = .infinite ∧ Coalesced lt.heldLocks migrated.subtree.locks := by
  obtain ⟨buffered, empty⟩ := ok.active owner active
  obtain ⟨migrated, done, atRoot, range, coalesced⟩ :=
    stoMigrateBufferRangesToTree_ok active buffered reads ok.bufferOrdered
      (size_eq_zero_iff.mpr empty)
      (show (LockedKeyrange.prepare lt.rangetree).frames = [] from rfl) empty
  refine ⟨migrated, ?_, atRoot, range, ?_⟩
  · simp only [stoEndEarly, done, bind_runs]
  · rwa [ok.heldLocks_active active]

/-- A request either goes into the buffer, or finds what is held in the tree. -/
theorem stoTryAcquire_cases (ok : lt.Ok) (reads : GivesBack lt.stoBuffer) (txnid : Nat)
    (range : Keyrange Key) :
    ((∀ lock ∈ lt.heldLocks, lock.txnid = txnid) ∧ lt.rangetree.locks = [] ∧
      lt.heldLocks = locksOf txnid lt.stoBuffer ∧
      lt.stoTryAcquire (LockedKeyrange.prepare lt.rangetree) txnid range =
        some ({ lt with stoTxnid := some txnid, stoBuffer := lt.stoBuffer ++ [range] },
          LockedKeyrange.prepare lt.rangetree, true)) ∨
    ∃ moved lkr, lt.stoTryAcquire (LockedKeyrange.prepare lt.rangetree) txnid range =
        some (moved, lkr, false) ∧ moved.stoTxnid = none ∧ moved.stoBuffer = [] ∧
      lkr.frames = [] ∧ LocksOk lkr.subtree.locks ∧ Rearranged lt.heldLocks lkr.subtree.locks ∧
      (lt.stoTxnid = none → lkr.subtree.locks = lt.heldLocks) := by
  by_cases begins : lt.rangetree.size = 0 ∧ lt.stoBuffer.isEmpty ∧ stoScoreThreshold ≤ lt.stoScore
  · -- The optimisation begins, with nothing held so far.
    have noBuffer : lt.stoBuffer = [] := List.isEmpty_iff.mp begins.2.1
    have noTree : lt.rangetree.locks = [] := size_eq_zero_iff.mp begins.1
    have noOwner : lt.stoTxnid = none := by
      cases sto : lt.stoTxnid with
      | none => rfl
      | some owner => exact absurd noBuffer (ok.active owner sto).1
    have nothing : lt.heldLocks = [] := (heldLocks_idle noOwner).trans noTree
    refine Or.inl ⟨by simp [nothing], noTree, by simp [nothing, noBuffer, locksOf], ?_⟩
    rw [stoTryAcquire, if_pos begins]
    simp only [stoBegin, noOwner, noBuffer, Option.isNone_none, List.isEmpty_nil,
      invariant_of trivial, bind_runs, Option.map_some]
  · cases sto : lt.stoTxnid with
    | none =>
      have noBuffer := ok.idle sto
      refine Or.inr ⟨lt, LockedKeyrange.prepare lt.rangetree, ?_, sto, noBuffer, rfl, ok.treeOk,
        ?_, ?_⟩
      · rw [stoTryAcquire, if_neg begins]
        simp only [sto, Option.isSome_none, Bool.false_eq_true, false_and, if_false, bind_runs,
          noBuffer, List.isEmpty_nil, invariant_of trivial]
      · rw [heldLocks_idle sto]
        exact Rearranged.of_mem_iff fun lock => Iff.rfl
      · exact fun _ => (heldLocks_idle sto).symm
    | some owner =>
      by_cases ends : owner ≠ txnid ∨ stoBufferMaxSize < lt.stoBuffer.length
      · obtain ⟨migrated, done, atRoot, -, coalesced⟩ := stoEndEarly_ok ok reads sto
        have cond : lt.stoTxnid.isSome ∧
            (lt.stoTxnid ≠ some txnid ∨ stoBufferMaxSize < lt.stoBuffer.length) := by
          simpa [sto] using ends
        refine Or.inr ⟨{ lt.stoEnd with stoScore := 0 }, migrated, ?_, rfl, rfl, atRoot,
          coalesced.ok, coalesced.toRearranged, by simp⟩
        rw [stoTryAcquire, if_neg begins, if_pos cond, done]
        rfl
      · -- The owner of the buffer goes on using it.
        have same : owner = txnid := by
          by_contra different
          exact ends (Or.inl different)
        subst same
        have cond : ¬ (lt.stoTxnid.isSome ∧
            (lt.stoTxnid ≠ some owner ∨ stoBufferMaxSize < lt.stoBuffer.length)) := by
          simpa [sto] using ends
        refine Or.inl ⟨?_, (ok.active owner sto).2, ok.heldLocks_active sto, ?_⟩
        · intro lock member
          rw [ok.heldLocks_active sto] at member
          exact (mem_locksOf.mp member).1
        · rw [stoTryAcquire, if_neg begins, if_neg cond]
          simp only [bind_runs, sto, invariant_of trivial]

/-- Without conflicts a request is granted, and the requested range is held in addition. -/
theorem acquireLock_granted (ok : lt.Ok) (reads : GivesBack lt.stoBuffer)
    {range : Keyrange Key} (ordered : range.Ordered)
    (free : ∀ lock ∈ lt.heldLocks, range.overlaps lock.range = true → lock.txnid = txnid) :
    ∃ after, lt.acquireLock txnid range = some (after, .granted) ∧ after.Ok ∧
      Rearranged ({ range := range, txnid := txnid } :: lt.heldLocks) after.heldLocks := by
  rcases stoTryAcquire_cases ok reads txnid range with ⟨-, empty, buffered, tried⟩ |
    ⟨moved, lkr, tried, noOwner, noBuffer, atRoot, lkrOk, rearranged, -⟩
  · -- The range goes behind the others in the buffer.
    refine ⟨{ lt with stoTxnid := some txnid, stoBuffer := lt.stoBuffer ++ [range] }, ?_,
      ⟨ok.treeOk, ?_, by simp, ?_⟩, ?_⟩
    · simp only [acquireLock, tried, bind_runs, if_true]
      rfl
    · intro other member
      rcases List.mem_append.mp member with earlier | last
      · exact ok.bufferOrdered other earlier
      · rw [List.mem_singleton.mp last]
        exact ordered
    · exact fun owner active => ⟨by simp, empty⟩
    · rw [buffered]
      refine Rearranged.of_mem_iff fun lock => ?_
      simp only [heldLocks, empty, List.nil_append]
      exact mem_locksOf_snoc
  · have freeNow : ∀ lock ∈ lkr.subtree.locks, range.overlaps lock.range = true →
        lock.txnid = txnid := by
      intro lock member overlap
      obtain ⟨old, there, same, oldOverlap⟩ :=
        (rearranged.overlaps_iff ok.ordered lkrOk.ordered ordered lock.txnid).mp
          ⟨lock, member, rfl, overlap⟩
      exact same.symm.trans (free old there oldOverlap)
    obtain ⟨acquired, conflicts, done, hull, consolidated⟩ :=
      acquireLockConsolidated_granted lkr atRoot lkrOk ordered freeNow
    refine ⟨{ moved with rangetree := acquired.release }, ?_,
      ⟨consolidated.ok, by simp [noBuffer], fun _ => noBuffer, by simp [noOwner]⟩, ?_⟩
    · simp only [acquireLock, tried, done, bind_runs, Bool.false_eq_true, if_false, if_true]
    · rw [show ({ moved with rangetree := acquired.release } : Locktree Key).heldLocks =
        acquired.release.locks from heldLocks_idle noOwner]
      exact (rearranged.cons _).trans (consolidated.rearranged ordered lkrOk.ordered freeNow)

/-- With conflicts a request is refused, which moves at most what is held and names them exactly. -/
theorem acquireLock_refused (ok : lt.Ok) (reads : GivesBack lt.stoBuffer)
    {range : Keyrange Key} (ordered : range.Ordered)
    (taken : ∃ lock ∈ lt.heldLocks, range.overlaps lock.range = true ∧ lock.txnid ≠ txnid) :
    ∃ after conflicts, lt.acquireLock txnid range = some (after, .notGranted conflicts) ∧
      after.Ok ∧ Rearranged lt.heldLocks after.heldLocks ∧
      (lt.stoTxnid = none → after.heldLocks = lt.heldLocks) ∧
      ∀ other, other ∈ conflicts ↔ other ≠ txnid ∧
        ∃ lock ∈ lt.heldLocks, lock.txnid = other ∧ range.overlaps lock.range = true := by
  -- The single transaction has no conflict with itself, so that all locks are in the tree now.
  obtain ⟨lock, member, overlap, different⟩ := taken
  rcases stoTryAcquire_cases ok reads txnid range with ⟨own, -, -, -⟩ |
    ⟨moved, lkr, tried, noOwner, noBuffer, atRoot, lkrOk, rearranged, unmoved⟩
  · exact absurd (own lock member) different
  · have sameOverlaps (other : Nat) :=
      rearranged.overlaps_iff ok.ordered lkrOk.ordered ordered other
    obtain ⟨new, newMember, newTxnid, newOverlap⟩ :=
      (sameOverlaps lock.txnid).mpr ⟨lock, member, rfl, overlap⟩
    obtain ⟨acquired, conflicts, done, kept, exact'⟩ :=
      acquireLockConsolidated_refused lkr atRoot lkrOk ordered
        ⟨new, newMember, newOverlap, newTxnid.symm ▸ different⟩
    let after : Locktree Key := { moved with rangetree := acquired.release }
    have held : after.heldLocks = lkr.subtree.locks :=
      (heldLocks_idle (show after.stoTxnid = none from noOwner)).trans kept
    refine ⟨after, conflicts, ?_,
      ⟨kept.symm ▸ lkrOk, by simp [after, noBuffer], fun _ => noBuffer, by simp [after, noOwner]⟩,
      ?_, ?_, ?_⟩
    · simp only [acquireLock, tried, done, bind_runs, Bool.false_eq_true, if_false, after]
    · rwa [held]
    · exact fun none => held.trans (unmoved none)
    · intro other
      rw [exact' other, ← sameOverlaps other]
      constructor
      · rintro ⟨conflict, there, conflictOverlap, foreign, rfl⟩
        exact ⟨foreign, conflict, there, rfl, conflictOverlap⟩
      · rintro ⟨foreign, conflict, there, rfl, conflictOverlap⟩
        exact ⟨conflict, there, conflictOverlap, foreign, rfl⟩

/-- A release of ranges that overlap all locks of a transaction removes exactly these. -/
theorem releaseLocks_ok (ok : lt.Ok) {ranges : List (Keyrange Key)}
    (reads : GivesBack ranges) (ordered : ∀ range ∈ ranges, range.Ordered)
    (holds : ∃ lock ∈ lt.heldLocks, lock.txnid = txnid)
    (anchored : ∀ lock ∈ lt.heldLocks, lock.txnid = txnid →
      ∃ range ∈ ranges, range.overlaps lock.range = true) :
    ∃ after, lt.releaseLocks txnid ranges = some after ∧ after.Ok ∧
      ∀ lock, lock ∈ after.heldLocks ↔ lock ∈ lt.heldLocks ∧ lock.txnid ≠ txnid := by
  -- One case for the buffer, which is emptied as a whole, and one for the tree.
  cases sto : lt.stoTxnid with
  | some owner =>
    obtain ⟨held, member, own⟩ := holds
    have owns : ∀ lock ∈ lt.heldLocks, lock.txnid = owner := by
      intro lock there
      rw [ok.heldLocks_active sto] at there
      exact (mem_locksOf.mp there).1
    have same : owner = txnid := (owns held member).symm.trans own
    obtain ⟨-, empty⟩ := ok.active owner sto
    refine ⟨lt.stoEnd, ?_, ⟨ok.treeOk, by simp [stoEnd], fun _ => rfl, by simp [stoEnd]⟩, ?_⟩
    · simp only [releaseLocks, sto, invariant_of same, invariant_of (size_eq_zero_iff.mpr empty),
        bind_runs]
    · intro lock
      have none : lt.stoEnd.heldLocks = [] := empty
      rw [none]
      constructor
      · intro absent
        cases absent
      · rintro ⟨there, other⟩
        exact absurd ((owns lock there).trans same) other
  | none =>
    have held := heldLocks_idle sto
    rw [held] at anchored
    obtain ⟨read, iterate, perm⟩ := reads
    obtain ⟨removed, done, removedOk, mem⟩ := removeOverlappingLocks_ok txnid read ok.treeOk
      fun range member => ordered range (perm.subset member)
    have noBuffer := ok.idle sto
    let after : Locktree Key := { lt with
      rangetree := removed
      stoScore := if lt.stoScore < stoScoreThreshold then lt.stoScore + 1 else lt.stoScore }
    have idle : after.stoTxnid = none := sto
    refine ⟨after, ?_, ⟨removedOk, ?_, fun _ => noBuffer, by simp [idle]⟩, ?_⟩
    · simp only [releaseLocks, sto, iterate, done, bind_runs, after]
    · simp [after, noBuffer]
    · intro lock
      rw [heldLocks_idle idle, held]
      refine (mem lock).trans (and_congr_right fun there => ?_)
      refine not_congr ⟨fun both => both.1, fun own => ⟨own, ?_⟩⟩
      obtain ⟨range, member, overlap⟩ := anchored lock there own
      exact ⟨range, perm.mem_iff.mpr member, overlap⟩

omit [RangeBuffers Key] in
/-- Locking all keys locks the root. -/
theorem acquire_infinite (tree : Treenode Key) :
    (LockedKeyrange.prepare tree).acquire .infinite = some (LockedKeyrange.prepare tree) := by
  -- The range of all keys overlaps the root, whatever that holds.
  cases tree with
  | nil => rfl
  | node left leftEst lock right rightEst =>
    have overlap : lock.range.overlaps .infinite = true := by
      rw [Keyrange.overlaps_comm]
      exact infinite_overlaps lock.range
    simp [LockedKeyrange.acquire, LockedKeyrange.prepare, overlap]

/-- Before an escalation what is held moves into the tree, if it is not there already. -/
theorem escalateMoves_ok (ok : lt.Ok) (reads : GivesBack lt.stoBuffer) :
    ∃ moved lkr, (if lt.stoTxnid.isSome then
        lt.stoEndEarly (LockedKeyrange.prepare lt.rangetree)
      else some (lt, LockedKeyrange.prepare lt.rangetree)) = some (moved, lkr) ∧
      moved.stoTxnid = none ∧ moved.stoBuffer = [] ∧ lkr.frames = [] ∧ lkr.range = .infinite ∧
      Coalesced lt.heldLocks lkr.subtree.locks := by
  cases sto : lt.stoTxnid with
  | none =>
    refine ⟨lt, _, rfl, sto, ok.idle sto, rfl, rfl, ?_⟩
    rw [heldLocks_idle sto]
    exact .refl ok.treeOk
  | some owner =>
    obtain ⟨migrated, done, atRoot, range, coalesced⟩ := stoEndEarly_ok ok reads sto
    exact ⟨_, migrated, done, rfl, rfl, atRoot, range, coalesced⟩

omit [LinearOrder Key] [BoundedOrder Key] in
/-- Iterating over the buffers of all transactions gives the ranges of each of them. -/
theorem iterateBuffers_ok (givesBack : ∀ txnid ranges, (∀ range ∈ ranges, range ∈ kept txnid) →
    GivesBack ranges) :
    ∀ {buffers : List (Nat × List (Keyrange Key))}, Stored kept (locksOfBuffers buffers) →
      ∃ read, iterateBuffers buffers = some read ∧
        List.Forall₂ (fun given back => back.1 = given.1 ∧ back.2.Perm given.2) buffers read := by
  -- By induction on the buffers, each of which keeps its ranges.
  intro buffers
  induction buffers with
  | nil => exact fun _ => ⟨[], rfl, .nil⟩
  | cons buffer rest ih =>
    intro stored
    obtain ⟨txnid, ranges⟩ := buffer
    have inBuffer {lock : RowLock Key} (member : lock ∈ locksOf txnid ranges) :
        lock ∈ locksOfBuffers ((txnid, ranges) :: rest) := List.mem_append_left _ member
    obtain ⟨read, iterate, perm⟩ := givesBack txnid ranges fun range member =>
      stored { range, txnid } (inBuffer (mem_locksOf.mpr ⟨rfl, member⟩))
    obtain ⟨others, rests, same⟩ :=
      ih fun lock member => stored lock (List.mem_append_right _ member)
    refine ⟨(txnid, read) :: others, ?_, .cons ⟨rfl, perm⟩ same⟩
    simp only [iterateBuffers, iterate, rests, bind_runs]

omit [LinearOrder Key] [BoundedOrder Key] [RangeBuffers Key] in
/-- Buffers that came back are those of the same transactions, on the same locks. -/
theorem locksOfBuffers_perm {given read : List (Nat × List (Keyrange Key))}
    (same : List.Forall₂ (fun given back => back.1 = given.1 ∧ back.2.Perm given.2) given read) :
    read.map Prod.fst = given.map Prod.fst ∧
      (locksOfBuffers read).Perm (locksOfBuffers given) ∧
      ((∀ buffer ∈ given, buffer.2 ≠ []) → ∀ buffer ∈ read, buffer.2 ≠ []) := by
  -- By induction on the buffers.
  induction same with
  | nil => exact ⟨rfl, .refl _, fun full => full⟩
  | @cons given back _ _ one _ ih =>
    obtain ⟨txnid, ranges⟩ := back
    obtain ⟨rfl, perm⟩ := one
    obtain ⟨txns, locks, full⟩ := ih
    refine ⟨congrArg (List.cons given.1) txns, (perm.map _).append locks,
      fun nonempty buffer member => ?_⟩
    rcases List.mem_cons.mp member with rfl | inRest
    · intro none
      have none : ranges = [] := none
      rw [none] at perm
      exact nonempty given List.mem_cons_self perm.symm.eq_nil
    · exact full (fun other there => nonempty other (List.mem_cons_of_mem _ there)) buffer inRest

/-- An escalation merges what is held, and tells every transaction its merged ranges. -/
theorem escalate_ok (ok : lt.Ok) (reads : GivesBack lt.stoBuffer)
    (givesBack : ∀ txnid ranges, (∀ range ∈ ranges, range ∈ kept txnid) → GivesBack ranges)
    (stored : ∀ moved merged, Coalesced lt.heldLocks moved → Merged moved merged →
      (∀ wide ∈ merged, BatchRun moved wide) → Stored kept merged) :
    ∃ after buffers moved, lt.escalate = some (after, buffers) ∧ after.Ok ∧
      Descending buffers ∧ (∀ buffer ∈ buffers, buffer.2 ≠ []) ∧ Coalesced lt.heldLocks moved ∧
      Merged moved after.rangetree.locks ∧ after.stoTxnid = none ∧
      (locksOfBuffers buffers).Nodup ∧
      ∀ lock, lock ∈ after.rangetree.locks ↔ lock ∈ locksOfBuffers buffers := by
  obtain ⟨moved, lkr, movedEq, noOwner, noBuffer, atRoot, range, coalesced⟩ :=
    escalateMoves_ok ok reads
  obtain ⟨emptied, buffers, merged, extracted, emptiedAtRoot, -, nothing, descending, perm,
      isMerged, isRuns⟩ := extractBatches_ok (lkr.release.size + 1) atRoot range coalesced.ok
    (by rw [LockedKeyrange.release_of_atRoot atRoot, Treenode.size_eq_length]; omega)
    (show Descending [] from List.Pairwise.nil)
  have given : (locksOfBuffers buffers).Perm merged := by simpa [locksOfBuffers] using perm
  have empty : emptied.release.size = 0 := by
    rw [LockedKeyrange.release_of_atRoot emptiedAtRoot, size_eq_zero_iff, nothing]
  -- The merged ranges come back from the buffers.
  have keptLocks := stored _ merged coalesced isMerged isRuns
  obtain ⟨read, iterate, back⟩ := iterateBuffers_ok givesBack
    fun lock member => keptLocks lock (given.subset member)
  obtain ⟨txns, locks, full⟩ := locksOfBuffers_perm back
  have samePerm : (locksOfBuffers read).Perm merged := locks.trans given
  have readDescending : Descending read := by
    rw [Descending, ← List.pairwise_map (f := Prod.fst) (R := fun earlier later => later < earlier),
      txns]
    exact List.pairwise_map.mpr descending
  obtain ⟨inserted, done, insertedAtRoot, -, insertedOk, mem⟩ :=
    insertLocks_ok (locksOfBuffers read) emptiedAtRoot (by rw [nothing]; exact LocksOk.nil)
      ((samePerm.pairwise_iff fun apart => by rw [Keyrange.overlaps_comm]; exact apart).mpr
        isMerged.ok.notOverlapping)
      (fun lock member => isMerged.ok.ordered lock (samePerm.subset member)) (by simp [nothing])
  have same (lock : RowLock Key) :
      lock ∈ inserted.release.locks ↔ lock ∈ locksOfBuffers read := by
    rw [LockedKeyrange.release_of_atRoot insertedAtRoot, mem, nothing]
    simp
  have sameMerged (lock : RowLock Key) : lock ∈ inserted.release.locks ↔ lock ∈ merged :=
    (same lock).trans samePerm.mem_iff
  have treeOk : LocksOk inserted.release.locks := by
    rwa [LockedKeyrange.release_of_atRoot insertedAtRoot]
  refine ⟨{ moved with rangetree := inserted.release }, read, lkr.subtree.locks, ?_,
    ⟨treeOk, by simp [noBuffer], fun _ => noBuffer, by simp [noOwner]⟩, readDescending,
    full (extractBatches_nonempty _ extracted fun buffer member => by cases member), coalesced,
    ⟨treeOk, ?_, ?_⟩, noOwner, samePerm.nodup_iff.mpr isMerged.ok.nodup, same⟩
  · simp only [escalate, acquire_infinite, bind_runs]
    split at movedEq
    · rename_i active
      simp only [if_pos active, movedEq, extracted, invariant_of empty, iterate, done,
        Option.bind_some]
    · rename_i inactive
      obtain ⟨rfl, rfl⟩ := Prod.ext_iff.mp (Option.some.inj movedEq)
      simp only [if_neg inactive, extracted, invariant_of empty, iterate, done, Option.bind_some]
  · exact fun lock member => isMerged.ends lock ((sameMerged lock).mp member)
  · intro lock member
    obtain ⟨wide, there, covers⟩ := isMerged.covered lock member
    exact ⟨wide, (sameMerged wide).mpr there, covers⟩

/-- What range buffers keep stays merged by an escalation. -/
theorem escalate_kept (ok : lt.Ok) (keeps : RangeBuffers.Keeps kept)
    (stored : Stored kept lt.heldLocks) :
    ∃ after buffers moved, lt.escalate = some (after, buffers) ∧ after.Ok ∧
      Descending buffers ∧ Coalesced lt.heldLocks moved ∧
      Merged moved after.rangetree.locks ∧ after.stoTxnid = none ∧
      (∀ lock, lock ∈ after.rangetree.locks ↔ lock ∈ locksOfBuffers buffers) ∧
      Stored kept after.rangetree.locks := by
  -- An escalation merges locks of one transaction, whose range the buffer of that one keeps.
  have keptMerged {moved merged : List (RowLock Key)} (coalesced : Coalesced lt.heldLocks moved)
      (isMerged : Merged moved merged) : Stored kept merged :=
    isMerged.stored keeps coalesced.ok
      (coalesced.toRearranged.stored keeps coalesced.ok.ordered stored)
  obtain ⟨after, buffers, moved, done, afterOk, descending, -, coalesced, merged, idle, -, mem⟩ :=
    escalate_ok ok (ok.givesBack keeps stored) keeps.givesBack
      fun moved merged coalesced isMerged _ => keptMerged coalesced isMerged
  exact ⟨after, buffers, moved, done, afterOk, descending, coalesced, merged, idle, mem,
    keptMerged coalesced merged⟩

end Locktree

end Tokuft
