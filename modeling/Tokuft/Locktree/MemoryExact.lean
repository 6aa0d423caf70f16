import Tokuft.Locktree.Manager

/-! The manager counts exactly the memory of what is held, whatever happens to its lock trees. -/

namespace Tokuft

variable {Key : Type}

/-- The memory of all lock trees of a list. -/
def locktreesMemory (sizes : LockSizes Key) (locktrees : List (AccountedLocktree Key)) : Nat :=
  (locktrees.map fun accounted => accounted.memory sizes).sum

/-- In place of one lock tree another one only changes what that one occupied. -/
theorem locktreesMemory_set (sizes : LockSizes Key) {locktrees : List (AccountedLocktree Key)}
    {place : Nat} {accounted : AccountedLocktree Key} (there : locktrees[place]? = some accounted) :
    ∃ other, locktreesMemory sizes locktrees = other + accounted.memory sizes ∧
      (∀ after : AccountedLocktree Key, locktreesMemory sizes (locktrees.set place after) =
        other + after.memory sizes) ∧
      locktreesMemory sizes (locktrees.eraseIdx place) = other := by
  -- By induction on the lock trees, down to the place.
  induction locktrees generalizing place with
  | nil => simp at there
  | cons first rest ih =>
    cases place with
    | zero =>
      simp only [List.getElem?_cons_zero, Option.some.injEq] at there
      subst there
      refine ⟨locktreesMemory sizes rest, Nat.add_comm _ _, fun after => Nat.add_comm _ _, rfl⟩
    | succ place =>
      obtain ⟨other, before, afterSet, erased⟩ := ih (by simpa using there)
      simp only [locktreesMemory] at before afterSet erased
      refine ⟨first.memory sizes + other, ?_, ?_, ?_⟩
      · simp only [locktreesMemory, List.map_cons, List.sum_cons, before, Nat.add_assoc]
      · intro after
        simp only [locktreesMemory, List.set_cons_succ, List.map_cons, List.sum_cons, afterSet,
          Nat.add_assoc]
      · simp only [locktreesMemory, List.eraseIdx_cons_succ, List.map_cons, List.sum_cons, erased]

variable [LinearOrder Key] [BoundedOrder Key] (sizes : LockSizes Key)

namespace AccountedLocktree

/-- A lock tree is in order, and its buffer is in use exactly when it has a range. -/
structure Good (accounted : AccountedLocktree Key) : Prop where
  ok : accounted.lt.Ok
  arenaOk : accounted.ArenaOk

omit [BoundedOrder Key] in
/-- A new lock tree is in order. -/
theorem create_good : (create : AccountedLocktree Key).Good :=
  ⟨Locktree.create_ok, .of_create rfl⟩

variable {accounted : AccountedLocktree Key}

omit [BoundedOrder Key] in
/-- Where nothing is held there is nothing in the tree and nothing in the buffer. -/
theorem Good.empty (good : accounted.Good) (nothing : accounted.lt.heldLocks = []) :
    accounted.lt.rangetree.locks = [] ∧ accounted.lt.stoBuffer = [] := by
  -- What is held is in the buffer while one transaction is alone, and else in the tree.
  cases sto : accounted.lt.stoTxnid with
  | none => exact ⟨(Locktree.heldLocks_idle sto).symm.trans nothing, good.ok.idle sto⟩
  | some owner =>
    have held := good.ok.heldLocks_active sto
    rw [nothing] at held
    exact ⟨(good.ok.active owner sto).2, List.map_eq_nil_iff.mp held.symm⟩

section

variable (good : accounted.Good)
include good

omit [BoundedOrder Key] in
/-- A lock tree in which nothing is held occupies nothing. -/
theorem Good.memory_eq_zero (nothing : accounted.lt.heldLocks = []) :
    accounted.memory sizes = 0 := by
  obtain ⟨noLocks, noBuffer⟩ := good.empty nothing
  rw [memory, noLocks, good.arenaOk.empty.mpr noBuffer]
  rfl

/-- A request is granted or refused, and exactly what it changes is counted. -/
theorem acquireLock_good (txnid : Nat) (point : Bool) {range : Keyrange Key}
    (ordered : range.Ordered) (other : Nat) :
    ∃ after result, accounted.acquireLock sizes txnid point range
        (other + accounted.memory sizes) = some (after, result, other + after.memory sizes) ∧
      after.Good ∧ accounted.lt.acquireLock txnid range = some (after.lt, result) ∧
      (result = .granted ∨ ∃ conflicts, result = .notGranted conflicts ∧ conflicts ≠ []) := by
  -- The memory of the other lock trees is kept apart.
  obtain ⟨whenFree, whenTaken⟩ := Locktree.acquireLock_exact good.ok
    (Locktree.givesBack_lossless _) txnid ordered
  by_cases free : accounted.lt.Free txnid range
  · obtain ⟨after, done, afterOk, -⟩ := whenFree free
    obtain ⟨arena, counted, arenaOk⟩ :=
      acquireLock_accounted sizes other good.ok good.arenaOk point done
    exact ⟨_, _, counted, ⟨afterOk, arenaOk⟩, done, Or.inl rfl⟩
  · obtain ⟨after, conflicts, done, afterOk, refused⟩ := whenTaken free
    obtain ⟨arena, counted, arenaOk⟩ :=
      acquireLock_accounted sizes other good.ok good.arenaOk point done
    refine ⟨_, _, counted, ⟨afterOk, arenaOk⟩, done, Or.inr ⟨conflicts, rfl, ?_⟩⟩
    -- Someone holds a lock in the way, who is named.
    unfold Locktree.Free at free
    push Not at free
    obtain ⟨lock, member, overlap, foreign⟩ := free
    exact List.ne_nil_of_mem ((refused.conflicts lock.txnid).mpr
      ⟨foreign, lock, member, rfl, overlap⟩)

/-- A release of any ranges counts exactly what it changes. -/
theorem releaseLocks_good {txnid : Nat} {ranges : List (Keyrange Key)}
    (ordered : ∀ range ∈ ranges, range.Ordered)
    (own : ∀ owner ∈ accounted.lt.stoTxnid, owner = txnid) (other : Nat) :
    ∃ after, accounted.releaseLocks sizes txnid ranges (other + accounted.memory sizes) =
        some (after, other + after.memory sizes) ∧ after.Good := by
  -- A buffer belongs to the one transaction that releases, and in a tree only its locks go.
  obtain ⟨lt, done, ltOk⟩ :
      ∃ lt, accounted.lt.releaseLocks txnid ranges = some lt ∧ lt.Ok := by
    cases sto : accounted.lt.stoTxnid with
    | some owner =>
      have empty := (good.ok.active owner sto).2
      refine ⟨accounted.lt.stoEnd, ?_, good.ok.treeOk, by simp [Locktree.stoEnd], fun _ => rfl,
        by simp [Locktree.stoEnd]⟩
      simp only [Locktree.releaseLocks, sto, invariant_of (own owner sto),
        invariant_of (Locktree.size_eq_zero_iff.mpr empty), bind_runs]
    | none =>
      obtain ⟨removed, done, removedOk, -⟩ :=
        Locktree.removeOverlappingLocks_ok txnid ranges good.ok.treeOk ordered
      let after : Locktree Key := { accounted.lt with
        rangetree := removed
        stoScore := if accounted.lt.stoScore < stoScoreThreshold then accounted.lt.stoScore + 1
          else accounted.lt.stoScore }
      have idle : after.stoTxnid = none := sto
      refine ⟨after, ?_, removedOk, good.ok.bufferOrdered, fun _ => good.ok.idle sto,
        by simp [idle]⟩
      simp only [Locktree.releaseLocks, sto, RangeBuffers.iterate_lossless, done, bind_runs, after]
  obtain ⟨arena, counted, arenaOk⟩ := releaseLocks_accounted sizes other good.arenaOk done
  exact ⟨_, counted, ltOk, arenaOk⟩

/-- An escalation counts exactly what it changes. -/
theorem escalate_good (other : Nat) :
    ∃ after buffers, accounted.escalate sizes (other + accounted.memory sizes) =
        some (after, buffers, other + after.memory sizes) ∧ after.Good := by
  -- The memory of the other lock trees is kept apart.
  obtain ⟨lt, buffers, -, done, ltOk, -⟩ := Locktree.escalate_kept good.ok .all (Stored.all _)
  obtain ⟨arena, counted, arenaOk⟩ :=
    escalate_accounted sizes other good.ok good.arenaOk done
  exact ⟨_, buffers, counted, ltOk, arenaOk⟩

end

end AccountedLocktree

namespace LocktreeManager

/-- All lock trees are in order, and what is counted is the memory of all of them. -/
structure Good (mgr : LocktreeManager Key) : Prop where
  each : ∀ accounted ∈ mgr.locktrees, accounted.Good
  counted : mgr.currentLockMemory = locktreesMemory sizes mgr.locktrees

variable {sizes}

omit [BoundedOrder Key] in
/-- Without lock trees nothing is counted. -/
theorem create_good (maxLockMemory : Nat) :
    (create maxLockMemory : LocktreeManager Key).Good sizes := by
  constructor
  · intro accounted member
    cases member
  · rfl

variable {mgr : LocktreeManager Key}

omit [BoundedOrder Key] in
/-- A new lock tree occupies nothing. -/
theorem getLt_good (good : mgr.Good sizes) :
    mgr.getLt.Good sizes := by
  -- The new lock tree comes behind the others.
  constructor
  · intro accounted member
    rcases List.mem_append.mp member with old | new
    · exact good.each accounted old
    · rw [List.mem_singleton.mp new]
      exact AccountedLocktree.create_good
  · rw [getLt, good.counted, locktreesMemory, locktreesMemory, List.map_append, List.sum_append]
    rfl

variable {place : Nat}

omit [BoundedOrder Key] in
/-- A lock tree in which nothing is held can be given up. -/
theorem releaseLt_good (good : mgr.Good sizes) {accounted : AccountedLocktree Key}
    (there : mgr.locktrees[place]? = some accounted) (nothing : accounted.lt.heldLocks = []) :
    ∃ after, mgr.releaseLt place = some after ∧ after.Good sizes := by
  -- The code checks that the tree is empty, and so is the buffer.
  have accountedGood := good.each accounted (List.mem_of_getElem? there)
  have empty : accounted.lt.rangetree.size = 0 :=
    Locktree.size_eq_zero_iff.mpr (accountedGood.empty nothing).1
  refine ⟨{ mgr with locktrees := mgr.locktrees.eraseIdx place }, ?_, ?_, ?_⟩
  · simp only [releaseLt, there, invariant_of empty, bind_runs]
  · exact fun other member => good.each other (List.mem_of_mem_eraseIdx member)
  · obtain ⟨other, before, -, erased⟩ := locktreesMemory_set sizes there
    rw [good.counted, before, erased, accountedGood.memory_eq_zero sizes nothing, Nat.add_zero]

omit [BoundedOrder Key] in
/-- Another limit changes nothing that is counted. -/
theorem setMaxLockMemory_good (good : mgr.Good sizes) (maxLockMemory : Nat) :
    (mgr.setMaxLockMemory maxLockMemory).Good sizes ∧
      (mgr.setMaxLockMemory maxLockMemory).locktrees = mgr.locktrees := by
  unfold setMaxLockMemory
  split
  · exact ⟨good, rfl⟩
  · exact ⟨⟨good.each, good.counted⟩, rfl⟩

/-- Escalating lock trees one after the other counts exactly what changes. -/
theorem escalateLocktrees_good : ∀ (locktrees : List (AccountedLocktree Key)) (other : Nat),
    (∀ accounted ∈ locktrees, accounted.Good) →
      ∃ after, escalateLocktrees sizes locktrees (other + locktreesMemory sizes locktrees) =
          some (after, other + locktreesMemory sizes after) ∧
        (∀ accounted ∈ after, accounted.Good) ∧ after.length = locktrees.length := by
  -- By induction on the lock trees, while the memory of the others is kept apart.
  intro locktrees
  induction locktrees with
  | nil =>
    intro other each
    exact ⟨[], rfl, each, rfl⟩
  | cons first rest ih =>
    intro other each
    obtain ⟨firstGood, restGood⟩ := List.forall_mem_cons.mp each
    obtain ⟨escalated, buffers, done, escalatedGood⟩ :=
      AccountedLocktree.escalate_good sizes firstGood (other + locktreesMemory sizes rest)
    obtain ⟨after, run, afterGood, sameLength⟩ :=
      ih (other + escalated.memory sizes) restGood
    have before : other + locktreesMemory sizes (first :: rest) =
        other + locktreesMemory sizes rest + first.memory sizes := by
      simp only [locktreesMemory, List.map_cons, List.sum_cons]
      omega
    refine ⟨_, ?_, List.forall_mem_cons.mpr ⟨escalatedGood, afterGood⟩,
      congrArg Nat.succ sameLength⟩
    rw [escalateLocktrees, before, done]
    simp only [bind_runs]
    rw [Nat.add_right_comm, run]
    simp only [Option.bind_some, Option.some.injEq, Prod.mk.injEq, true_and]
    simp only [locktreesMemory, List.map_cons, List.sum_cons]
    omega

/-- An escalation of all lock trees counts exactly what changes. -/
theorem runEscalation_good (good : mgr.Good sizes) :
    ∃ after, mgr.runEscalation sizes = some after ∧ after.Good sizes ∧
      after.locktrees.length = mgr.locktrees.length := by
  obtain ⟨locktrees, run, each, sameLength⟩ := escalateLocktrees_good mgr.locktrees 0 good.each
  rw [Nat.zero_add, Nat.zero_add, ← good.counted] at run
  refine ⟨{ mgr with
    locktrees := locktrees
    currentLockMemory := locktreesMemory sizes locktrees }, ?_, ⟨each, rfl⟩, sameLength⟩
  simp only [runEscalation, run, bind_runs]

/-- Escalating when too much memory is used counts exactly what changes. -/
theorem escalateIf_good (good : mgr.Good sizes) (exceeded : LocktreeManager Key → Bool) :
    ∃ after still, mgr.escalateIf sizes exceeded = some (after, still) ∧ after.Good sizes ∧
      after.locktrees.length = mgr.locktrees.length := by
  unfold escalateIf
  split
  · obtain ⟨after, run, afterGood, sameLength⟩ := runEscalation_good good
    exact ⟨after, _, by rw [run]; rfl, afterGood, sameLength⟩
  · exact ⟨mgr, false, rfl, good, rfl⟩

/-- Asking for memory counts exactly what changes. -/
theorem checkCurrentLockConstraints_good (good : mgr.Good sizes) (bigTxn : Bool) :
    ∃ after exhausted, mgr.checkCurrentLockConstraints sizes bigTxn = some (after, exhausted) ∧
      after.Good sizes ∧ after.locktrees.length = mgr.locktrees.length := by
  -- A big transaction escalates first on its own account.
  obtain ⟨middle, tooBig, first, middleGood, middleLength⟩ :=
    escalateIf_good good fun mgr => bigTxn && mgr.overBigThreshold
  rw [checkCurrentLockConstraints, first]
  cases tooBig with
  | true => exact ⟨middle, true, rfl, middleGood, middleLength⟩
  | false =>
    obtain ⟨after, still, second, afterGood, afterLength⟩ := escalateIf_good middleGood outOfLocks
    exact ⟨after, still, second, afterGood, afterLength.trans middleLength⟩

section

variable (good : mgr.Good sizes)
include good

omit [BoundedOrder Key] in
/-- A lock tree that counts what it changes may take the place of what it was. -/
theorem set_good
    {after : AccountedLocktree Key} (afterGood : after.Good) {other : Nat}
    (afterSet : locktreesMemory sizes (mgr.locktrees.set place after) =
      other + after.memory sizes) :
    Good sizes { mgr with
      locktrees := mgr.locktrees.set place after
      currentLockMemory := other + after.memory sizes } := by
  refine ⟨?_, afterSet.symm⟩
  intro member inSet
  rcases List.mem_or_eq_of_mem_set inSet with old | rfl
  · exact good.each member old
  · exact afterGood

/-- A request in a lock tree is granted or refused, and exactly what it changes is counted. -/
theorem acquireLock_good (inRange : place < mgr.locktrees.length) (txnid : Nat) (point : Bool)
    {range : Keyrange Key} (ordered : range.Ordered) :
    ∃ after result, mgr.acquireLock sizes place txnid point range = some (after, result) ∧
      after.Good sizes ∧ after.locktrees.length = mgr.locktrees.length ∧
      (result = .granted ∨ ∃ conflicts, result = .notGranted conflicts ∧ conflicts ≠ []) ∧
      ∃ accounted acquired : AccountedLocktree Key, accounted.Good ∧
        after.locktrees[place]? = some acquired ∧
        accounted.lt.acquireLock txnid range = some (acquired.lt, result) := by
  have there := List.getElem?_eq_getElem inRange
  obtain ⟨other, before, afterSet, -⟩ := locktreesMemory_set sizes there
  have accountedGood := good.each _ (List.mem_of_getElem? there)
  obtain ⟨acquired, result, done, acquiredGood, plain, outcome⟩ :=
    AccountedLocktree.acquireLock_good sizes accountedGood txnid point ordered other
  rw [← before, ← good.counted] at done
  refine ⟨_, result, ?_, set_good good acquiredGood (afterSet _), List.length_set, outcome, _,
    acquired, accountedGood, List.getElem?_set_self inRange, plain⟩
  simp only [acquireLock, there, done, bind_runs]

/-- A request is out of memory, granted or refused, and exactly what it changes is counted. -/
theorem tryAcquireLock_good (inRange : place < mgr.locktrees.length) (bigTxn : Bool) (txnid : Nat)
    (point : Bool) {range : Keyrange Key} (ordered : range.Ordered) :
    ∃ checked exhausted after result,
      mgr.checkCurrentLockConstraints sizes bigTxn = some (checked, exhausted) ∧
      mgr.tryAcquireLock sizes place bigTxn txnid point range = some (after, result) ∧
      after.Good sizes ∧ after.locktrees.length = mgr.locktrees.length ∧
      (exhausted = true → result = .outOfLocks) ∧
      (exhausted = false →
        (result = .granted ∨ ∃ conflicts, result = .notGranted conflicts ∧ conflicts ≠ []) ∧
        ∃ accounted acquired : AccountedLocktree Key, accounted.Good ∧
          after.locktrees[place]? = some acquired ∧
          accounted.lt.acquireLock txnid range = some (acquired.lt, result)) := by
  -- Memory is checked first, which may escalate, and only then locks are taken.
  obtain ⟨checked, exhausted, asked, checkedGood, sameLength⟩ :=
    checkCurrentLockConstraints_good good bigTxn
  refine ⟨checked, exhausted, ?_⟩
  rw [tryAcquireLock, asked]
  cases exhausted with
  | true => exact ⟨checked, .outOfLocks, rfl, rfl, checkedGood, sameLength, by simp, by simp⟩
  | false =>
    obtain ⟨after, result, done, afterGood, afterLength, outcome, plain⟩ :=
      acquireLock_good checkedGood (sameLength.symm ▸ inRange) txnid point ordered
    exact ⟨after, result, rfl, done, afterGood, afterLength.trans sameLength, by simp,
      fun _ => ⟨outcome, plain⟩⟩

/-- A release counts exactly what it changes. -/
theorem releaseLocks_good {txnid : Nat} {ranges : List (Keyrange Key)}
    (ordered : ∀ range ∈ ranges, range.Ordered) {accounted : AccountedLocktree Key}
    (there : mgr.locktrees[place]? = some accounted)
    (own : ∀ owner ∈ accounted.lt.stoTxnid, owner = txnid) :
    ∃ after, mgr.releaseLocks sizes place txnid ranges = some after ∧ after.Good sizes ∧
      after.locktrees.length = mgr.locktrees.length := by
  obtain ⟨other, before, afterSet, -⟩ := locktreesMemory_set sizes there
  obtain ⟨released, done, releasedGood⟩ := AccountedLocktree.releaseLocks_good sizes
    (good.each _ (List.mem_of_getElem? there)) ordered own other
  rw [← before, ← good.counted] at done
  refine ⟨_, ?_, set_good good releasedGood (afterSet _), List.length_set⟩
  simp only [releaseLocks, there, done, bind_runs]

/-- An escalation of one lock tree counts exactly what it changes. -/
theorem escalate_good (inRange : place < mgr.locktrees.length) :
    ∃ after, mgr.escalate sizes place = some after ∧ after.Good sizes ∧
      after.locktrees.length = mgr.locktrees.length := by
  have there := List.getElem?_eq_getElem inRange
  obtain ⟨other, before, afterSet, -⟩ := locktreesMemory_set sizes there
  obtain ⟨escalated, buffers, done, escalatedGood⟩ := AccountedLocktree.escalate_good sizes
    (good.each _ (List.mem_of_getElem? there)) other
  rw [← before, ← good.counted] at done
  refine ⟨_, ?_, set_good good escalatedGood (afterSet _), List.length_set⟩
  simp only [escalate, there, done, bind_runs]

/-- Every allowed event passes all checks and is counted exactly. -/
theorem next_good {event : ManagerEvent Key} (allowed : mgr.Allowed event) :
    ∃ after result, mgr.next sizes event = some (after, result) ∧ after.Good sizes := by
  -- One case for each event, by the law of its function.
  cases event with
  | getLt => exact ⟨_, _, rfl, getLt_good good⟩
  | releaseLt place =>
    obtain ⟨accounted, there, nothing⟩ := allowed
    obtain ⟨after, done, afterGood⟩ := releaseLt_good good there nothing
    exact ⟨after, _, by rw [next, done]; rfl, afterGood⟩
  | setMaxLockMemory maxLockMemory =>
    exact ⟨_, _, rfl, (setMaxLockMemory_good good maxLockMemory).1⟩
  | acquireLock place txnid point range =>
    obtain ⟨inRange, ordered, -⟩ := allowed
    obtain ⟨after, result, done, afterGood, -⟩ := acquireLock_good good inRange txnid point ordered
    exact ⟨after, _, by rw [next, done]; rfl, afterGood⟩
  | tryAcquireLock place bigTxn txnid point range =>
    obtain ⟨inRange, ordered, -⟩ := allowed
    obtain ⟨-, -, after, result, -, done, afterGood, -⟩ :=
      tryAcquireLock_good good inRange bigTxn txnid point ordered
    exact ⟨after, _, by rw [next, done]; rfl, afterGood⟩
  | releaseLocks place txnid ranges =>
    obtain ⟨ordered, accounted, there, own⟩ := allowed
    obtain ⟨after, done, afterGood, -⟩ := releaseLocks_good good ordered there own
    exact ⟨after, _, by rw [next, done]; rfl, afterGood⟩
  | escalate place =>
    obtain ⟨after, done, afterGood, -⟩ := escalate_good good allowed
    exact ⟨after, _, by rw [next, done]; rfl, afterGood⟩
  | runEscalation =>
    obtain ⟨after, done, afterGood, -⟩ := runEscalation_good good
    exact ⟨after, _, by rw [next, done]; rfl, afterGood⟩

end

/-- Along every run exactly what is held is counted. -/
theorem run_good {maxLockMemory : Nat} {events : List (ManagerEvent Key)}
    (run : Runs (Step sizes) (create maxLockMemory) events mgr) :
    mgr.Good sizes := by
  refine run.invariant (create_good maxLockMemory) ?_
  rintro before event after good ⟨allowed, result, done⟩
  obtain ⟨same, sameResult, sameDone, sameGood⟩ := next_good good allowed
  rw [done] at sameDone
  obtain ⟨rfl, -⟩ := Prod.ext_iff.mp (Option.some.inj sameDone)
  exact sameGood

end LocktreeManager

/-- The counter is the memory of all locks in the trees and of the buffers, releases never take it
below zero, and it is zero as soon as nothing is held. -/
theorem lockMemory_exact (sizes : LockSizes Key) {maxLockMemory : Nat}
    {events : List (ManagerEvent Key)} {mgr : LocktreeManager Key}
    (run : Runs (LocktreeManager.Step sizes) (LocktreeManager.create maxLockMemory) events mgr) :
    mgr.currentLockMemory = (mgr.locktrees.map fun accounted =>
      (accounted.lt.rangetree.locks.map (rowLockSizeInTree sizes)).sum +
        accounted.stoArena.totalSizeInUse).sum ∧
    (∀ event, mgr.Allowed event → (mgr.next sizes event).isSome = true) ∧
    ((∀ accounted ∈ mgr.locktrees, accounted.lt.heldLocks = []) →
      mgr.currentLockMemory = 0) := by
  -- The counter is exact after every run, by induction over its steps.
  have good := LocktreeManager.run_good run
  refine ⟨good.counted, ?_, ?_⟩
  · intro event allowed
    obtain ⟨after, result, done, -⟩ := LocktreeManager.next_good good allowed
    rw [done]
    rfl
  · intro nothing
    rw [good.counted, locktreesMemory, List.sum_eq_zero_iff_forall_eq_nat]
    intro memory member
    obtain ⟨accounted, inList, rfl⟩ := List.mem_map.mp member
    exact (good.each accounted inList).memory_eq_zero sizes (nothing accounted inList)

namespace LocktreeManager

instance (mgr : LocktreeManager Key) (event : ManagerEvent Key) :
    Decidable (mgr.Allowed event) := by
  cases event <;> dsimp only [Allowed] <;> infer_instance

/-- Take a step that may be taken. -/
def nextAllowed (mgr : LocktreeManager Key) (event : ManagerEvent Key) :
    Option (LocktreeManager Key) := do
  invariant (mgr.Allowed event)
  let (mgr, _) ← mgr.next sizes event
  return mgr

/-- What may be done and is done is a step. -/
theorem of_nextAllowed {mgr after : LocktreeManager Key} {event : ManagerEvent Key}
    (done : mgr.nextAllowed sizes event = some after) : mgr.Step sizes event after := by
  obtain ⟨allowed, taken⟩ := of_invariant done
  simp only [bind_inv] at taken
  obtain ⟨⟨_, result⟩, came, rfl⟩ := taken
  exact ⟨allowed, result, came⟩

end LocktreeManager

/-- Keys of one to ten bytes, with structs of some size around them. -/
def smallSizes : LockSizes (Fin 10) where
  key := fun key => key.val + 1
  keyrange := 40
  treenode := 100
  recordHeader := 8
  headerPositive := by decide

/-- A transaction fills the buffer of a lock tree, and its conflict with another one ends that;
an escalation merges what both hold in two lock trees. -/
def countedEvents : List (ManagerEvent (Fin 10)) :=
  [.getLt, .getLt, .tryAcquireLock 0 false 1 true ⟨2, 2⟩, .tryAcquireLock 0 false 1 false ⟨1, 5⟩,
    .tryAcquireLock 1 false 2 false ⟨3, 4⟩, .tryAcquireLock 0 true 2 true ⟨4, 4⟩,
    .tryAcquireLock 0 false 1 true ⟨7, 7⟩, .runEscalation]

/-- Then both transactions release what they hold. -/
def releasedEvents : List (ManagerEvent (Fin 10)) :=
  countedEvents ++ [.releaseLocks 0 1 [⟨1, 7⟩], .releaseLocks 1 2 [⟨3, 4⟩]]

/-- All of it is counted, and after both have released their locks nothing is. -/
theorem lockMemory_exact_counted :
    (∃ mgr, Runs (LocktreeManager.Step smallSizes) (LocktreeManager.create 1000) countedEvents mgr ∧
      mgr.currentLockMemory = 299 ∧ mgr.currentLockMemory = (mgr.locktrees.map fun accounted =>
        (accounted.lt.rangetree.locks.map (rowLockSizeInTree smallSizes)).sum +
          accounted.stoArena.totalSizeInUse).sum) ∧
    ∃ mgr, Runs (LocktreeManager.Step smallSizes) (LocktreeManager.create 1000) releasedEvents mgr ∧
      mgr.currentLockMemory = 0 := by
  constructor
  · have served : (countedEvents.foldlM (LocktreeManager.nextAllowed smallSizes)
        (.create 1000)).map LocktreeManager.currentLockMemory = some 299 := by
      decide +kernel
    obtain ⟨mgr, folded, counted⟩ := Option.map_eq_some_iff.mp served
    have run := (Runs.of_foldlM folded).mono (LocktreeManager.of_nextAllowed smallSizes)
    exact ⟨mgr, run, counted, (lockMemory_exact smallSizes run).1⟩
  · have served : (releasedEvents.foldlM (LocktreeManager.nextAllowed smallSizes)
        (.create 1000)).map (fun mgr => decide
          (∀ accounted ∈ mgr.locktrees, accounted.lt.heldLocks = [])) = some true := by
      decide +kernel
    obtain ⟨mgr, folded, nothing⟩ := Option.map_eq_some_iff.mp served
    have run := (Runs.of_foldlM folded).mono (LocktreeManager.of_nextAllowed smallSizes)
    exact ⟨mgr, run, (lockMemory_exact smallSizes run).2.2 (of_decide_eq_true nothing)⟩

end Tokuft
