import Tokuft.Locktree.LockRequestLaws

/-! What starting and retrying a request comes to, which keeps pending requests in order. -/

namespace Tokuft

variable {Key : Type} [LinearOrder Key] [BoundedOrder Key]

section

variable {lt after : Locktree Key} (ok : lt.Ok) {txnid : Nat} {range : Keyrange Key}
include ok

/-- A refusal leaves the locks in the tree, where conflicts are looked for. -/
theorem Locktree.acquireLock_idle {conflicts : List Nat}
    (refused : lt.acquireLock txnid range = some (after, .notGranted conflicts)) :
    after.stoTxnid = none := by
  -- A request that goes to the buffer is granted, and any other one ends the optimisation.
  simp only [acquireLock, bind_inv] at refused
  obtain ⟨⟨tried, lkr, acquired⟩, attempt, rest⟩ := refused
  rcases stoTryAcquire_cases ok (givesBack_lossless _) txnid range with ⟨-, -, -, buffered⟩ |
    ⟨moved, movedLkr, found, idle, -⟩
  · rw [attempt, Option.some.injEq, Prod.mk.injEq, Prod.mk.injEq] at buffered
    simp [buffered.2.2] at rest
  · rw [attempt, Option.some.injEq, Prod.mk.injEq, Prod.mk.injEq] at found
    obtain ⟨rfl, rfl, rfl⟩ := found
    simp only [Bool.false_eq_true, if_false, Option.bind_eq_some_iff, Option.some.injEq,
      Prod.mk.injEq] at rest
    obtain ⟨-, -, rfl, -⟩ := rest
    exact idle

/-- A refusal names the transactions that hold locks in the way, as they are held afterwards. -/
theorem Locktree.acquireLock_conflicts (ordered : range.Ordered) {conflicts : List Nat}
    (refused : lt.acquireLock txnid range = some (after, .notGranted conflicts)) :
    after.Ok ∧ after.heldLocks = after.rangetree.locks ∧
      ∀ other, other ∈ conflicts ↔ other ≠ txnid ∧ ∃ lock ∈ after.rangetree.locks,
        lock.txnid = other ∧ range.overlaps lock.range = true := by
  have held := heldLocks_idle (acquireLock_idle ok refused)
  obtain ⟨whenFree, whenTaken⟩ := acquireLock_exact ok (givesBack_lossless _) txnid ordered
  by_cases free : lt.Free txnid range
  · obtain ⟨granted, done, -⟩ := whenFree free
    rw [refused] at done
    cases done
  · obtain ⟨same, sameConflicts, done, afterOk, exactly⟩ := whenTaken free
    rw [refused, Option.some.injEq, Prod.mk.injEq, AcquireResult.notGranted.injEq] at done
    obtain ⟨rfl, rfl⟩ := done
    refine ⟨afterOk, held, fun other => ?_⟩
    rw [exactly.conflicts other, ← held,
      exactly.rearranged.overlaps_iff ok.ordered afterOk.ordered ordered other]

end

namespace LockRequest

/-- Looking for a deadlock passes every check, and finds one exactly when the request waits for
itself. -/
theorem deadlockExists_ok {requests : LockRequests Key} (ok : requests.Ok) {lt : Locktree Key}
    (locksOk : LocksOk lt.rangetree.locks) {request : LockRequest Key} (member : request ∈ requests)
    {conflicts : List Nat} (exactly : ∀ other, other ∈ conflicts ↔
      WaitsFor lt.rangetree.locks requests request.txnid other) :
    ∃ tree answer, request.deadlockExists requests lt conflicts =
        some ({ lt with rangetree := tree }, answer) ∧ tree.locks = lt.rangetree.locks ∧
      (answer = true ↔ Relation.TransGen (WaitsFor lt.rangetree.locks requests)
        request.txnid request.txnid) := by
  -- There is room in the walk for every request that it may still visit.
  have few : missing requests [] < requests.length + 1 :=
    Nat.lt_succ_of_le List.countP_le_length
  obtain ⟨tree, graph, built, same, graphBuilt, -, complete⟩ :=
    @buildWaitGraph_builds Key _ lt.rangetree.locks requests _ ok locksOk
      (requests.length + 1) lt []
      request conflicts {request.txnid} rfl member (.nil _) rfl few exactly
  obtain ⟨answer, searched, iff⟩ :=
    Wfg.cycleExistsFromTxnid_ok graphBuilt.ok graphBuilt.unvisited request.txnid
  have pending : (requests.findLockRequest request.txnid).isSome = true := by
    rw [ok.findLockRequest_eq_some.mpr ⟨member, rfl⟩]
    rfl
  refine ⟨tree, answer, ?_, same, iff.trans (transGen_edge_iff graphBuilt complete pending)⟩
  simp only [deadlockExists, built, searched, bind_runs]

end LockRequest

/-- A set with a transaction has a first one. -/
theorem txnidSetGet_zero {txnids : List Nat} (some' : txnids ≠ []) :
    ∃ txnid ∈ txnids, txnidSetGet txnids 0 = some txnid := by
  have positive : 0 < txnids.length := List.length_pos_iff.mpr some'
  have inRange : 0 < (txnidSetTxnids txnids).length := by
    rwa [txnidSetTxnids, List.length_insertionSort]
  refine ⟨(txnidSetTxnids txnids)[0], mem_txnidSetTxnids.mp (List.getElem_mem inRange), ?_⟩
  simp only [txnidSetGet, invariant_of positive, List.getElem?_eq_getElem inRange, bind_runs]

namespace LocktreeManager

variable {sizes : LockSizes Key} {mgr : LocktreeManager Key}

omit [BoundedOrder Key] in
/-- A tree with the same locks may take the place of another one. -/
theorem setTree_good (good : mgr.Good sizes) {place : Nat} {accounted : AccountedLocktree Key}
    (there : mgr.locktrees[place]? = some accounted) {tree : Treenode Key}
    (same : tree.locks = accounted.lt.rangetree.locks) :
    Good sizes { mgr with
      locktrees := mgr.locktrees.set place
        { accounted with lt := { accounted.lt with rangetree := tree } } } := by
  have accountedGood := good.each accounted (List.mem_of_getElem? there)
  obtain ⟨other, before, afterSet, -⟩ := locktreesMemory_set sizes there
  constructor
  · intro member inSet
    rcases List.mem_or_eq_of_mem_set inSet with old | rfl
    · exact good.each member old
    · refine ⟨⟨same.symm ▸ accountedGood.ok.treeOk, accountedGood.ok.bufferOrdered,
        accountedGood.ok.idle, ?_⟩, accountedGood.arenaOk.arenaOk, accountedGood.arenaOk.empty⟩
      intro owner active
      obtain ⟨buffered, empty⟩ := accountedGood.ok.active owner active
      exact ⟨buffered, same.trans empty⟩
  · rw [good.counted, before, afterSet]
    simp only [AccountedLocktree.memory, same]

/-- Memory is left for another lock, at once or after an escalation. -/
def HasRoom (sizes : LockSizes Key) (mgr : LocktreeManager Key) (bigTxn : Bool) : Prop :=
  let limit := if bigTxn then mgr.maxLockMemory / 2 else mgr.maxLockMemory
  mgr.currentLockMemory < limit ∨
    ∃ escalated, mgr.runEscalation sizes = some escalated ∧ escalated.currentLockMemory < limit

section

variable {escalated : LocktreeManager Key} (run : mgr.runEscalation sizes = some escalated)
include run

/-- An escalation keeps the limit. -/
theorem runEscalation_maxLockMemory :
    escalated.maxLockMemory = mgr.maxLockMemory := by
  simp only [runEscalation, bind_inv] at run
  obtain ⟨-, -, rfl⟩ := run
  rfl

/-- Where too much memory is used, what an escalation leaves of it decides. -/
theorem escalateIf_eq (exceeded : LocktreeManager Key → Bool) :
    mgr.escalateIf sizes exceeded =
      some (if exceeded mgr then (escalated, exceeded escalated) else (mgr, false)) := by
  unfold escalateIf
  split
  · rw [run]
    rfl
  · rfl

end

/-- Memory is exhausted exactly when no room is left. -/
theorem checkCurrentLockConstraints_iff {checked : LocktreeManager Key} (good : mgr.Good sizes)
    {bigTxn exhausted : Bool}
    (asked : mgr.checkCurrentLockConstraints sizes bigTxn = some (checked, exhausted)) :
    exhausted = false ↔ HasRoom sizes mgr bigTxn := by
  obtain ⟨escalated, run, -, -⟩ := runEscalation_good good
  have sameMax := runEscalation_maxLockMemory run
  have room : HasRoom sizes mgr bigTxn ↔
      mgr.currentLockMemory < (if bigTxn then mgr.maxLockMemory / 2 else mgr.maxLockMemory) ∨
      escalated.currentLockMemory <
        (if bigTxn then mgr.maxLockMemory / 2 else mgr.maxLockMemory) := by
    simp [HasRoom, run]
  rw [room]
  rw [checkCurrentLockConstraints, escalateIf_eq run] at asked
  cases bigTxn with
  | false =>
    simp only [Bool.false_and, Bool.false_eq_true, if_false, bind_runs, escalateIf_eq run,
      outOfLocks, decide_eq_true_eq, sameMax] at asked ⊢
    split at asked
    · simp only [Option.some.injEq, Prod.mk.injEq] at asked
      rw [← asked.2, decide_eq_false_iff_not]
      omega
    · simp only [Option.some.injEq, Prod.mk.injEq] at asked
      simp only [← asked.2, true_iff]
      omega
  | true =>
    simp only [Bool.true_and, if_true, bind_runs, overBigThreshold, decide_eq_true_eq,
      sameMax] at asked ⊢
    by_cases big : mgr.maxLockMemory / 2 ≤ mgr.currentLockMemory
    · rw [if_pos big] at asked
      by_cases still : mgr.maxLockMemory / 2 ≤ escalated.currentLockMemory
      · simp only [still, decide_true, if_true, Option.some.injEq,
          Prod.mk.injEq] at asked
        simp only [← asked.2, Bool.true_eq_false, false_iff]
        omega
      · -- What is below half of the limit is below the limit.
        have below : ¬ escalated.maxLockMemory ≤ escalated.currentLockMemory := by omega
        simp only [still, decide_false, Bool.false_eq_true, if_false, escalateIf, outOfLocks, below,
          Option.some.injEq, Prod.mk.injEq] at asked
        simp only [← asked.2, true_iff]
        omega
    · have below : ¬ mgr.maxLockMemory ≤ mgr.currentLockMemory := by omega
      simp only [if_neg big, Bool.false_eq_true, if_false, escalateIf, outOfLocks, below,
        decide_false, Option.some.injEq, Prod.mk.injEq] at asked
      simp only [← asked.2, true_iff]
      omega

end LocktreeManager

namespace LockRequests

variable {requests : LockRequests Key} {request : LockRequest Key}

section

variable (ok : requests.Ok)
include ok

omit [BoundedOrder Key] in
/-- Removing a request keeps the others in order. -/
theorem Ok.erase (request : LockRequest Key) :
    LockRequests.Ok (requests.erase request) :=
  ⟨ok.sorted.sublist List.erase_sublist,
    fun other member => ok.pending other (List.mem_of_mem_erase member),
    fun other member => ok.ordered other (List.mem_of_mem_erase member)⟩

omit [BoundedOrder Key] in
/-- The request of a transaction can be removed. -/
theorem Ok.removeFromLockRequests (member : request ∈ requests) :
    requests.removeFromLockRequests request = some (requests.erase request) := by
  have found := ok.findLockRequest_eq_some.mpr ⟨member, rfl⟩
  simp only [LockRequests.removeFromLockRequests, found, invariant_of trivial, bind_runs]

omit [BoundedOrder Key] in
/-- After a removal the request of its transaction is gone, and no other one. -/
theorem Ok.findLockRequest_erase (member : request ∈ requests) (txnid : Nat) :
    findLockRequest (requests.erase request) txnid =
      if txnid = request.txnid then none else requests.findLockRequest txnid := by
  -- No two requests are of one transaction.
  have nodup : requests.Nodup :=
    ok.sorted.imp fun before same => absurd (congrArg LockRequest.txnid same) before.ne
  split
  · rename_i own
    rw [findLockRequest_eq_none]
    intro other inRest same
    have both := ok.findLockRequest_eq_some.mpr ⟨List.mem_of_mem_erase inRest, same.trans own⟩
    rw [ok.findLockRequest_eq_some.mpr ⟨member, rfl⟩, Option.some.injEq] at both
    exact nodup.not_mem_erase (both ▸ inRest)
  · rename_i different
    refine Option.ext fun other => ?_
    rw [(ok.erase request).findLockRequest_eq_some, ok.findLockRequest_eq_some]
    refine and_congr_left fun own => List.mem_erase_of_ne ?_
    rintro rfl
    exact different own.symm

omit [BoundedOrder Key] in
/-- A pending request of the same transaction may replace a request. -/
theorem Ok.replaceRequest (pending : request.state = .pending) (ordered : request.range.Ordered) :
    LockRequests.Ok (LockRequestWorld.replaceRequest request requests) := by
  -- The transactions stay the same, and so does their order.
  have sameTxnid (other : LockRequest Key) :
      (if other.txnid = request.txnid then request else other).txnid = other.txnid := by
    split
    · rename_i same
      exact same.symm
    · rfl
  refine ⟨List.pairwise_map.mpr (ok.sorted.imp fun before => by rwa [sameTxnid, sameTxnid]),
    ?_, ?_⟩
  · intro other member
    obtain ⟨old, inOld, rfl⟩ := List.mem_map.mp member
    split
    · exact pending
    · exact ok.pending old inOld
  · intro other member
    obtain ⟨old, inOld, rfl⟩ := List.mem_map.mp member
    split
    · exact ordered
    · exact ok.ordered old inOld

omit [BoundedOrder Key] in
/-- A replaced request is found in place of the old one, and all others as before. -/
theorem Ok.findLockRequest_replaceRequest {old : LockRequest Key} (member : old ∈ requests)
    (same : request.txnid = old.txnid) (pending : request.state = .pending)
    (ordered : request.range.Ordered) (txnid : Nat) :
    findLockRequest (LockRequestWorld.replaceRequest request requests) txnid =
      if txnid = request.txnid then some request else requests.findLockRequest txnid := by
  -- Requests are told apart by their transactions.
  have replacedOk := ok.replaceRequest pending ordered
  split
  · rename_i own
    refine replacedOk.findLockRequest_eq_some.mpr ⟨List.mem_map.mpr ⟨old, member, ?_⟩, own.symm⟩
    rw [if_pos same.symm]
  · rename_i different
    refine Option.ext fun other => ?_
    rw [replacedOk.findLockRequest_eq_some, ok.findLockRequest_eq_some]
    refine and_congr_left fun own => ?_
    rw [LockRequestWorld.replaceRequest, List.mem_map]
    constructor
    · rintro ⟨before, inOld, rfl⟩
      split at own
      · exact absurd own.symm different
      · rename_i others
        rwa [if_neg others]
    · intro inOld
      refine ⟨other, inOld, if_neg fun sameTxnid => different ?_⟩
      rw [← own, sameTxnid]

end

end LockRequests

namespace LockRequestWorld

variable (sizes : LockSizes Key)

/-- The manager counts what is held, and every lock tree has its requests in order. -/
structure Good (world : LockRequestWorld Key) : Prop where
  mgr : world.mgr.Good sizes
  length : world.requests.length = world.mgr.locktrees.length
  requests : ∀ requests ∈ world.requests, LockRequests.Ok requests

variable {sizes}

variable {world : LockRequestWorld Key} {requests : LockRequests Key}

omit [BoundedOrder Key] in
/-- The lock tree and its requests may be replaced together. -/
theorem Good.set (good : world.Good sizes) {mgr : LocktreeManager Key} (mgrGood : mgr.Good sizes)
    (sameLength : mgr.locktrees.length = world.mgr.locktrees.length) (place : Nat)
    (ok : requests.Ok) :
    Good sizes { mgr, requests := world.requests.set place requests } := by
  refine ⟨mgrGood, ?_, ?_⟩
  · rw [List.length_set, good.length, sameLength]
  · intro member inSet
    rcases List.mem_or_eq_of_mem_set inSet with old | rfl
    · exact good.requests member old
    · exact ok

variable {place : Nat}

/-- A request that is started is granted, refused for lack of memory, or pending unless it would
wait for itself. -/
theorem start_good (good : world.Good sizes) {request : LockRequest Key}
    (ordered : request.range.Ordered) (there : world.requests[place]? = some requests)
    (new : requests.findLockRequest request.txnid = none) :
    ∃ after answer, world.start sizes place request = some (after, answer) ∧ after.Good sizes ∧
      ∀ mgr conflicts, world.mgr.tryAcquireLock sizes place request.bigTxn request.txnid
          request.point request.range = some (mgr, .notGranted conflicts) →
        ∃ acquired, mgr.locktrees[place]? = some acquired ∧
          (answer.state = .pending ∨ answer.state = .complete .deadlock) ∧
          (answer.state = .complete .deadlock ↔
            Relation.TransGen (WaitsFor acquired.lt.heldLocks (request :: requests))
              request.txnid request.txnid) := by
  have inRange : place < world.mgr.locktrees.length := by
    rw [← good.length]
    exact (List.getElem?_eq_some_iff.mp there).1
  have requestsOk := good.requests requests (List.mem_of_getElem? there)
  obtain ⟨-, exhausted, mgr, result, -, done, mgrGood, sameLength, whenExhausted, whenNot⟩ :=
    LocktreeManager.tryAcquireLock_good good.mgr inRange request.bigTxn request.txnid
      request.point ordered
  have mgrOnly : Good sizes { world with mgr } :=
    ⟨mgrGood, good.length.trans sameLength.symm, good.requests⟩
  rw [start, done]
  simp only [bind_runs]
  cases result with
  | granted => exact ⟨_, _, rfl, mgrOnly, by simp⟩
  | outOfLocks => exact ⟨_, _, rfl, mgrOnly, by simp⟩
  | notGranted conflicts =>
    cases exhausted with
    | true => simp at whenExhausted
    | false =>
      obtain ⟨outcome, accounted, acquired, accountedGood, atPlace, plain⟩ := whenNot rfl
      obtain ⟨acquiredOk, held, exactly⟩ :=
        Locktree.acquireLock_conflicts accountedGood.ok ordered plain
      have nonempty : conflicts ≠ [] := by
        rcases outcome with wrong | ⟨same, isSame, nonempty⟩
        · cases wrong
        · cases isSame
          exact nonempty
      obtain ⟨conflictingTxnid, -, first⟩ := txnidSetGet_zero nonempty
      generalize pendingEq : ({ request.copyKeys with
        state := .pending
        conflictingTxnid := some conflictingTxnid } : LockRequest Key) = pending
      have sameTxnid : pending.txnid = request.txnid := by rw [← pendingEq]; rfl
      have sameRange : pending.range = request.range := by rw [← pendingEq]; rfl
      have isPending : pending.state = .pending := by rw [← pendingEq]
      have alone := LockRequests.findLockRequest_eq_none.mp new
      have insertedOk := requestsOk.insertSorted (by rw [sameTxnid]; exact alone) isPending
        (by rw [sameRange]; exact ordered)
      have perm := LockRequests.insertSorted_perm pending requests
      -- For waiting only the transaction and the range of the request matter.
      have sameWaits : WaitsFor acquired.lt.heldLocks
          (LockRequests.insertSorted pending requests) =
          WaitsFor acquired.lt.heldLocks (request :: requests) := by
        funext txnid other
        rw [WaitsFor, WaitsFor]
        refine propext (and_congr_right fun _ => ?_)
        have members : (∃ member ∈ LockRequests.insertSorted pending requests,
            member.txnid = txnid ∧ ∃ lock ∈ acquired.lt.heldLocks, lock.txnid = other ∧
              member.range.overlaps lock.range = true) ↔
            ∃ member ∈ pending :: requests, member.txnid = txnid ∧
              ∃ lock ∈ acquired.lt.heldLocks, lock.txnid = other ∧
                member.range.overlaps lock.range = true :=
          exists_congr fun member => and_congr_left fun _ => perm.mem_iff
        rw [members, List.exists_mem_cons_iff, List.exists_mem_cons_iff, sameTxnid, sameRange]
      have member : pending ∈ LockRequests.insertSorted pending requests :=
        perm.mem_iff.mpr List.mem_cons_self
      obtain ⟨tree, deadlock, searched, sameLocks, iff⟩ :=
        LockRequest.deadlockExists_ok insertedOk acquiredOk.treeOk member (by
          intro other
          rw [exactly other, LockRequest.waitsFor_iff insertedOk member, sameTxnid, sameRange])
      rw [← held, sameTxnid, sameWaits] at iff
      have treeGood := LocktreeManager.setTree_good mgrGood atPlace sameLocks
      have treeLength : (mgr.locktrees.set place
          { acquired with lt := { acquired.lt with rangetree := tree } }).length =
          world.mgr.locktrees.length := List.length_set.trans sameLength
      have inserts : requests.insertIntoLockRequests pending =
          some (LockRequests.insertSorted pending requests) := by
        simp only [LockRequests.insertIntoLockRequests, sameTxnid, new, Option.isNone_none,
          invariant_of trivial, bind_runs]
      simp only [first, Option.bind_some, pendingEq, there, inserts, atPlace, searched]
      cases deadlock with
      | true =>
        refine ⟨_, pending.complete .deadlock, ?_,
          good.set treeGood treeLength place (insertedOk.erase pending), ?_⟩
        · simp only [if_true, insertedOk.removeFromLockRequests member, Option.bind_some]
        · rintro mgr' conflicts' same
          cases same
          exact ⟨acquired, atPlace, Or.inr rfl, iff_of_true rfl (iff.mp rfl)⟩
      | false =>
        refine ⟨_, pending, rfl, good.set treeGood treeLength place insertedOk, ?_⟩
        rintro mgr' conflicts' same
        cases same
        refine ⟨acquired, atPlace, Or.inl isPending, ?_⟩
        rw [isPending, ← iff]
        simp

/-- A retried request completes, or stays pending as it is but for the conflict that it names, and
no other request changes. -/
structure Survives (world : LockRequestWorld Key) (place : Nat) (request : LockRequest Key)
    (after : LockRequestWorld Key) (answer : LockRequest Key) : Prop where
  outcome : (answer = request.complete .granted ∧
      after.findLockRequest place request.txnid = none) ∨
    ∃ conflictingTxnid, answer = { request with conflictingTxnid := some conflictingTxnid } ∧
      after.findLockRequest place request.txnid = some answer
  others : ∀ otherPlace txnid, (otherPlace ≠ place ∨ txnid ≠ request.txnid) →
    after.findLockRequest otherPlace txnid = world.findLockRequest otherPlace txnid

omit [LinearOrder Key] [BoundedOrder Key] in
/-- What is found after the requests of a lock tree were replaced. -/
theorem findLockRequest_set {mgr : LocktreeManager Key} {before : LockRequests Key}
    (there : world.requests[place]? = some before) (otherPlace txnid : Nat) :
    findLockRequest { mgr, requests := world.requests.set place requests } otherPlace txnid =
      if otherPlace = place then requests.findLockRequest txnid
      else world.findLockRequest otherPlace txnid := by
  have inRange := (List.getElem?_eq_some_iff.mp there).1
  split
  · rename_i same
    subst same
    simp only [findLockRequest, List.getElem?_set_self inRange, bind_runs]
  · rename_i different
    simp only [findLockRequest, List.getElem?_set_ne (Ne.symm different)]

/-- A retried request survives exactly when there is room for another lock. -/
theorem retry_good (good : world.Good sizes) (there : world.requests[place]? = some requests)
    {request : LockRequest Key} (member : request ∈ requests) :
    (LocktreeManager.HasRoom sizes world.mgr request.bigTxn →
      ∃ after answer, world.retry sizes place request = some (after, answer) ∧
        after.Good sizes ∧ Survives world place request after answer) ∧
    (¬ LocktreeManager.HasRoom sizes world.mgr request.bigTxn →
      world.retry sizes place request = none) := by
  have inRange : place < world.mgr.locktrees.length := by
    rw [← good.length]
    exact (List.getElem?_eq_some_iff.mp there).1
  have ok := good.requests requests (List.mem_of_getElem? there)
  have isPending := ok.pending request member
  have ordered := ok.ordered request member
  have found : world.findLockRequest place request.txnid = some request := by
    simp only [findLockRequest, there, ok.findLockRequest_eq_some.mpr ⟨member, rfl⟩, bind_runs]
  obtain ⟨checked, exhausted, mgr, result, asked, done, mgrGood, sameLength, whenExhausted,
      whenNot⟩ := LocktreeManager.tryAcquireLock_good good.mgr inRange request.bigTxn
    request.txnid request.point ordered
  have room := LocktreeManager.checkCurrentLockConstraints_iff good.mgr asked
  rw [retry, done]
  simp only [invariant_of isPending, there, bind_runs]
  constructor
  · intro hasRoom
    obtain ⟨outcome, -⟩ := whenNot (room.mpr hasRoom)
    rcases outcome with rfl | ⟨conflicts, rfl, nonempty⟩
    · refine ⟨_, request.complete .granted, ?_, good.set mgrGood sameLength place
        (ok.erase request), ⟨Or.inl ⟨rfl, ?_⟩, ?_⟩⟩
      · simp only [ok.removeFromLockRequests member, Option.bind_some]
      · rw [findLockRequest_set there, if_pos rfl, ok.findLockRequest_erase member, if_pos rfl]
      · intro otherPlace txnid other
        rw [findLockRequest_set there, ok.findLockRequest_erase member]
        split
        · rename_i same
          subst same
          rw [if_neg (other.resolve_left fun different => different rfl), findLockRequest, there]
          rfl
        · rfl
    · obtain ⟨conflictingTxnid, -, first⟩ := txnidSetGet_zero nonempty
      generalize changedEq : ({ request with
        conflictingTxnid := some conflictingTxnid } : LockRequest Key) = changed
      have sameTxnid : changed.txnid = request.txnid := by rw [← changedEq]
      have changedPending : changed.state = .pending := by rw [← changedEq]; exact isPending
      have changedOrdered : changed.range.Ordered := by rw [← changedEq]; exact ordered
      have replaced := ok.findLockRequest_replaceRequest member sameTxnid changedPending
        changedOrdered
      refine ⟨_, changed, ?_, good.set mgrGood sameLength place
        (ok.replaceRequest changedPending changedOrdered),
        ⟨Or.inr ⟨conflictingTxnid, changedEq.symm, ?_⟩, ?_⟩⟩
      · simp only [first, Option.bind_some, changedEq]
      · rw [findLockRequest_set there, if_pos rfl, replaced, if_pos sameTxnid.symm]
      · intro otherPlace txnid other
        rw [findLockRequest_set there, replaced, sameTxnid]
        split
        · rename_i same
          subst same
          rw [if_neg (other.resolve_left fun different => different rfl), findLockRequest, there]
          rfl
        · rfl
  · intro noRoom
    have isExhausted : exhausted = true := by
      by_contra some'
      exact noRoom (room.mp (Bool.eq_false_iff.mpr some'))
    rw [whenExhausted isExhausted]
    -- The set of conflicts has no first transaction.
    rfl

end LockRequestWorld

end Tokuft
