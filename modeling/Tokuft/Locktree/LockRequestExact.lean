import Tokuft.Locktree.LockRequestGood

/-! Deadlocks are found exactly, and retries survive exactly as long as there is memory. -/

namespace Tokuft

variable {Key : Type} [LinearOrder Key] [BoundedOrder Key]

namespace LockRequestWorld

variable {sizes : LockSizes Key}

omit [BoundedOrder Key] in
/-- At first all is in order. -/
theorem create_good (maxLockMemory : Nat) :
    (create maxLockMemory : LockRequestWorld Key).Good sizes :=
  ⟨LocktreeManager.create_good maxLockMemory, rfl, by simp [create]⟩

variable {world : LockRequestWorld Key}

omit [LinearOrder Key] [BoundedOrder Key] in
/-- A request that is found is pending in its lock tree. -/
theorem of_findLockRequest {place txnid : Nat} {request : LockRequest Key}
    (found : world.findLockRequest place txnid = some request) :
    ∃ requests, world.requests[place]? = some requests ∧ request ∈ requests ∧
      request.txnid = txnid := by
  simp only [findLockRequest, bind_inv] at found
  obtain ⟨requests, there, inRequests⟩ := found
  exact ⟨requests, there, List.mem_of_find?_eq_some inRequests,
    by simpa using List.find?_some inRequests⟩

/-- Whatever happens keeps all in order. -/
theorem step_good {after : LockRequestWorld Key} (good : world.Good sizes)
    {event : LockRequestEvent Key} (step : world.Step sizes event after) : after.Good sizes := by
  -- One case for each event.
  obtain ⟨allowed, done⟩ := step
  cases event with
  | getLt =>
    cases done
    refine ⟨LocktreeManager.getLt_good good.mgr, ?_, ?_⟩
    · simp [LocktreeManager.getLt, good.length]
    · intro requests member
      rcases List.mem_append.mp member with old | new
      · exact good.requests requests old
      · rw [List.mem_singleton.mp new]
        exact ⟨List.Pairwise.nil, by simp, by simp⟩
  | releaseLt place =>
    obtain ⟨none, accounted, there, nothing⟩ := allowed
    obtain ⟨mgr, released, mgrGood⟩ := LocktreeManager.releaseLt_good good.mgr there nothing
    have sameTrees : mgr.locktrees = world.mgr.locktrees.eraseIdx place := by
      simp only [LocktreeManager.releaseLt, bind_inv] at released
      obtain ⟨-, -, -, -, rfl⟩ := released
      rfl
    simp only [next, none, invariant_of trivial, released, bind_runs, Option.some.injEq] at done
    subst done
    refine ⟨mgrGood, ?_, fun requests member => good.requests requests
      (List.mem_of_mem_eraseIdx member)⟩
    rw [sameTrees, List.length_eraseIdx, List.length_eraseIdx, good.length]
  | setMaxLockMemory maxLockMemory =>
    cases done
    obtain ⟨mgrGood, same⟩ := LocktreeManager.setMaxLockMemory_good good.mgr maxLockMemory
    exact ⟨mgrGood, by rw [same]; exact good.length, good.requests⟩
  | start place request =>
    obtain ⟨ordered, -, requests, there, new⟩ := allowed
    obtain ⟨started, answer, came, startedGood, -⟩ := start_good good ordered there new
    simp only [next, came, bind_runs, Option.some.injEq] at done
    exact done ▸ startedGood
  | retry place txnid =>
    obtain ⟨request, found⟩ := Option.isSome_iff_exists.mp allowed
    obtain ⟨requests, there, member, -⟩ := of_findLockRequest found
    obtain ⟨withRoom, withoutRoom⟩ := retry_good good there member
    by_cases room : LocktreeManager.HasRoom sizes world.mgr request.bigTxn
    · obtain ⟨retried, answer, came, retriedGood, -⟩ := withRoom room
      simp only [next, found, came, bind_runs, Option.some.injEq] at done
      exact done ▸ retriedGood
    · simp [next, found, withoutRoom room] at done
  | killWaiter place txnid =>
    obtain ⟨request, found⟩ := Option.isSome_iff_exists.mp allowed
    obtain ⟨requests, there, member, -⟩ := of_findLockRequest found
    have ok := good.requests requests (List.mem_of_getElem? there)
    simp only [next, found, killWaiter, there, ok.removeFromLockRequests member, bind_runs,
      Option.some.injEq] at done
    exact done ▸ good.set good.mgr rfl place (ok.erase request)
  | releaseLocks place txnid ranges =>
    obtain ⟨ordered, accounted, there, own⟩ := allowed
    obtain ⟨mgr, released, mgrGood, sameLength⟩ :=
      LocktreeManager.releaseLocks_good good.mgr ordered there own
    simp only [next, released, bind_runs, Option.some.injEq] at done
    exact done ▸ ⟨mgrGood, good.length.trans sameLength.symm, good.requests⟩
  | escalate place =>
    obtain ⟨mgr, escalated, mgrGood, sameLength⟩ :=
      LocktreeManager.escalate_good good.mgr allowed
    simp only [next, escalated, bind_runs, Option.some.injEq] at done
    exact done ▸ ⟨mgrGood, good.length.trans sameLength.symm, good.requests⟩
  | runEscalation =>
    obtain ⟨mgr, escalated, mgrGood, sameLength⟩ := LocktreeManager.runEscalation_good good.mgr
    simp only [next, escalated, bind_runs, Option.some.injEq] at done
    exact done ▸ ⟨mgrGood, good.length.trans sameLength.symm, good.requests⟩

/-- Along every run all is in order. -/
theorem run_good {maxLockMemory : Nat} {events : List (LockRequestEvent Key)}
    (run : Runs (Step sizes) (create maxLockMemory) events world) : world.Good sizes :=
  run.invariant (create_good maxLockMemory) fun good step => step_good good step

/-- A refused request fails as a deadlock exactly when its transaction waits for itself, through
transactions of which each waits for one that holds a lock on what it requests. -/
theorem deadlock_exact {world : LockRequestWorld Key} (good : world.Good sizes) {place : Nat}
    {request : LockRequest Key} (ordered : request.range.Ordered) {requests : LockRequests Key}
    (there : world.requests[place]? = some requests)
    (new : requests.findLockRequest request.txnid = none) {mgr : LocktreeManager Key}
    {conflicts : List Nat}
    (refused : world.mgr.tryAcquireLock sizes place request.bigTxn request.txnid request.point
      request.range = some (mgr, .notGranted conflicts)) :
    ∃ acquired after answer, mgr.locktrees[place]? = some acquired ∧
      world.start sizes place request = some (after, answer) ∧
      (answer.state = .pending ∨ answer.state = .complete .deadlock) ∧
      (answer.state = .complete .deadlock ↔
        Relation.TransGen (WaitsFor acquired.lt.heldLocks (request :: requests))
          request.txnid request.txnid) := by
  obtain ⟨after, answer, came, -, exactly⟩ := start_good good ordered there new
  obtain ⟨acquired, atPlace, outcome, iff⟩ := exactly mgr conflicts refused
  exact ⟨acquired, after, answer, atPlace, came, outcome, iff⟩

/-- In every reachable state a pending request survives a retry exactly when there is room for
another lock. -/
theorem retry_survives_iff {maxLockMemory : Nat} {events : List (LockRequestEvent Key)}
    {world : LockRequestWorld Key}
    (run : Runs (Step sizes) (create maxLockMemory) events world) {place txnid : Nat}
    {request : LockRequest Key} (pending : world.findLockRequest place txnid = some request) :
    (∃ after answer, world.retry sizes place request = some (after, answer) ∧
      Survives world place request after answer) ↔
      LocktreeManager.HasRoom sizes world.mgr request.bigTxn := by
  -- One case with room for another lock, and one without.
  obtain ⟨requests, there, member, -⟩ := of_findLockRequest pending
  obtain ⟨withRoom, withoutRoom⟩ := retry_good (run_good run) there member
  constructor
  · rintro ⟨after, answer, came, -⟩
    by_contra noRoom
    rw [withoutRoom noRoom] at came
    cases came
  · intro room
    obtain ⟨after, answer, came, -, survives⟩ := withRoom room
    exact ⟨after, answer, came, survives⟩

instance (world : LockRequestWorld Key) (event : LockRequestEvent Key) :
    Decidable (world.Allowed event) := by
  cases event <;> dsimp only [Allowed] <;> infer_instance

variable (sizes) in
/-- Take a step that may be taken. -/
def nextAllowed (world : LockRequestWorld Key) (event : LockRequestEvent Key) :
    Option (LockRequestWorld Key) := do
  invariant (world.Allowed event)
  world.next sizes event

/-- What may be done and is done is a step. -/
theorem of_nextAllowed {after : LockRequestWorld Key} {event : LockRequestEvent Key}
    (done : world.nextAllowed sizes event = some after) : world.Step sizes event after :=
  of_invariant done

end LockRequestWorld

/-- A request of a transaction for a single key. -/
def pointRequest (txnid : Nat) (key : Fin 10) : LockRequest (Fin 10) where
  txnid := txnid
  range := ⟨key, key⟩
  point := true
  bigTxn := false
  conflictingTxnid := none
  state := .initialized

/-- Two transactions hold a lock each, and the second one waits for that of the first. -/
def waitingEvents : List (LockRequestEvent (Fin 10)) :=
  [.getLt, .start 0 (pointRequest 1 1), .start 0 (pointRequest 2 5), .start 0 (pointRequest 2 1)]

/-- When the first transaction asks for the lock of the second one, which waits for it, that is a
deadlock. -/
theorem deadlock_exact_waiting :
    ∃ (world : LockRequestWorld (Fin 10)) (acquired : AccountedLocktree (Fin 10))
      (requests : LockRequests (Fin 10)) (answer : LockRequest (Fin 10)),
      Runs (LockRequestWorld.Step smallSizes) (.create 1000) waitingEvents world ∧
      answer.state = .complete .deadlock ∧
      Relation.TransGen (WaitsFor acquired.lt.heldLocks (pointRequest 1 5 :: requests)) 1 1 := by
  have served : (waitingEvents.foldlM (LockRequestWorld.nextAllowed smallSizes)
      (.create 1000)).map (fun world => decide ((world.requests[0]?.map fun requests =>
        requests.findLockRequest 1) = some none ∧
      (world.mgr.tryAcquireLock smallSizes 0 false 1 true ⟨5, 5⟩).map Prod.snd =
        some (.notGranted [2]) ∧
      (world.start smallSizes 0 (pointRequest 1 5)).map (LockRequest.state ∘ Prod.snd) =
        some (.complete .deadlock))) = some true := by
    decide +kernel
  obtain ⟨world, folded, outcome⟩ := Option.map_eq_some_iff.mp served
  obtain ⟨noRequest, refused, failed⟩ := of_decide_eq_true outcome
  have run := (Runs.of_foldlM folded).mono LockRequestWorld.of_nextAllowed
  obtain ⟨requests, there, new⟩ := Option.map_eq_some_iff.mp noRequest
  obtain ⟨⟨mgr, _⟩, refused, rfl⟩ := Option.map_eq_some_iff.mp refused
  have ordered : (pointRequest 1 5).range.Ordered := le_rfl
  obtain ⟨acquired, after, answer, -, came, -, exactly⟩ := LockRequestWorld.deadlock_exact
    (LockRequestWorld.run_good run) ordered there new refused
  rw [came] at failed
  have deadlock := Option.some.inj failed
  exact ⟨world, acquired, requests, answer, run, deadlock, exactly.mp deadlock⟩

/-- A third transaction takes what is left of the memory meanwhile. -/
def exhaustedEvents : List (LockRequestEvent (Fin 10)) :=
  [.getLt, .start 0 (pointRequest 1 1), .start 0 (pointRequest 2 1), .start 0 (pointRequest 3 5)]

/-- Then a retry of the second transaction does not survive. -/
theorem retry_exhausted :
    ∃ (world : LockRequestWorld (Fin 10)) (request : LockRequest (Fin 10)),
      Runs (LockRequestWorld.Step smallSizes) (.create 150) exhaustedEvents world ∧
      world.findLockRequest 0 2 = some request ∧ world.retry smallSizes 0 request = none := by
  have served : (exhaustedEvents.foldlM (LockRequestWorld.nextAllowed smallSizes)
      (.create 150)).map (fun world => (world.findLockRequest 0 2).map fun request =>
        (world.retry smallSizes 0 request).isNone) = some (some true) := by
    decide +kernel
  obtain ⟨world, folded, outcome⟩ := Option.map_eq_some_iff.mp served
  obtain ⟨request, found, failed⟩ := Option.map_eq_some_iff.mp outcome
  have run := (Runs.of_foldlM folded).mono LockRequestWorld.of_nextAllowed
  exact ⟨world, request, run, found, Option.isNone_iff_eq_none.mp failed⟩

/-- With more memory it survives. -/
theorem retry_survives_iff_room :
    ∃ (world : LockRequestWorld (Fin 10)) (request : LockRequest (Fin 10)),
      Runs (LockRequestWorld.Step smallSizes) (.create 1000) exhaustedEvents world ∧
      ∃ after answer, world.retry smallSizes 0 request = some (after, answer) ∧
        LockRequestWorld.Survives world 0 request after answer := by
  have served : (exhaustedEvents.foldlM (LockRequestWorld.nextAllowed smallSizes)
      (.create 1000)).map (fun world => (world.findLockRequest 0 2).map fun request =>
        (request.bigTxn, decide (world.mgr.currentLockMemory < world.mgr.maxLockMemory))) =
      some (some (false, true)) := by
    decide +kernel
  obtain ⟨world, folded, outcome⟩ := Option.map_eq_some_iff.mp served
  obtain ⟨request, found, small⟩ := Option.map_eq_some_iff.mp outcome
  rw [Prod.mk.injEq] at small
  have run := (Runs.of_foldlM folded).mono LockRequestWorld.of_nextAllowed
  have room : LocktreeManager.HasRoom smallSizes world.mgr request.bigTxn := by
    rw [LocktreeManager.HasRoom, small.1]
    exact .inl (of_decide_eq_true small.2)
  exact ⟨world, request, run, (LockRequestWorld.retry_survives_iff run found).mpr room⟩

end Tokuft
