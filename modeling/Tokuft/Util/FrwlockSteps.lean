import Tokuft.Util.FrwlockLaws

/-! Each critical section of the lock, and the crew it leads to. -/

namespace Tokuft

namespace LockCrew

variable {Thread Context : Type} [DecidableEq Thread] {crew : LockCrew Thread}
  {world : LockWorld Thread Context} {t : Thread}

variable {inside called waiting : List Thread} {queue : List (LockEntry Thread)}

/-- A reader comes in at once when no writer has the lock or wants it. -/
theorem Staffs.readLock_now (staffs : Staffs ⟨.readers inside called, [], []⟩ world)
    (idle : world.phase t = .idle) :
    Staffs ⟨.readers (t :: inside) called, [], []⟩
      (world.at' t { world.lock with numReaders := world.lock.numReaders + 1 } .reading) where
  places := staffs.places.enterRead idle
  counts := { staffs.counts with
    numReaders := by
      show world.lock.numReaders + 1 = _
      rw [staffs.counts.numReaders]
      rfl }
  waits := ⟨by simp, fun _ _ _ first rest empty => by cases empty⟩
  prices := ⟨staffs.prices.absent, fun member => by simp at member⟩
  order := { staffs.order with
    signaled := fun u either =>
      staffs.order.signaled u (by simpa [Signaled, LockTurn.called] using either)
    alone := fun u e either => by simp at either }

/-- A reader joins those that wait. -/
theorem Staffs.readLock_join (staffs : crew.Staffs world) (idle : world.phase t = .idle)
    (queued : .readers ∈ crew.queue) :
    Staffs { crew with waiting := t :: crew.waiting }
      { world.wait t { world.lock with numWantRead := world.lock.numWantRead + 1 } .waitingRead
          world.readTicket with readTicket := world.readTicket } where
  places := staffs.places.queueRead idle crew.queue fun _ _ => Iff.rfl
  counts := { staffs.counts with
    numWantRead := by
      show world.lock.numWantRead + 1 = _
      rw [staffs.counts.numWantRead]
      simp only [List.length_cons]
      omega }
  waits := ⟨by simp [queued], staffs.waits.shared⟩
  prices := ⟨staffs.prices.absent, staffs.prices.ahead⟩
  order := by
    -- The reader gets the ticket of those it joins.
    obtain ⟨kept, -, -⟩ := staffs.order.wait _ _ staffs.places idle (fun _ => rfl)
    refine { kept with group := fun u member => ?_ }
    rcases List.mem_cons.mp member with same | among
    · rw [same]
      exact Function.update_self _ _ _
    · exact kept.group u among

omit [DecidableEq Thread] in
/-- What is expensive is counted. -/
theorem Counts.expensive {lock : Frwlock Thread Context} (counts : crew.Counts lock)
    (found : (crew.queue.any LockEntry.isExpensive || crew.turn.writerExpensive ||
      crew.turn.signaledExpensive) = true) :
    (lock.currentWriterExpensive || decide (0 < lock.numExpensiveWantWrite)) = true := by
  -- The flag stands for the writer inside, and the counter for all writers that want the lock.
  rw [counts.currentWriterExpensive, counts.numExpensiveWantWrite]
  rw [Bool.or_eq_true, Bool.or_eq_true, List.any_eq_true] at found
  rcases found with (⟨entry, member, expensive⟩ | writer) | signaled
  · have counted : 0 < crew.queue.countP LockEntry.isExpensive :=
      List.countP_pos_iff.mpr ⟨entry, member, expensive⟩
    have positive : 0 < crew.queue.countP LockEntry.isExpensive +
        crew.turn.signaledExpensive.toNat := by omega
    rw [decide_eq_true positive, Bool.or_true]
  · simp [writer]
  · simp [signaled]

/-- The first reader that waits puts the item of the readers into the queue. -/
theorem Staffs.readLock_first (staffs : crew.Staffs world) (idle : world.phase t = .idle)
    (absent : .readers ∉ crew.queue)
    (wants : 0 < world.lock.numWriters ∨ 0 < world.lock.numWantWrite) :
    ∃ lock, world.lock.readLock = some (false, lock) ∧
      Staffs { crew with waiting := [t], queue := crew.queue ++ [.readers] }
        { world.wait t lock .waitingRead world.clock with readTicket := world.clock } := by
  have counts := staffs.counts
  -- Nobody waits in the item that is not there.
  have nobody : crew.waiting = [] := by
    by_contra found
    exact absent (staffs.waits.group.mpr found)
  have notQueued : (!world.lock.waitReadIsInQueue) = true := by
    cases flag : world.lock.waitReadIsInQueue with
    | false => rfl
    | true => exact absurd (counts.waitReadIsInQueue.mp flag) absent
  have cheap : (!world.lock.readWaitExpensive) = true := by
    rw [staffs.prices.absent absent]
    rfl
  have outside : QueueItem.read ∉ crew.queue.map LockEntry.item := by
    intro member
    obtain ⟨entry, among, same⟩ := List.mem_map.mp member
    cases entry with
    | readers => exact absent among
    | writer u e => cases same
  obtain ⟨head, tail, next, pushed, relinked⟩ := Frwlock.enqItem_fresh counts.linked outside
  have signaled : world.lock.numSignaledReaders = world.lock.numWantRead := by
    rw [counts.numSignaledReaders, counts.numWantRead, nobody]
    rfl
  refine ⟨{ world.lock with
      waitHead := head
      waitTail := tail
      next := next
      waitReadIsInQueue := true
      readWaitExpensive :=
        world.lock.currentWriterExpensive || decide (0 < world.lock.numExpensiveWantWrite)
      numWantRead := world.lock.numWantRead + 1 }, ?_, ?_⟩
  · simp only [Frwlock.readLock, if_pos wants, if_pos notQueued, invariant_of signaled, pushed,
      bind_runs, invariant_of cheap]
  · obtain ⟨kept, past, signaled⟩ := staffs.order.wait world.clock world.clock
      staffs.places idle (by simp [absent, nobody])
    have places := staffs.places.queueRead idle (crew.queue ++ [.readers])
      (fun u e => by simp)
    rw [nobody] at places
    refine ⟨places, ?_, ?_, ?_, ?_⟩
    · -- One more reader wants the lock, and the queue has one more item.
      refine { counts with
        numWantWrite := ?_, numWantRead := ?_, numExpensiveWantWrite := ?_,
        waitReadIsInQueue := ⟨fun _ => by simp, fun _ => rfl⟩, linked := ?_ }
      · rw [List.countP_append]
        exact counts.numWantWrite
      · show world.lock.numWantRead + 1 = _
        rw [counts.numWantRead, nobody]
        rfl
      · rw [List.countP_append]
        exact counts.numExpensiveWantWrite
      · rw [List.map_append]
        exact relinked
    · refine ⟨by simp, fun inside called turn first rest queue => ?_⟩
      -- The queue was not empty when readers had the lock, so its first stays.
      cases before : crew.queue with
      | nil =>
        rw [counts.numWriters, counts.numWantWrite, turn, before] at wants
        simp [LockTurn.writers, LockTurn.signaledWriters] at wants
      | cons old others =>
        rw [before] at queue
        injection queue with same
        exact same ▸ staffs.waits.shared inside called turn old others before
    · refine ⟨fun gone => absurd (by simp) gone, fun _ found => counts.expensive ?_⟩
      -- Whatever is ahead of the readers is in the queue.
      rw [Bool.or_eq_true, Bool.or_eq_true] at found ⊢
      refine found.imp_left (Or.imp_left fun ahead => ?_)
      rw [List.any_eq_true] at ahead ⊢
      obtain ⟨entry, member, expensive⟩ := ahead
      refine ⟨entry, ?_, expensive⟩
      rcases List.mem_append.mp ((List.takeWhile_prefix _).subset member) with among | added
      · exact among
      · rw [List.mem_singleton.mp added] at expensive
        cases expensive
    · have pushed := kept.push past signaled .readers rfl (Nat.lt_succ_self _)
        (fun u e same => by cases same)
      refine { pushed with group := fun u member => ?_ }
      rw [List.mem_singleton.mp member]
      exact Function.update_self _ _ _

omit [DecidableEq Thread] in
/-- What is ahead of the readers does not change when a writer is put behind them. -/
theorem takeWhile_push (among : .readers ∈ queue) (more : List (LockEntry Thread)) :
    (queue ++ more).takeWhile LockEntry.isWriter = queue.takeWhile LockEntry.isWriter := by
  induction queue with
  | nil => cases among
  | cons first rest ih =>
    cases first with
    | readers => rfl
    | writer u e =>
      have later : .readers ∈ rest := by simpa using among
      rw [List.cons_append, List.takeWhile_cons, List.takeWhile_cons, ih later]

/-- A writer that waits puts an item of its own into the queue. -/
theorem Staffs.writeLock_wait (staffs : crew.Staffs world) (idle : world.phase t = .idle)
    (expensive : Bool) (context : Context)
    (busy : 0 < world.lock.numReaders ∨ 0 < world.lock.numWriters ∨
      0 < world.lock.numSignaledReaders ∨ 0 < world.lock.numWantWrite) :
    ∃ lock, world.lock.writeLock t expensive context = some (false, lock) ∧
      Staffs { crew with queue := crew.queue ++ [.writer t expensive] }
        (world.wait t lock (.waitingWrite expensive) world.clock) := by
  have counts := staffs.counts
  obtain ⟨-, -, notQueued⟩ := staffs.places.absent idle
  have outside : QueueItem.write t ∉ crew.queue.map LockEntry.item := by
    intro member
    obtain ⟨entry, among, same⟩ := List.mem_map.mp member
    cases entry with
    | readers => cases same
    | writer u e =>
      injection same with same
      exact notQueued e (same ▸ among)
  obtain ⟨head, tail, next, pushed, relinked⟩ := Frwlock.enqItem_fresh counts.linked outside
  -- What is noted of the first writer that waits changes no counter.
  obtain ⟨lock, locked, same⟩ : ∃ lock, world.lock.writeLock t expensive context =
      some (false, lock) ∧ ∃ tid context', lock = { world.lock with
        waitHead := head
        waitTail := tail
        next := next
        numWantWrite := world.lock.numWantWrite + 1
        numExpensiveWantWrite :=
          if expensive then world.lock.numExpensiveWantWrite + 1
          else world.lock.numExpensiveWantWrite
        currentWriterTid := tid
        blockingWriterContextId := context' } := by
    by_cases first : world.lock.numWriters = 0 ∧ world.lock.numWantWrite + 1 = 1
    · refine ⟨_, ?_, some t, some context, rfl⟩
      simp only [Frwlock.writeLock, Frwlock.tryWriteLock, if_pos busy, pushed, bind_runs,
        if_pos first, Bool.false_eq_true, if_false]
    · refine ⟨_, ?_, world.lock.currentWriterTid, world.lock.blockingWriterContextId, rfl⟩
      simp only [Frwlock.writeLock, Frwlock.tryWriteLock, if_pos busy, pushed, bind_runs,
        if_neg first, Bool.false_eq_true, if_false]
  obtain ⟨tid, context', rfl⟩ := same
  refine ⟨_, locked, staffs.places.queueWrite idle expensive, ?_, ?_, ?_, ?_⟩
  · -- One more writer wants the lock.
    refine { counts with
      numWantWrite := ?_, numExpensiveWantWrite := ?_, waitReadIsInQueue := ?_, linked := ?_ }
    · show world.lock.numWantWrite + 1 = _
      rw [counts.numWantWrite]
      simp only [List.countP_append, List.countP_singleton, LockEntry.isWriter, if_true]
      omega
    · show (if expensive then world.lock.numExpensiveWantWrite + 1
        else world.lock.numExpensiveWantWrite) = _
      rw [counts.numExpensiveWantWrite]
      simp only [List.countP_append, List.countP_singleton, LockEntry.isExpensive]
      cases expensive with
      | false => simp
      | true =>
        simp
        omega
    · show world.lock.waitReadIsInQueue = true ↔ _
      rw [counts.waitReadIsInQueue]
      simp
    · rw [List.map_append]
      exact relinked
  · refine ⟨?_, fun inside called turn first rest queue => ?_⟩
    · rw [← staffs.waits.group]
      simp
    · cases before : crew.queue with
      | nil =>
        -- The writer is the first, so readers are inside or will come in.
        rw [counts.numReaders, counts.numWriters, counts.numSignaledReaders, counts.numWantWrite,
          turn, before] at busy
        rw [before] at queue
        injection queue with same
        rw [← same]
        refine ⟨rfl, ?_⟩
        simp [LockTurn.inside, LockTurn.called, LockTurn.writers,
          LockTurn.signaledWriters] at busy
        rcases busy with some | some
        · exact .inl (List.length_pos_iff.mp some)
        · exact .inr (List.length_pos_iff.mp some)
      | cons old others =>
        rw [before] at queue
        injection queue with same
        exact same ▸ staffs.waits.shared inside called turn old others before
  · refine ⟨fun gone => staffs.prices.absent fun member => gone (by simp [member]),
      fun member found => ?_⟩
    have among : .readers ∈ crew.queue := by simpa using member
    refine staffs.prices.ahead among ?_
    -- The writer is behind the readers.
    rw [takeWhile_push among] at found
    exact found
  · obtain ⟨kept, past, signaled⟩ := staffs.order.wait world.clock
      world.readTicket staffs.places idle (fun _ => rfl)
    exact kept.push past signaled _ (Function.update_self _ _ _) (Nat.lt_succ_self _)
      (fun u e same => by
        injection same with same
        rw [← same]
        show Function.update world.ticket t world.clock t =
          Function.update world.arrival t world.clock t
        rw [Function.update_self, Function.update_self])

omit [DecidableEq Thread] in
/-- When nobody has the lock or wants it, nobody is there at all. -/
theorem Staffs.free (staffs : crew.Staffs world)
    (free : ¬ (0 < world.lock.numReaders ∨ 0 < world.lock.numWriters ∨
      0 < world.lock.numSignaledReaders ∨ 0 < world.lock.numWantWrite)) :
    crew = ⟨.readers [] [], [], []⟩ := by
  obtain ⟨inside, called, rfl⟩ := staffs.quiet (by omega)
  have counts := staffs.counts
  rw [counts.numReaders, counts.numSignaledReaders] at free
  simp [LockTurn.inside, LockTurn.called] at free
  rw [free.1, free.2.2.1]

/-- A writer comes in at once when nobody has the lock or wants it. -/
theorem Staffs.tryWriteLock_now (staffs : Staffs ⟨.readers [] [], [], []⟩ world)
    (idle : world.phase t = .idle) (expensive : Bool) (context : Context) :
    ∃ lock, world.lock.tryWriteLock t expensive context = some (true, lock) ∧
      Staffs ⟨.writer t expensive, [], []⟩ (world.at' t lock (.writing expensive)) := by
  have counts := staffs.counts
  have readers : world.lock.numReaders = 0 := counts.numReaders
  have writers : world.lock.numWriters = 0 := counts.numWriters
  have signaled : world.lock.numSignaledReaders = 0 := counts.numSignaledReaders
  have wantWrite : world.lock.numWantWrite = 0 := counts.numWantWrite
  have wantRead : world.lock.numWantRead = 0 := counts.numWantRead
  refine ⟨{ world.lock with
      numWriters := 1
      currentWriterExpensive := expensive
      currentWriterTid := some t
      blockingWriterContextId := some context }, ?_,
    staffs.places.enterWrite idle expensive, ?_, ?_, ?_, ?_⟩
  · rw [Frwlock.tryWriteLock, if_neg (by omega), invariant_of wantWrite, invariant_of wantRead]
    rfl
  · exact { counts with
      numWriters := rfl, currentWriterExpensive := rfl, numWantWrite := wantWrite,
      numReaders := readers, numWantRead := wantRead, numSignaledReaders := signaled,
      numExpensiveWantWrite := counts.numExpensiveWantWrite }
  · exact ⟨by simp, fun inside called turn => by cases turn⟩
  · exact ⟨staffs.prices.absent, fun member => by simp at member⟩
  · refine { staffs.order with signaled := fun u either => ?_, alone := fun u e either => ?_ }
    · simp [Signaled, LockTurn.called] at either
    · simp at either

/-- A reader that was signalled comes in. -/
theorem Staffs.readLockWoken (staffs : Staffs ⟨.readers inside called, waiting, queue⟩ world)
    (signaled : world.phase t = .signaledRead) :
    ∃ lock, world.lock.readLockWoken = some lock ∧
      Staffs ⟨.readers (t :: inside) (called.erase t), waiting, queue⟩
        (world.at' t lock .reading) := by
  have counts := staffs.counts
  have among : t ∈ called := (staffs.places.called.mem_iff t).mpr signaled
  have some : 0 < called.length := List.length_pos_of_mem among
  have fewer : (called.erase t).length = called.length - 1 := List.length_erase_of_mem among
  have writers : world.lock.numWriters = 0 := counts.numWriters
  have wantRead : world.lock.numWantRead = called.length + waiting.length := counts.numWantRead
  have signaledReaders : world.lock.numSignaledReaders = called.length := counts.numSignaledReaders
  refine ⟨{ world.lock with
      numWantRead := world.lock.numWantRead - 1
      numSignaledReaders := world.lock.numSignaledReaders - 1
      numReaders := world.lock.numReaders + 1 }, ?_,
    staffs.places.runRead signaled, ?_, ?_, ?_, ?_⟩
  · rw [Frwlock.readLockWoken, invariant_of writers, invariant_of (by omega),
      invariant_of (by omega)]
    rfl
  · -- One signal less is out, and one reader more is inside.
    refine { counts with numReaders := ?_, numWantRead := ?_, numSignaledReaders := ?_ }
    · show world.lock.numReaders + 1 = (t :: inside).length
      rw [counts.numReaders]
      rfl
    · show world.lock.numWantRead - 1 = (called.erase t).length + waiting.length
      omega
    · show world.lock.numSignaledReaders - 1 = (called.erase t).length
      omega
  · refine ⟨staffs.waits.group, fun inside' called' turn first rest queue => ?_⟩
    injection turn with same
    refine ⟨(staffs.waits.shared inside called rfl first rest queue).1, .inl ?_⟩
    rw [← same]
    exact List.cons_ne_nil _ _
  · exact ⟨staffs.prices.absent, staffs.prices.ahead⟩
  · refine { staffs.order with signaled := fun u either => ?_, together := ?_, alone := ?_ }
    · have before : Signaled ⟨.readers inside called, waiting, queue⟩ u := by
        rcases either with member | ⟨e, turn⟩
        · exact .inl (List.mem_of_mem_erase member)
        · cases turn
      exact staffs.order.signaled u before
    · exact fun u first v second => staffs.order.together u (List.mem_of_mem_erase first) v
        (List.mem_of_mem_erase second)
    · intro u e either
      rcases either with turn | member
      · cases turn
      · exact staffs.order.alone u e (.inr member)

/-- A writer that was signalled comes in. -/
theorem Staffs.writeLockWoken {expensive : Bool}
    (staffs : Staffs ⟨.signaled t expensive, waiting, queue⟩ world) (context : Context) :
    ∃ lock, world.lock.writeLockWoken t expensive context = some lock ∧
      Staffs ⟨.writer t expensive, waiting, queue⟩ (world.at' t lock (.writing expensive)) := by
  have counts := staffs.counts
  have readers : world.lock.numReaders = 0 := counts.numReaders
  have writers : world.lock.numWriters = 0 := counts.numWriters
  have signaled : world.lock.numSignaledReaders = 0 := counts.numSignaledReaders
  have wantWrite : world.lock.numWantWrite = queue.countP LockEntry.isWriter + 1 :=
    counts.numWantWrite
  have costly : world.lock.numExpensiveWantWrite =
      queue.countP LockEntry.isExpensive + expensive.toNat := counts.numExpensiveWantWrite
  refine ⟨{ world.lock with
      numWantWrite := world.lock.numWantWrite - 1
      numExpensiveWantWrite :=
        if expensive then world.lock.numExpensiveWantWrite - 1
        else world.lock.numExpensiveWantWrite
      numWriters := 1
      currentWriterExpensive := expensive
      currentWriterTid := some t
      blockingWriterContextId := some context }, ?_, staffs.places.runWrite, ?_, ?_, ?_, ?_⟩
  · rw [Frwlock.writeLockWoken, invariant_of (by omega), invariant_of readers,
      invariant_of writers, invariant_of signaled]
    rfl
  · -- The writer is inside, and wants the lock no more.
    refine { counts with
      numReaders := readers, numWriters := rfl, numWantWrite := ?_,
      numWantRead := counts.numWantRead, numSignaledReaders := signaled,
      numExpensiveWantWrite := ?_, currentWriterExpensive := rfl }
    · show world.lock.numWantWrite - 1 = queue.countP LockEntry.isWriter + 0
      omega
    · show (if expensive then world.lock.numExpensiveWantWrite - 1
        else world.lock.numExpensiveWantWrite) = queue.countP LockEntry.isExpensive + 0
      rw [costly]
      cases expensive with
      | false => rfl
      | true => rfl
  · exact ⟨staffs.waits.group, fun inside called turn => by cases turn⟩
  · refine ⟨staffs.prices.absent, fun member found => staffs.prices.ahead member ?_⟩
    -- What was signalled is now inside.
    simpa [LockTurn.writerExpensive, LockTurn.signaledExpensive] using found
  · refine { staffs.order with signaled := fun u either => ?_, alone := ?_ }
    · simp [Signaled, LockTurn.called] at either
    · intro u e either
      rcases either with turn | member
      · cases turn
      · exact staffs.order.alone u e (.inr member)

/-- The state of a lock that nobody has, before the next in the queue is signalled. -/
structure Vacant (waiting : List Thread) (queue : List (LockEntry Thread))
    (world : LockWorld Thread Context) : Prop where
  places : Places ⟨.readers [] [], waiting, queue⟩ world.phase
  counts : Counts ⟨.readers [] [], waiting, queue⟩ world.lock
  group : .readers ∈ queue ↔ waiting ≠ []
  prices : Prices ⟨.readers [] [], waiting, queue⟩ world.lock
  order : Order ⟨.readers [] [], waiting, queue⟩ world

omit [DecidableEq Thread] in
/-- A lock that nobody has or waits for needs no signal. -/
theorem Vacant.staffs (vacant : Vacant waiting [] world) :
    Staffs ⟨.readers [] [], waiting, []⟩ world :=
  ⟨vacant.places, vacant.counts, ⟨vacant.group, fun _ _ _ first rest none => by cases none⟩,
    vacant.prices, vacant.order⟩

/-- The first writer of the queue is signalled. -/
theorem Vacant.callWriter {u : Thread} {e : Bool} {rest : List (LockEntry Thread)}
    (vacant : Vacant waiting (.writer u e :: rest) world) :
    ∃ lock, world.lock.deqItem = some (.write u, lock) ∧ 0 < lock.numWantWrite ∧
      Staffs ⟨.signaled u e, waiting, rest⟩
        { world with lock := lock, phase := LockWorld.wake world.phase (some (.write u)) } := by
  have counts := vacant.counts
  have order := vacant.order
  obtain ⟨head, tail, popped, relinked⟩ := Frwlock.deqItem_eq (.write u) counts.linked
  -- The items differ, so the writer is not in the rest of the queue.
  have once : ∀ e, .writer u e ∉ rest := by
    intro e member
    have apart := (List.nodup_cons.mp counts.linked.nodup).1
    exact apart (List.mem_map.mpr ⟨.writer u e, member, rfl⟩)
  have ahead := List.pairwise_cons.mp order.sorted
  have wants : world.lock.numWantWrite = rest.countP LockEntry.isWriter + 1 := by
    rw [counts.numWantWrite]
    simp [LockTurn.signaledWriters, LockEntry.isWriter, List.countP_cons]
  refine ⟨_, popped, by show 0 < world.lock.numWantWrite; omega,
    vacant.places.callWriter once, ?_, ?_, ?_, ?_⟩
  · -- The writer still wants the lock, but is out of the queue.
    refine { counts with
      numWantWrite := wants, numExpensiveWantWrite := ?_, waitReadIsInQueue := ?_,
      linked := relinked }
    · show world.lock.numExpensiveWantWrite = rest.countP LockEntry.isExpensive + e.toNat
      rw [counts.numExpensiveWantWrite]
      cases e with
      | false => simp [LockTurn.signaledExpensive, LockEntry.isExpensive]
      | true => simp [LockTurn.signaledExpensive, LockEntry.isExpensive, List.countP_cons]
    · show world.lock.waitReadIsInQueue = true ↔ .readers ∈ rest
      rw [counts.waitReadIsInQueue]
      simp
  · refine ⟨?_, fun inside called turn => by cases turn⟩
    rw [← vacant.group]
    simp
  · refine ⟨fun gone => vacant.prices.absent fun member => gone (by simpa using member),
      fun member found => ?_⟩
    -- The writer was ahead of the readers, and still is.
    refine vacant.prices.ahead (List.mem_cons_of_mem _ member) ?_
    rw [List.takeWhile_cons, LockEntry.isWriter, if_pos rfl, List.any_cons, LockEntry.isExpensive]
    simp only [LockTurn.writerExpensive, LockTurn.signaledExpensive, Bool.or_false] at found ⊢
    rw [Bool.or_comm]
    exact found
  · refine ⟨ahead.2, fun entry member => order.past entry (List.mem_cons_of_mem _ member),
      order.group, ?_, fun v member => ?_, ?_⟩
    · intro v either
      have same : v = u := by
        rcases either with member | ⟨e', turn⟩
        · cases member
        · injection turn with same
          exact same.symm
      refine ⟨?_, fun entry member => ?_⟩
      · rw [same]
        exact order.past (.writer u e) List.mem_cons_self
      · rw [same]
        exact ahead.1 _ (List.mem_map.mpr ⟨entry, member, rfl⟩)
    · cases member
    · intro v e' either
      rcases either with turn | member
      · injection turn with same
        rw [← same]
        exact order.alone u e (.inr List.mem_cons_self)
      · exact order.alone v e' (.inr (List.mem_cons_of_mem _ member))

/-- The readers that wait are signalled together. -/
theorem Vacant.callReaders {rest : List (LockEntry Thread)}
    (vacant : Vacant waiting (.readers :: rest) world) :
    ∃ lock, world.lock.deqItem = some (.read, lock) ∧ lock.waitReadIsInQueue = true ∧
      0 < lock.numWantRead ∧
      Staffs ⟨.readers [] waiting, [], rest⟩
        { world with
          lock := { lock with
            numSignaledReaders := lock.numWantRead
            waitReadIsInQueue := false
            readWaitExpensive := false }
          phase := LockWorld.wake world.phase (some .read) } := by
  have counts := vacant.counts
  have order := vacant.order
  obtain ⟨head, tail, popped, relinked⟩ := Frwlock.deqItem_eq .read counts.linked
  have gone : .readers ∉ rest := by
    intro member
    have apart := (List.nodup_cons.mp counts.linked.nodup).1
    exact apart (List.mem_map.mpr ⟨.readers, member, rfl⟩)
  have ahead := List.pairwise_cons.mp order.sorted
  have found : waiting ≠ [] := vacant.group.mp List.mem_cons_self
  have wants : world.lock.numWantRead = waiting.length := by
    rw [counts.numWantRead]
    exact Nat.zero_add _
  have some : 0 < waiting.length := List.length_pos_iff.mpr found
  refine ⟨_, popped, counts.waitReadIsInQueue.mpr List.mem_cons_self,
    by show 0 < world.lock.numWantRead; omega, vacant.places.callReaders, ?_, ?_, ?_, ?_⟩
  · refine { counts with
      numWantWrite := ?_, numWantRead := wants, numSignaledReaders := wants,
      numExpensiveWantWrite := ?_, waitReadIsInQueue := ?_, linked := relinked }
    · show world.lock.numWantWrite = rest.countP LockEntry.isWriter + 0
      rw [counts.numWantWrite]
      simp [LockTurn.signaledWriters, LockEntry.isWriter]
    · show world.lock.numExpensiveWantWrite = rest.countP LockEntry.isExpensive + 0
      rw [counts.numExpensiveWantWrite]
      simp [LockTurn.signaledExpensive, LockEntry.isExpensive]
    · exact ⟨fun flag => (by cases flag), fun member => absurd member gone⟩
  · refine ⟨⟨fun member => absurd member gone, fun none => absurd rfl none⟩, ?_⟩
    intro inside called turn first others queue
    injection turn with _ same
    refine ⟨?_, .inr (same ▸ found)⟩
    cases first with
    | readers => exact absurd (by rw [show rest = _ from queue]; exact List.mem_cons_self) gone
    | writer v e => rfl
  · exact ⟨fun _ => rfl, fun member => absurd member gone⟩
  · refine ⟨ahead.2, fun entry member => order.past entry (List.mem_cons_of_mem _ member),
      fun v member => absurd member List.not_mem_nil, ?_, ?_, ?_⟩
    · intro v either
      have member : v ∈ waiting := by
        rcases either with member | ⟨e, turn⟩
        · exact member
        · cases turn
      show world.ticket v < world.clock ∧ ∀ entry ∈ rest, world.ticket v < ticketOf world entry
      rw [order.group v member]
      exact ⟨order.past .readers List.mem_cons_self,
        fun entry among => ahead.1 _ (List.mem_map.mpr ⟨entry, among, rfl⟩)⟩
    · intro v first w second
      exact (order.group v first).trans (order.group w second).symm
    · intro v e either
      rcases either with turn | member
      · cases turn
      · exact order.alone v e (.inr (List.mem_cons_of_mem _ member))

/-- A reader goes out, and the last one signals the first writer. -/
theorem Staffs.readUnlock (staffs : Staffs ⟨.readers inside called, waiting, queue⟩ world)
    (reading : world.phase t = .reading) :
    ∃ after, world.unlock t world.lock.readUnlock = some after ∧
      (∃ crew : LockCrew Thread, crew.Staffs after) ∧
      ∃ signaled, after.phase = LockWorld.wake (Function.update world.phase t .idle) signaled := by
  have counts := staffs.counts
  have places := staffs.places.leaveRead reading
  have among : t ∈ inside := (staffs.places.inside.mem_iff t).mpr reading
  have positive : 0 < inside.length := List.length_pos_of_mem among
  have fewer : (inside.erase t).length = inside.length - 1 := List.length_erase_of_mem among
  have readers : world.lock.numReaders = inside.length := counts.numReaders
  have writers : world.lock.numWriters = 0 := counts.numWriters
  have signaled : world.lock.numSignaledReaders = called.length := counts.numSignaledReaders
  have wants : world.lock.numWantWrite = queue.countP LockEntry.isWriter := counts.numWantWrite
  have left : Counts ⟨.readers (inside.erase t) called, waiting, queue⟩
      { world.lock with numReaders := world.lock.numReaders - 1 } :=
    { counts with
      numReaders := by
        show world.lock.numReaders - 1 = (inside.erase t).length
        omega }
  have group := staffs.waits.group
  have prices : Prices ⟨.readers (inside.erase t) called, waiting, queue⟩
      { world.lock with numReaders := world.lock.numReaders - 1 } :=
    ⟨staffs.prices.absent, staffs.prices.ahead⟩
  have order : Order ⟨.readers (inside.erase t) called, waiting, queue⟩ world :=
    { staffs.order with
      signaled := fun u either => staffs.order.signaled u (by
        simpa [Signaled, LockTurn.called] using either)
      alone := fun u e either => staffs.order.alone u e (by simpa using either) }
  by_cases last : 0 < world.lock.numWantWrite ∧ world.lock.numSignaledReaders = 0 ∧
      world.lock.numReaders - 1 = 0
  · -- The readers are gone, and a writer is the first of the queue.
    have none : inside.erase t = [] := List.length_eq_zero_iff.mp (by omega)
    have nobody : called = [] := List.length_eq_zero_iff.mp (by omega)
    subst nobody
    rw [none] at places left prices order
    cases queue with
    | nil => simp [wants] at last
    | cons first rest =>
      have isWriter := (staffs.waits.shared inside [] rfl first rest rfl).1
      cases first with
      | readers => cases isWriter
      | writer u e =>
        have vacant : Vacant waiting (.writer u e :: rest)
            (world.at' t { world.lock with numReaders := world.lock.numReaders - 1 } .idle) :=
          ⟨places, left, group, prices, { order with }⟩
        obtain ⟨lock, popped, wanted, called⟩ := vacant.callWriter
        refine ⟨_, ?_, ⟨_, called⟩, some (.write u), rfl⟩
        have popped : { world.lock with numReaders := world.lock.numReaders - 1 }.deqItem =
          some (.write u, lock) := popped
        simp only [LockWorld.unlock, Frwlock.readUnlock, invariant_of writers,
          invariant_of (by omega : 0 < world.lock.numReaders), bind_runs,
          Frwlock.maybeSignalNextWriter, if_pos last, popped,
          invariant_of (by simp : QueueItem.write u ≠ .read), invariant_of wanted]
        rfl
  · refine ⟨world.at' t { world.lock with numReaders := world.lock.numReaders - 1 } .idle, ?_,
      ⟨_, places, left, ⟨group, ?_⟩, prices, { order with }⟩, none, rfl⟩
    · simp only [LockWorld.unlock, Frwlock.readUnlock, invariant_of writers,
        invariant_of (by omega : 0 < world.lock.numReaders), bind_runs,
        Frwlock.maybeSignalNextWriter, if_neg last]
      rfl
    · intro inside' called' turn first rest queued
      injection turn with same same'
      have isWriter := (staffs.waits.shared inside called rfl first rest queued).1
      refine ⟨isWriter, ?_⟩
      -- A writer waits, so somebody else has the lock or was signalled.
      have waits : 0 < queue.countP LockEntry.isWriter :=
        List.countP_pos_iff.mpr ⟨first, by rw [show queue = _ from queued]; simp, isWriter⟩
      rw [← same, ← same', ← List.length_pos_iff, ← List.length_pos_iff]
      omega

/-- A writer goes out, and signals the first of the queue. -/
theorem Staffs.writeUnlock {expensive : Bool}
    (staffs : Staffs ⟨.writer t expensive, waiting, queue⟩ world) :
    ∃ after, world.unlock t world.lock.writeUnlock = some after ∧
      (∃ crew : LockCrew Thread, crew.Staffs after) ∧
      ∃ signaled, after.phase = LockWorld.wake (Function.update world.phase t .idle) signaled := by
  have counts := staffs.counts
  have writers : world.lock.numWriters = 1 := counts.numWriters
  have signaled : world.lock.numSignaledReaders = 0 := counts.numSignaledReaders
  have vacant : Vacant waiting queue (world.at' t { world.lock with
      numWriters := 0
      currentWriterExpensive := false
      currentWriterTid := none
      blockingWriterContextId := none } .idle) := by
    refine ⟨staffs.places.leaveWrite, ?_, staffs.waits.group,
      ⟨staffs.prices.absent, fun member found => staffs.prices.ahead member ?_⟩, ?_⟩
    · exact { counts with
        numWriters := rfl, numReaders := counts.numReaders, numWantWrite := counts.numWantWrite,
        numWantRead := counts.numWantRead, numSignaledReaders := signaled,
        numExpensiveWantWrite := counts.numExpensiveWantWrite, currentWriterExpensive := rfl }
    · simp only [LockTurn.writerExpensive, LockTurn.signaledExpensive, Bool.or_false] at found ⊢
      rw [found]
      rfl
    · exact { staffs.order with
        signaled := fun u either => by simp [Signaled, LockTurn.called] at either
        alone := fun u e either => staffs.order.alone u e (by simpa using either) }
  have empty : queue = [] ↔ ({ world.lock with
      numWriters := 0
      currentWriterExpensive := false
      currentWriterTid := none
      blockingWriterContextId := none } : Frwlock Thread Context).queueIsEmpty = true := by
    rw [Frwlock.queueIsEmpty_iff (l := { world.lock with
      numWriters := 0
      currentWriterExpensive := false
      currentWriterTid := none
      blockingWriterContextId := none }) counts.linked, List.map_eq_nil_iff]
  cases queue with
  | nil =>
    -- Nobody waits, and nobody is signalled.
    have wantWrite : world.lock.numWantWrite = 0 := counts.numWantWrite
    have nobody : waiting = [] := by
      by_contra found
      exact absurd (vacant.group.mpr found) List.not_mem_nil
    have wantRead : world.lock.numWantRead = 0 := by
      rw [counts.numWantRead, nobody]
      rfl
    refine ⟨_, ?_, ⟨_, vacant.staffs⟩, none, rfl⟩
    simp only [LockWorld.unlock, Frwlock.writeUnlock, invariant_of writers, bind_runs,
      Frwlock.maybeSignalOrBroadcastNext, invariant_of signaled, if_pos (empty.mp rfl),
      invariant_of wantWrite, invariant_of wantRead]
    rfl
  | cons first rest =>
    have found := mt empty.mpr (List.cons_ne_nil first rest)
    cases first with
    | writer u e =>
      obtain ⟨lock, popped, wanted, called⟩ := vacant.callWriter
      have popped : { world.lock with
          numWriters := 0
          currentWriterExpensive := false
          currentWriterTid := none
          blockingWriterContextId := none }.deqItem = some (.write u, lock) := popped
      refine ⟨_, ?_, ⟨_, called⟩, some (.write u), rfl⟩
      simp only [LockWorld.unlock, Frwlock.writeUnlock, invariant_of writers, bind_runs,
        Frwlock.maybeSignalOrBroadcastNext, invariant_of signaled, if_neg found, popped,
        invariant_of wanted, reduceCtorEq, if_false]
      rfl
    | readers =>
      obtain ⟨lock, popped, inQueue, wanted, called⟩ := vacant.callReaders
      have popped : { world.lock with
          numWriters := 0
          currentWriterExpensive := false
          currentWriterTid := none
          blockingWriterContextId := none }.deqItem = some (.read, lock) := popped
      refine ⟨_, ?_, ⟨_, called⟩, some .read, rfl⟩
      simp only [LockWorld.unlock, Frwlock.writeUnlock, invariant_of writers, bind_runs,
        Frwlock.maybeSignalOrBroadcastNext, invariant_of signaled, if_neg found, popped,
        invariant_of wanted, invariant_of inQueue, if_true]
      rfl

end LockCrew

end Tokuft
