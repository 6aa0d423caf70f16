import Tokuft.Util.FrwlockSteps
import Tokuft.Library.Runs

/-! The lock is exclusive and fair, and loses no wakeup, whatever its threads do. -/

namespace Tokuft

namespace LockPhase

/-- A thread has the lock. -/
def Holds : LockPhase → Prop
  | .reading | .writing _ => True
  | _ => False

/-- A thread was signalled and has not run since. -/
def Called : LockPhase → Prop
  | .signaledRead | .signaledWrite _ => True
  | _ => False

/-- A thread is in the wait of its call. -/
def Waits : LockPhase → Prop
  | .waitingRead | .signaledRead | .waitingWrite _ | .signaledWrite _ => True
  | _ => False

/-- A thread is in the wait of a call for writing. -/
def WaitsToWrite : LockPhase → Prop
  | .waitingWrite _ | .signaledWrite _ => True
  | _ => False

/-- A writer waits. -/
theorem WaitsToWrite.waits {phase : LockPhase} (waits : phase.WaitsToWrite) : phase.Waits := by
  -- Both places of a writer are among those of all that wait.
  cases phase <;> first | exact waits | trivial

end LockPhase

namespace LockWorld

variable {Thread Context : Type}

/-- A writer has the lock alone. -/
def Exclusive (world : LockWorld Thread Context) : Prop :=
  ∀ t e, world.phase t = .writing e → ∀ u, (world.phase u).Holds → u = t

/-- While somebody is in the queue, somebody has the lock or was signalled. -/
def Attended (world : LockWorld Thread Context) : Prop :=
  world.lock.waitHead ≠ none → ∃ t, (world.phase t).Holds ∨ (world.phase t).Called

/-- Somebody uses the lock exactly when a thread has it or waits for it. -/
def UsersCounted (world : LockWorld Thread Context) : Prop :=
  world.lock.users = 0 ↔ ∀ t, ¬ (world.phase t).Holds ∧ ¬ (world.phase t).Waits

/-- An expensive writer has the lock, or waits and will have it before a reader that comes now. -/
def AheadOfReader (world : LockWorld Thread Context) (t : Thread) : Prop :=
  world.phase t = .writing true ∨ world.phase t = .signaledWrite true ∨
    (world.phase t = .waitingWrite true ∧
      ∀ u, world.phase u = .waitingRead → world.ticket t < world.ticket u)

/-- An expensive writer has the lock or waits for it. -/
def AheadOfWriter (world : LockWorld Thread Context) (t : Thread) : Prop :=
  world.phase t = .writing true ∨ world.phase t = .signaledWrite true ∨
    world.phase t = .waitingWrite true

/-- Whoever would wait for an expensive writer is told so. -/
def Priced (world : LockWorld Thread Context) : Prop :=
  (∀ t, world.AheadOfReader t → world.lock.readLockIsExpensive = true) ∧
    ∀ t, world.AheadOfWriter t → world.lock.writeLockIsExpensive = true

/-- A step gives the lock to a thread. -/
def Grants (before after : LockWorld Thread Context) (t : Thread) : Prop :=
  ¬ (before.phase t).Holds ∧ (after.phase t).Holds

/-- Whoever still waits when a thread gets the lock is a reader that was signalled with it, or is
in an item that was put into the queue later. -/
def InTurn (before after : LockWorld Thread Context) : Prop :=
  ∀ t, Grants before after t → ∀ u, (after.phase u).Waits →
    (after.phase t = .reading ∧ after.phase u = .signaledRead ∧
      (before.phase t = .signaledRead → after.ticket t = after.ticket u)) ∨
    ((before.phase t).Waits ∧ after.ticket t < after.ticket u)

/-- The readers that wait are signalled all together. -/
def Together (before after : LockWorld Thread Context) : Prop :=
  ∀ u, before.phase u = .waitingRead → after.phase u = .signaledRead →
    ∀ v, after.phase v ≠ .waitingRead

/-- A thread that begins to wait joins the readers that wait, or is behind everyone. -/
def Queues (before after : LockWorld Thread Context) : Prop :=
  ∀ t, before.phase t = .idle → (after.phase t).Waits →
    (∃ u, after.phase t = .waitingRead ∧ before.phase u = .waitingRead ∧
      after.ticket t = before.ticket u) ∨
    ((after.phase t = .waitingRead → ∀ u, before.phase u ≠ .waitingRead) ∧
      ∀ u, (before.phase u).Waits → before.ticket u < after.ticket t)

/-- A thread that gets the lock before a writer that came to wait earlier is a reader, and joined
readers that had come before that writer. -/
def Overtakes (before after : LockWorld Thread Context) : Prop :=
  ∀ t, Grants before after t → ∀ u, (after.phase u).WaitsToWrite →
    after.arrival u < after.arrival t →
      after.phase t = .reading ∧ after.ticket t < after.arrival u

/-- What a step does is fair to those that wait. -/
structure Fair (before after : LockWorld Thread Context) : Prop where
  inTurn : InTurn before after
  together : Together before after
  queues : Queues before after
  overtakes : Overtakes before after

end LockWorld

namespace LockCrew

variable {Thread Context : Type} [DecidableEq Thread] {crew : LockCrew Thread}
  {world : LockWorld Thread Context} {t : Thread}

section

variable (staffs : crew.Staffs world)
include staffs

omit [DecidableEq Thread] in
/-- A writer has the lock alone. -/
theorem Staffs.exclusive : world.Exclusive := by
  intro t e writing u holds
  have turn := (staffs.places.writer t e).mp writing
  cases place : world.phase u with
  | reading =>
    -- With a writer inside, no reader is.
    have inside := (staffs.places.inside.mem_iff u).mpr place
    rw [turn] at inside
    cases inside
  | writing e' =>
    have other := (staffs.places.writer u e').mp place
    rw [turn] at other
    injection other with same
    exact same.symm
  | idle | waitingRead | signaledRead | waitingWrite | signaledWrite =>
    rw [place] at holds
    exact holds.elim

omit [DecidableEq Thread] in
/-- While somebody is in the queue, somebody has the lock or was signalled. -/
theorem Staffs.attended : world.Attended := by
  intro found
  rw [staffs.counts.linked.head_eq] at found
  cases turn : crew.turn with
  | writer u e =>
    refine ⟨u, .inl ?_⟩
    rw [(staffs.places.writer u e).mpr turn]
    trivial
  | signaled u e =>
    refine ⟨u, .inr ?_⟩
    rw [(staffs.places.signaled u e).mpr turn]
    trivial
  | readers inside called =>
    cases queue : crew.queue with
    | nil => simp [queue] at found
    | cons first rest =>
      -- A writer waits for these readers.
      rcases (staffs.waits.shared inside called turn first rest queue).2 with some | some
      · obtain ⟨u, member⟩ := List.exists_mem_of_ne_nil _ some
        refine ⟨u, .inl ?_⟩
        rw [(staffs.places.inside.mem_iff u).mp (by rw [turn]; exact member)]
        trivial
      · obtain ⟨u, member⟩ := List.exists_mem_of_ne_nil _ some
        refine ⟨u, .inr ?_⟩
        rw [(staffs.places.called.mem_iff u).mp (by rw [turn]; exact member)]
        trivial

omit [DecidableEq Thread] in
/-- Somebody uses the lock exactly when a thread has it or waits for it. -/
theorem Staffs.usersCounted : world.UsersCounted := by
  have counts := staffs.counts
  unfold LockWorld.UsersCounted Frwlock.users
  rw [counts.numReaders, counts.numWriters, counts.numWantRead, counts.numWantWrite]
  constructor
  · intro nobody t
    -- Each place where a thread could be is counted.
    cases place : world.phase t with
    | idle => exact ⟨fun none => none, fun none => none⟩
    | reading =>
      have := staffs.places.inside.pos place
      omega
    | signaledRead =>
      have := staffs.places.called.pos place
      omega
    | waitingRead =>
      have := staffs.places.waiting.pos place
      omega
    | writing e =>
      have turn := (staffs.places.writer t e).mp place
      rw [turn] at nobody
      simp [LockTurn.writers] at nobody
    | signaledWrite e =>
      have turn := (staffs.places.signaled t e).mp place
      rw [turn] at nobody
      simp [LockTurn.signaledWriters] at nobody
    | waitingWrite e =>
      have member := (staffs.places.queued t e).mp place
      have counted : 0 < crew.queue.countP LockEntry.isWriter :=
        List.countP_pos_iff.mpr ⟨_, member, rfl⟩
      omega
  · intro idle
    have inside : crew.turn.inside = [] := by
      rw [List.eq_nil_iff_forall_not_mem]
      intro t member
      have place := (staffs.places.inside.mem_iff t).mp member
      exact (idle t).1 (by rw [place]; trivial)
    have called : crew.turn.called = [] := by
      rw [List.eq_nil_iff_forall_not_mem]
      intro t member
      have place := (staffs.places.called.mem_iff t).mp member
      exact (idle t).2 (by rw [place]; trivial)
    have waiting : crew.waiting = [] := by
      rw [List.eq_nil_iff_forall_not_mem]
      intro t member
      have place := (staffs.places.waiting.mem_iff t).mp member
      exact (idle t).2 (by rw [place]; trivial)
    have queued : crew.queue.countP LockEntry.isWriter = 0 := by
      rw [List.countP_eq_zero]
      intro entry member isWriter
      cases entry with
      | readers => cases isWriter
      | writer t e =>
        have place := (staffs.places.queued t e).mpr member
        exact (idle t).2 (by rw [place]; trivial)
    have writers : crew.turn.writers = 0 := by
      cases turn : crew.turn with
      | readers inside called => rfl
      | signaled t e => rfl
      | writer t e =>
        have place := (staffs.places.writer t e).mpr turn
        exact absurd (by rw [place]; trivial) (idle t).1
    have signaled : crew.turn.signaledWriters = 0 := by
      cases turn : crew.turn with
      | readers inside called => rfl
      | writer t e => rfl
      | signaled t e =>
        have place := (staffs.places.signaled t e).mpr turn
        exact absurd (by rw [place]; trivial) (idle t).2
    rw [inside, called, waiting, queued, writers, signaled]
    rfl

end

/-- A writer whose ticket is older than that of the readers is ahead of them. -/
theorem ahead_of_ticket {queue : List (LockEntry Thread)} {e : Bool}
    (sorted : (queue.map (ticketOf world)).Pairwise (· < ·)) (member : .writer t e ∈ queue)
    (older : world.ticket t < world.readTicket) :
      .writer t e ∈ queue.takeWhile LockEntry.isWriter := by
  induction queue with
  | nil => cases member
  | cons first rest ih =>
    obtain ⟨ahead, behind⟩ := List.pairwise_cons.mp sorted
    cases first with
    | readers =>
      -- Behind the readers the tickets are newer.
      have later : .writer t e ∈ rest := by simpa using member
      have newer : world.readTicket < world.ticket t :=
        ahead _ (List.mem_map.mpr ⟨.writer t e, later, rfl⟩)
      omega
    | writer u e' =>
      rw [List.takeWhile_cons, LockEntry.isWriter, if_pos rfl]
      rcases List.mem_cons.mp member with same | later
      · rw [same]
        exact List.mem_cons_self
      · exact List.mem_cons_of_mem _ (ih behind later)

/-- Whoever would wait for an expensive writer is told so. -/
theorem Staffs.priced (staffs : crew.Staffs world) : world.Priced := by
  have counts := staffs.counts
  refine ⟨fun t ahead => ?_, fun t ahead => ?_⟩
  · unfold Frwlock.readLockIsExpensive
    by_cases inQueue : .readers ∈ crew.queue
    · -- The readers that wait have noted what is ahead of them.
      rw [if_pos (counts.waitReadIsInQueue.mpr inQueue)]
      apply staffs.prices.ahead inQueue
      rw [Bool.or_eq_true, Bool.or_eq_true]
      rcases ahead with writing | signaled | ⟨waits, older⟩
      · have turn := (staffs.places.writer t true).mp writing
        rw [turn]
        exact .inl (.inr rfl)
      · have turn := (staffs.places.signaled t true).mp signaled
        rw [turn]
        exact .inr rfl
      · obtain ⟨u, waiting⟩ := List.exists_mem_of_ne_nil _ (staffs.waits.group.mp inQueue)
        have before := older u ((staffs.places.waiting.mem_iff u).mp waiting)
        rw [staffs.order.group u waiting] at before
        have member := (staffs.places.queued t true).mp waits
        refine .inl (.inl (List.any_eq_true.mpr ⟨.writer t true, ?_, rfl⟩))
        exact ahead_of_ticket staffs.order.sorted member before
    · rw [if_neg (mt counts.waitReadIsInQueue.mp inQueue)]
      apply counts.expensive
      rw [Bool.or_eq_true, Bool.or_eq_true]
      rcases ahead with writing | signaled | ⟨waits, -⟩
      · rw [(staffs.places.writer t true).mp writing]
        exact .inl (.inr rfl)
      · rw [(staffs.places.signaled t true).mp signaled]
        exact .inr rfl
      · have member := (staffs.places.queued t true).mp waits
        exact .inl (.inl (List.any_eq_true.mpr ⟨_, member, rfl⟩))
  · unfold Frwlock.writeLockIsExpensive
    rw [Bool.or_comm]
    apply counts.expensive
    rw [Bool.or_eq_true, Bool.or_eq_true]
    rcases ahead with writing | signaled | waits
    · rw [(staffs.places.writer t true).mp writing]
      exact .inl (.inr rfl)
    · rw [(staffs.places.signaled t true).mp signaled]
      exact .inr rfl
    · have member := (staffs.places.queued t true).mp waits
      exact .inl (.inl (List.any_eq_true.mpr ⟨_, member, rfl⟩))

end LockCrew

namespace LockWorld

variable {Thread Context : Type} [DecidableEq Thread] {world : LockWorld Thread Context}
  {t : Thread} {lock : Frwlock Thread Context} {place : LockPhase}

/-- A step that gives the lock to a thread is fair when nobody who waits has an older ticket. -/
theorem Fair.of_grant (holds : place.Holds)
    (turn : ∀ u, u ≠ t → (world.phase u).Waits →
      (place = .reading ∧ world.phase u = .signaledRead ∧
        (world.phase t = .signaledRead → world.ticket t = world.ticket u)) ∨
      ((world.phase t).Waits ∧ world.ticket t < world.ticket u))
    (alone : ∀ u, (world.phase u).WaitsToWrite → world.ticket u = world.arrival u)
    (reads : (∃ e, place = .writing e) → (world.phase t).WaitsToWrite ∨
      ∀ u, u ≠ t → ¬ (world.phase u).Waits) :
    Fair world (world.at' t lock place) := by
  -- Nobody but the thread moves.
  have others : ∀ u, u ≠ t → (world.at' t lock place).phase u = world.phase u :=
    fun u different => Function.update_of_ne different _ _
  have own : (world.at' t lock place).phase t = place := Function.update_self _ _ _
  have only : ∀ u, Grants world (world.at' t lock place) u → u = t := by
    intro u grants
    by_contra different
    have after := grants.2
    rw [others u different] at after
    exact grants.1 after
  have apart : ∀ u, ((world.at' t lock place).phase u).Waits → u ≠ t := by
    intro u waits same
    rw [same, own] at waits
    cases place with
    | reading | writing => exact waits
    | idle | waitingRead | signaledRead | waitingWrite | signaledWrite => exact holds
  constructor
  · intro u grants v waits
    have same := only u grants
    have different := apart v waits
    rw [others v different] at waits
    rw [same, own, others v different]
    exact turn v different waits
  · intro u before after
    by_cases same : u = t
    · rw [same, own] at after
      rw [after] at holds
      exact holds.elim
    · rw [others u same, before] at after
      cases after
  · intro u idle waits
    rw [others u (apart u waits), idle] at waits
    exact waits.elim
  · intro u grants v waits earlier
    have same := only u grants
    subst same
    have different := apart v waits.waits
    rw [others v different] at waits
    rw [own]
    have before := turn v different waits.waits
    have arrived := alone v waits
    cases place with
    | reading =>
      refine ⟨rfl, ?_⟩
      rcases before with ⟨-, signaled, -⟩ | ⟨-, older⟩
      · rw [signaled] at waits
        exact waits.elim
      · exact arrived ▸ older
    | writing e =>
      -- A writer has its own ticket, so it came before.
      rcases reads ⟨e, rfl⟩ with toWrite | none
      · rcases before with ⟨impossible, -⟩ | ⟨-, older⟩
        · cases impossible
        · have now := alone u toWrite
          have earlier : world.arrival v < world.arrival u := earlier
          omega
      · exact absurd waits.waits (none v different)
    | idle | waitingRead | signaledRead | waitingWrite | signaledWrite => exact holds.elim

/-- A step in which a thread begins to wait is fair when it joins readers or is behind everyone. -/
theorem Fair.of_wait {ticket readTicket : Nat} (idle : world.phase t = .idle)
    (waits : place.Waits) (fresh : place ≠ .signaledRead)
    (last : (∃ u, place = .waitingRead ∧ world.phase u = .waitingRead ∧
        ticket = world.ticket u) ∨
      ((place = .waitingRead → ∀ u, world.phase u ≠ .waitingRead) ∧
        ∀ u, (world.phase u).Waits → world.ticket u < ticket)) :
    Fair world { world.wait t lock place ticket with readTicket := readTicket } := by
  have others : ∀ u, u ≠ t → Function.update world.phase t place u = world.phase u :=
    fun u different => Function.update_of_ne different _ _
  have own : Function.update world.phase t place t = place := Function.update_self _ _ _
  -- Nobody gets the lock.
  have nobody : ∀ u, ¬ Grants world
      { world.wait t lock place ticket with readTicket := readTicket } u := by
    intro u grants
    have after : (Function.update world.phase t place u).Holds := grants.2
    by_cases same : u = t
    · rw [same, own] at after
      cases place with
      | reading | writing => exact waits.elim
      | idle | waitingRead | signaledRead | waitingWrite | signaledWrite => exact after
    · rw [others u same] at after
      exact grants.1 after
  constructor
  · exact fun u grants => absurd grants (nobody u)
  · intro u before after
    have after : Function.update world.phase t place u = .signaledRead := after
    by_cases same : u = t
    · rw [same, own] at after
      exact absurd after fresh
    · rw [others u same, before] at after
      cases after
  · intro u before after
    have after : (Function.update world.phase t place u).Waits := after
    by_cases same : u = t
    · subst same
      show (∃ v, Function.update world.phase u place u = .waitingRead ∧ _ ∧
          Function.update world.ticket u ticket u = _) ∨
        ((Function.update world.phase u place u = .waitingRead → _) ∧
          ∀ v, _ → _ < Function.update world.ticket u ticket u)
      rw [own, Function.update_self]
      exact last
    · rw [others u same, before] at after
      exact after.elim
  · exact fun u grants => absurd grants (nobody u)

/-- A signal moves only those that wait for it. -/
theorem wake_cases (phase : Thread → LockPhase) (signaled : Option (QueueItem Thread))
    (u : Thread) :
    wake phase signaled u = phase u ∨
      (phase u = .waitingRead ∧ wake phase signaled u = .signaledRead) ∨
      ∃ e, phase u = .waitingWrite e ∧ wake phase signaled u = .signaledWrite e := by
  -- A signal calls all waiting readers or one waiting writer.
  cases signaled with
  | none => exact .inl rfl
  | some item =>
    cases item with
    | read =>
      by_cases waits : phase u = .waitingRead
      · exact .inr (.inl ⟨waits, by simp [wake, waits]⟩)
      · exact .inl (by simp [wake, waits])
    | write t =>
      by_cases same : u = t
      · subst same
        cases place : phase u with
        | waitingWrite e => exact .inr (.inr ⟨e, rfl, by simp [wake, place]⟩)
        | idle | waitingRead | signaledRead | reading | signaledWrite | writing =>
          exact .inl (by simp [wake, place])
      · refine .inl ?_
        simp only [wake, if_neg same]
        cases phase u <;> rfl

/-- A broadcast leaves no reader waiting. -/
theorem wake_together {phase : Thread → LockPhase} {signaled : Option (QueueItem Thread)}
    {u : Thread} (before : phase u = .waitingRead)
    (after : wake phase signaled u = .signaledRead) (v : Thread) :
    wake phase signaled v ≠ .waitingRead := by
  cases signaled with
  | none =>
    have same : phase u = .signaledRead := after
    rw [before] at same
    cases same
  | some item =>
    cases item with
    | read =>
      by_cases waits : phase v = .waitingRead
      · simp [wake, waits]
      · simp [wake, waits]
    | write t =>
      -- A signal to a writer moves no reader.
      simp [wake, before] at after

/-- A step in which a thread lets go of the lock and others are signalled is fair. -/
theorem Fair.of_unlock {after : LockWorld Thread Context} {signaled : Option (QueueItem Thread)}
    (phases : after.phase = wake (Function.update world.phase t .idle) signaled)
    (held : (world.phase t).Holds) : Fair world after := by
  have others : ∀ u, u ≠ t → Function.update world.phase t .idle u = world.phase u :=
    fun u different => Function.update_of_ne different _ _
  have own : Function.update world.phase t .idle t = .idle := Function.update_self _ _ _
  -- The thread is idle after it, since no signal is for an idle thread.
  have gone : after.phase t = .idle := by
    rw [phases]
    rcases wake_cases (Function.update world.phase t .idle) signaled t with
      same | ⟨waits, -⟩ | ⟨e, waits, -⟩
    · exact same.trans own
    · rw [own] at waits
      cases waits
    · rw [own] at waits
      cases waits
  have moved : ∀ u, u ≠ t → after.phase u = world.phase u ∨
      (world.phase u = .waitingRead ∧ after.phase u = .signaledRead) ∨
      ∃ e, world.phase u = .waitingWrite e ∧ after.phase u = .signaledWrite e := by
    intro u different
    have cases := wake_cases (Function.update world.phase t .idle) signaled u
    rw [others u different, ← phases] at cases
    exact cases
  -- Nobody gets the lock.
  have nobody : ∀ u, ¬ Grants world after u := by
    intro u grants
    have holds := grants.2
    by_cases same : u = t
    · rw [same, gone] at holds
      exact holds
    · rcases moved u same with stays | ⟨-, signaled⟩ | ⟨e, -, signaled⟩
      · exact grants.1 (stays ▸ holds)
      · rw [signaled] at holds
        exact holds
      · rw [signaled] at holds
        exact holds
  constructor
  · exact fun u grants => absurd grants (nobody u)
  · intro u before signaledAfter v
    have different : u ≠ t := by
      intro same
      rw [same, gone] at signaledAfter
      cases signaledAfter
    rw [phases] at signaledAfter ⊢
    exact wake_together ((others u different).trans before) signaledAfter v
  · intro u idle waits
    have different : u ≠ t := by
      intro same
      rw [← same, idle] at held
      exact held
    rcases moved u different with stays | ⟨before, -⟩ | ⟨e, before, -⟩
    · rw [stays, idle] at waits
      exact waits.elim
    · rw [idle] at before
      cases before
    · rw [idle] at before
      cases before
  · exact fun u grants => absurd grants (nobody u)

omit [DecidableEq Thread] in
/-- A step that changes nothing is fair. -/
theorem Fair.refl (world : LockWorld Thread Context) : Fair world world where
  inTurn _ grants := absurd grants.2 grants.1
  together u before after := by
    rw [before] at after
    cases after
  queues u idle waits := by
    rw [idle] at waits
    exact waits.elim
  overtakes _ grants := absurd grants.2 grants.1

end LockWorld

namespace LockCrew

variable {Thread Context : Type} [DecidableEq Thread] {crew : LockCrew Thread}
  {world : LockWorld Thread Context} {t : Thread}

section

variable (staffs : crew.Staffs world)
include staffs

omit [DecidableEq Thread] in
/-- A writer that waits has a ticket of its own. -/
theorem Staffs.alone (u : Thread) (waits : (world.phase u).WaitsToWrite) :
    world.ticket u = world.arrival u := by
  -- Readers share a ticket, writers do not.
  cases place : world.phase u with
  | waitingWrite e => exact staffs.order.alone u e (.inr ((staffs.places.queued u e).mp place))
  | signaledWrite e =>
    exact staffs.order.alone u e (.inl ((staffs.places.signaled u e).mp place))
  | idle | waitingRead | signaledRead | reading | writing =>
    rw [place] at waits
    exact waits.elim

omit [DecidableEq Thread] in
/-- Whoever is in the queue has an older ticket than the clock, and waits behind those that were
signalled. -/
theorem Staffs.past (u : Thread) (waits : (world.phase u).Waits) :
    world.ticket u < world.clock := by
  -- The queue and those that were signalled are behind the clock.
  cases place : world.phase u with
  | waitingWrite e =>
    exact staffs.order.past (.writer u e) ((staffs.places.queued u e).mp place)
  | signaledWrite e =>
    exact (staffs.order.signaled u (.inr ⟨e, (staffs.places.signaled u e).mp place⟩)).1
  | signaledRead =>
    exact (staffs.order.signaled u (.inl ((staffs.places.called.mem_iff u).mpr place))).1
  | waitingRead =>
    have member := (staffs.places.waiting.mem_iff u).mpr place
    rw [staffs.order.group u member]
    exact staffs.order.past .readers (staffs.waits.group.mpr (List.ne_nil_of_mem member))
  | idle | reading | writing =>
    rw [place] at waits
    exact waits.elim

omit [DecidableEq Thread] in
/-- Whoever is in the queue has a newer ticket than those that were signalled. -/
theorem Staffs.behind {u : Thread} (signaled : crew.Signaled t)
    (waits : world.phase u = .waitingRead ∨ ∃ e, world.phase u = .waitingWrite e) :
    world.ticket t < world.ticket u := by
  -- The queue is in order of arrival, and the signalled ones left it first.
  have ahead := (staffs.order.signaled t signaled).2
  rcases waits with place | ⟨e, place⟩
  · have member := (staffs.places.waiting.mem_iff u).mpr place
    rw [staffs.order.group u member]
    exact ahead .readers (staffs.waits.group.mpr (List.ne_nil_of_mem member))
  · exact ahead (.writer u e) ((staffs.places.queued u e).mp place)

end

omit [DecidableEq Thread] in
/-- With readers inside and nobody in the queue, only readers that were signalled wait. -/
theorem Staffs.called {inside called : List Thread}
    (staffs : Staffs ⟨.readers inside called, [], []⟩ world) {u : Thread}
    (waits : (world.phase u).Waits) : world.phase u = .signaledRead := by
  -- Everybody else that waits would be in the queue.
  cases place : world.phase u with
  | signaledRead => rfl
  | waitingRead => cases (staffs.places.waiting.mem_iff u).mpr place
  | waitingWrite e => cases (staffs.places.queued u e).mp place
  | signaledWrite e => cases (staffs.places.signaled u e).mp place
  | idle | reading | writing =>
    rw [place] at waits
    exact waits.elim

section

variable (staffs : crew.Staffs world)
include staffs

/-- A thread that calls for reading gets the lock or waits. -/
theorem Staffs.readLock (idle : world.phase t = .idle) :
    ∃ after, world.readLock t = some after ∧ (∃ crew : LockCrew Thread, crew.Staffs after) ∧
      world.Fair after := by
  by_cases wants : 0 < world.lock.numWriters ∨ 0 < world.lock.numWantWrite
  · by_cases inQueue : .readers ∈ crew.queue
    · -- The reader joins the item of those that wait.
      have flag := staffs.counts.waitReadIsInQueue.mpr inQueue
      have joined := staffs.readLock_join idle inQueue
      refine ⟨_, ?_, ⟨_, joined⟩, ?_⟩
      · simp only [LockWorld.readLock, Frwlock.readLock, if_pos wants, flag, Bool.not_true,
          Bool.false_eq_true, if_false, if_true, bind_runs]
      · obtain ⟨u, member⟩ := List.exists_mem_of_ne_nil _ (staffs.waits.group.mp inQueue)
        refine .of_wait idle trivial (by simp) (.inl ⟨u, rfl, ?_, ?_⟩)
        · exact (staffs.places.waiting.mem_iff u).mp member
        · exact (staffs.order.group u member).symm
    · -- The reader is the first that waits, and puts the item into the queue.
      obtain ⟨lock, locked, first⟩ := staffs.readLock_first idle inQueue wants
      have flag : ¬ world.lock.waitReadIsInQueue = true :=
        mt staffs.counts.waitReadIsInQueue.mp inQueue
      refine ⟨_, ?_, ⟨_, first⟩, ?_⟩
      · simp only [LockWorld.readLock, locked, bind_runs, Bool.false_eq_true, if_false, if_neg flag]
      · refine .of_wait idle trivial (by simp) (.inr ⟨fun _ u place => ?_, staffs.past⟩)
        have member := (staffs.places.waiting.mem_iff u).mpr place
        exact inQueue (staffs.waits.group.mpr (List.ne_nil_of_mem member))
  · obtain ⟨inside, called, rfl⟩ := staffs.quiet wants
    refine ⟨_, ?_, ⟨_, staffs.readLock_now idle⟩, ?_⟩
    · simp only [LockWorld.readLock, Frwlock.readLock, if_neg wants, bind_runs, if_true]
    · refine .of_grant trivial (fun u _ waits => .inl ⟨rfl, staffs.called waits, ?_⟩)
        staffs.alone (by rintro ⟨e, writing⟩; cases writing)
      intro signaled
      rw [idle] at signaled
      cases signaled

/-- A thread that tries to read gets the lock when no writer has it or wants it. -/
theorem Staffs.tryReadLock (idle : world.phase t = .idle) :
    ∃ after, world.next (.tryReadLock t) = some after ∧
      (∃ crew : LockCrew Thread, crew.Staffs after) ∧ world.Fair after := by
  by_cases wants : 0 < world.lock.numWriters ∨ 0 < world.lock.numWantWrite
  · refine ⟨world, ?_, ⟨crew, staffs⟩, .refl world⟩
    simp [LockWorld.next, Frwlock.tryReadLock, wants]
  · -- The lock is given as by a call that may wait.
    obtain ⟨after, locked, staffed, fair⟩ := staffs.readLock idle
    refine ⟨after, ?_, staffed, fair⟩
    rw [← locked]
    simp only [LockWorld.next, Frwlock.tryReadLock, LockWorld.readLock, Frwlock.readLock,
      if_neg wants, bind_runs, if_true]

/-- A reader that was signalled gets the lock. -/
theorem Staffs.readWoken (signaled : world.phase t = .signaledRead) :
    ∃ after, world.next (.readWoken t) = some after ∧
      (∃ crew : LockCrew Thread, crew.Staffs after) ∧ world.Fair after := by
  have member := (staffs.places.called.mem_iff t).mpr signaled
  obtain ⟨turn, waiting, queue⟩ := crew
  cases turn with
  | writer u e => cases member
  | signaled u e => cases member
  | readers inside called =>
    obtain ⟨lock, locked, woken⟩ := staffs.readLockWoken signaled
    refine ⟨_, ?_, ⟨_, woken⟩, ?_⟩
    · simp only [LockWorld.next, locked, bind_runs]
    · refine .of_grant trivial (fun u different waits => ?_) staffs.alone
        (fun ⟨e, writing⟩ => by cases writing)
      cases place : world.phase u with
      | signaledRead =>
        -- The other was signalled by the same broadcast.
        have also := (staffs.places.called.mem_iff u).mpr place
        exact .inl ⟨rfl, rfl, fun _ => staffs.order.together t member u also⟩
      | waitingRead =>
        exact .inr ⟨by rw [signaled]; trivial, staffs.behind (.inl member) (.inl place)⟩
      | waitingWrite e =>
        exact .inr ⟨by rw [signaled]; trivial, staffs.behind (.inl member) (.inr ⟨e, place⟩)⟩
      | signaledWrite e => cases (staffs.places.signaled u e).mp place
      | idle | reading | writing =>
        rw [place] at waits
        exact waits.elim

/-- A thread that tries to write gets the lock when nobody has it or wants it. -/
theorem Staffs.tryWriteLock (idle : world.phase t = .idle) (expensive : Bool) (context : Context) :
    ∃ after, world.next (.tryWriteLock t expensive context) = some after ∧
      (∃ crew : LockCrew Thread, crew.Staffs after) ∧ world.Fair after := by
  by_cases busy : 0 < world.lock.numReaders ∨ 0 < world.lock.numWriters ∨
      0 < world.lock.numSignaledReaders ∨ 0 < world.lock.numWantWrite
  · refine ⟨world, ?_, ⟨crew, staffs⟩, .refl world⟩
    simp [LockWorld.next, Frwlock.tryWriteLock, busy]
  · obtain rfl := staffs.free busy
    obtain ⟨lock, locked, given⟩ := staffs.tryWriteLock_now idle expensive context
    -- Nobody waits for a lock that nobody has.
    have nobody : ∀ u, ¬ (world.phase u).Waits := by
      intro u waits
      cases (staffs.places.called.mem_iff u).mpr (staffs.called waits)
    refine ⟨_, ?_, ⟨_, given⟩, ?_⟩
    · simp only [LockWorld.next, locked, bind_runs, if_true]
    · exact .of_grant trivial (fun u _ waits => absurd waits (nobody u)) staffs.alone
        (fun _ => .inr fun u _ => nobody u)

/-- A thread that calls for writing gets the lock or waits. -/
theorem Staffs.writeLock (idle : world.phase t = .idle) (expensive : Bool) (context : Context) :
    ∃ after, world.writeLock t expensive context = some after ∧
      (∃ crew : LockCrew Thread, crew.Staffs after) ∧ world.Fair after := by
  by_cases busy : 0 < world.lock.numReaders ∨ 0 < world.lock.numWriters ∨
      0 < world.lock.numSignaledReaders ∨ 0 < world.lock.numWantWrite
  · obtain ⟨lock, locked, queued⟩ := staffs.writeLock_wait idle expensive context busy
    refine ⟨_, ?_, ⟨_, queued⟩, ?_⟩
    · simp only [LockWorld.writeLock, locked, bind_runs, Bool.false_eq_true, if_false]
    · refine .of_wait idle trivial (by simp) (.inr ⟨fun impossible => ?_, staffs.past⟩)
      cases impossible
  · -- The lock is given as by a call that does not wait.
    obtain ⟨after, tried, staffed, fair⟩ := staffs.tryWriteLock idle expensive context
    refine ⟨after, ?_, staffed, fair⟩
    obtain rfl := staffs.free busy
    obtain ⟨lock, locked, -⟩ := staffs.tryWriteLock_now idle expensive context
    rw [← tried]
    simp only [LockWorld.next, LockWorld.writeLock, Frwlock.writeLock, locked, bind_runs, if_true]

end

/-- A writer that was signalled gets the lock. -/
theorem Staffs.writeWoken {expensive : Bool} (staffs : crew.Staffs world)
    (signaled : world.phase t = .signaledWrite expensive) (context : Context) :
    ∃ after, world.next (.writeWoken t context) = some after ∧
      (∃ crew : LockCrew Thread, crew.Staffs after) ∧ world.Fair after := by
  obtain ⟨turn, waiting, queue⟩ := crew
  obtain rfl : turn = .signaled t expensive := (staffs.places.signaled t expensive).mp signaled
  obtain ⟨lock, locked, woken⟩ := staffs.writeLockWoken context
  refine ⟨_, ?_, ⟨_, woken⟩, ?_⟩
  · simp only [LockWorld.next, signaled, locked, bind_runs]
  · refine .of_grant trivial (fun u different waits => .inr ⟨by rw [signaled]; trivial, ?_⟩)
      staffs.alone (fun _ => .inl (by rw [signaled]; trivial))
    have first : Signaled ⟨.signaled t expensive, waiting, queue⟩ t := .inr ⟨expensive, rfl⟩
    cases place : world.phase u with
    | waitingRead => exact staffs.behind first (.inl place)
    | waitingWrite e => exact staffs.behind first (.inr ⟨e, place⟩)
    | signaledRead => cases (staffs.places.called.mem_iff u).mpr place
    | signaledWrite e =>
      -- Only one writer is signalled at a time.
      have turn := (staffs.places.signaled u e).mp place
      injection turn with same
      exact absurd same.symm different
    | idle | reading | writing =>
      rw [place] at waits
      exact waits.elim

/-- Whatever a thread may do leads on, to a world that is staffed again, and is fair. -/
theorem Staffs.next (staffs : crew.Staffs world) {event : LockEvent Thread Context}
    (allowed : world.Allowed event) :
    ∃ after, world.next event = some after ∧ (∃ crew : LockCrew Thread, crew.Staffs after) ∧
      world.Fair after := by
  -- One case for each function of the lock.
  cases event with
  | readLock t => exact staffs.readLock allowed
  | tryReadLock t => exact staffs.tryReadLock allowed
  | readWoken t => exact staffs.readWoken allowed
  | writeLock t expensive context => exact staffs.writeLock allowed expensive context
  | tryWriteLock t expensive context => exact staffs.tryWriteLock allowed expensive context
  | writeWoken t context =>
    obtain ⟨expensive, signaled⟩ := allowed
    exact staffs.writeWoken signaled context
  | readUnlock t =>
    have reading : world.phase t = .reading := allowed
    have member := (staffs.places.inside.mem_iff t).mpr reading
    obtain ⟨turn, waiting, queue⟩ := crew
    cases turn with
    | writer u e => cases member
    | signaled u e => cases member
    | readers inside called =>
      obtain ⟨after, unlocked, staffed, signaled, phases⟩ := staffs.readUnlock reading
      exact ⟨after, unlocked, staffed, .of_unlock phases (by rw [reading]; trivial)⟩
  | writeUnlock t =>
    obtain ⟨expensive, writing⟩ := allowed
    obtain ⟨turn, waiting, queue⟩ := crew
    obtain rfl : turn = .writer t expensive := (staffs.places.writer t expensive).mp writing
    obtain ⟨after, unlocked, staffed, signaled, phases⟩ := staffs.writeUnlock
    exact ⟨after, unlocked, staffed, .of_unlock phases (by rw [writing]; trivial)⟩

omit [DecidableEq Thread] in
/-- Nobody uses a new lock. -/
theorem staffs_init : Staffs ⟨.readers [] [], [], []⟩ (.init : LockWorld Thread Context) where
  places := by
    -- All threads are idle.
    constructor
    · exact .nobody fun t => by simp [LockWorld.init]
    · exact .nobody fun t => by simp [LockWorld.init]
    · exact .nobody fun t => by simp [LockWorld.init]
    · exact fun t e => by simp [LockWorld.init]
    · exact fun t e => by simp [LockWorld.init]
    · exact fun t e => by simp [LockWorld.init]
  counts := ⟨rfl, rfl, rfl, rfl, rfl, rfl, rfl, by simp [LockWorld.init, Frwlock.init], .empty _⟩
  waits := ⟨by simp, fun _ _ _ first rest none => by cases none⟩
  prices := ⟨fun _ => rfl, fun member => by cases member⟩
  order := by
    refine ⟨.nil, fun entry member => ?_, fun t member => ?_, fun t either => ?_,
      fun t member => ?_, fun t e either => rfl⟩
    · cases member
    · cases member
    · rcases either with member | ⟨e, turn⟩
      · cases member
      · cases turn
    · cases member

end LockCrew

namespace LockWorld

variable {Thread Context : Type} [DecidableEq Thread]

/-- Some crew staffs the world. -/
def Staffed (world : LockWorld Thread Context) : Prop :=
  ∃ crew : LockCrew Thread, crew.Staffs world

/-- Every world that threads lead to is staffed. -/
theorem staffed {events : List (LockEvent Thread Context)} {world : LockWorld Thread Context}
    (run : Runs Step .init events world) : world.Staffed := by
  -- The crew follows the world step by step.
  have initial : (init : LockWorld Thread Context).Staffed := ⟨_, LockCrew.staffs_init⟩
  refine run.invariant initial ?_
  intro before event after ⟨crew, staffs⟩ ⟨allowed, next⟩
  -- The step is the one that is known to lead on.
  obtain ⟨found, leads, staffed, -⟩ := staffs.next allowed
  rw [leads] at next
  injection next with same
  exact same ▸ staffed

/-- The lock is exclusive, loses no wakeup, counts its users, tells what is expensive, never fails
an assertion, and is fair: whoever waits in an earlier item gets it earlier, the readers that wait
get it together, and only by joining readers that wait does a reader get it before a writer that
came earlier. -/
theorem fairLock {events : List (LockEvent Thread Context)} {world : LockWorld Thread Context}
    (run : Runs Step .init events world) :
    world.Exclusive ∧ world.Attended ∧ world.UsersCounted ∧ world.Priced ∧
      ∀ event, world.Allowed event → ∃ after, world.next event = some after ∧ world.Fair after := by
  obtain ⟨crew, staffs⟩ := staffed run
  refine ⟨staffs.exclusive, staffs.attended, staffs.usersCounted, staffs.priced, ?_⟩
  intro event allowed
  obtain ⟨after, next, -, fair⟩ := staffs.next allowed
  exact ⟨after, next, fair⟩

/-- A thread takes one more step. -/
theorem step_next {start before after : LockWorld Thread Context}
    {events : List (LockEvent Thread Context)} (run : Runs Step start events before)
    (event : LockEvent Thread Context) (allowed : before.Allowed event)
    (next : before.next event = some after) : Runs Step start (events ++ [event]) after :=
  .next run ⟨allowed, next⟩

/-- The first of two threads writes, and the second waits to read. -/
theorem fairLock_waiting : ∃ world : LockWorld Nat Nat,
    Runs Step .init [.writeLock 0 true 7, .readLock 1] world ∧ world.phase 1 = .waitingRead ∧
      world.Exclusive ∧ world.Attended ∧ world.UsersCounted ∧ world.Priced ∧
      ∀ event, world.Allowed event →
        ∃ after, world.next event = some after ∧ world.Fair after := by
  have writing := step_next (.start : Runs Step (.init : LockWorld Nat Nat) [] .init)
    (.writeLock 0 true 7) rfl rfl
  have waiting := step_next writing (.readLock 1) rfl rfl
  exact ⟨_, waiting, rfl, fairLock waiting⟩

/-- A reader that joins another one gets the lock before a writer that came to wait earlier. -/
theorem reader_overtakes_writer : ∃ (events : List (LockEvent Nat Nat))
    (before after : LockWorld Nat Nat), Runs Step .init events before ∧
      Step before (.readWoken 3) after ∧ Grants before after 3 ∧ after.phase 3 = .reading ∧
      after.phase 2 = .waitingWrite false ∧ after.arrival 2 < after.arrival 3 := by
  have writing := step_next (.start : Runs Step (.init : LockWorld Nat Nat) [] .init)
    (.writeLock 0 false 7) rfl rfl
  -- The first reader queues ahead of the second writer, and the second reader joins it.
  have reader := step_next writing (.readLock 1) rfl rfl
  have writer := step_next reader (.writeLock 2 false 7) rfl rfl
  have joined := step_next writer (.readLock 3) rfl rfl
  have signaled := step_next joined (.writeUnlock 0) ⟨false, rfl⟩ rfl
  refine ⟨_, _, _, signaled, And.intro rfl rfl, ⟨id, trivial⟩, rfl, rfl, ?_⟩
  exact Nat.lt_succ_self 1

end LockWorld

end Tokuft
