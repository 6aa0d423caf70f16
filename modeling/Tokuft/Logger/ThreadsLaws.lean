import Tokuft.Logger.Threads

/-! What a thread may rely on at each place, while the other threads go on. -/

namespace Tokuft

namespace LogThread

/-- A thread has the output to itself. -/
def HasOutput : LogThread → Prop
  | .lockAgain _ _ _ | .madeSpace _ _ _ | .lockToSwap _ _ | .swapped _ _ | .written _ _
  | .synced _ _ => True
  | _ => False

/-- A thread holds the input lock when its turn ends. -/
def HasLock : LogThread → Prop
  | .madeSpace _ _ _ | .append _ _ => True
  | _ => False

/-- A thread took the entries out of the input buffer in order to sync them. -/
def TookEntries : LogThread → Prop
  | .swapped _ _ | .written _ _ | .synced _ _ => True
  | _ => False

/-- What the local variables of a thread say about the log. -/
def Ok (first : Nat) (logger : TokuLogger) : LogThread → Prop
  | .grabOutput buflen _ => 0 < buflen
  | .lockAgain buflen _ fsyncedLsn => 0 < buflen ∧ fsyncedLsn = logger.fsyncedLsn
  | .madeSpace buflen _ fsyncedLsn => 0 < buflen ∧ fsyncedLsn = logger.fsyncedLsn
  | .append buflen _ => 0 < buflen
  | .waitTill flush => flush.lsn ≤ logger.lsn ∧ flush.before ≤ logger.lsn
  | .lockToSwap flush fsyncedLsn => fsyncedLsn = logger.fsyncedLsn ∧ fsyncedLsn < flush.lsn ∧
    flush.lsn ≤ logger.lsn ∧ flush.before ≤ logger.lsn
  | .swapped flush fsyncedLsn => fsyncedLsn = logger.fsyncedLsn ∧ fsyncedLsn < flush.lsn ∧
    flush.lsn ≤ logger.lsn ∧ flush.before ≤ logger.outEnd
  | .written flush fsyncedLsn => fsyncedLsn = logger.fsyncedLsn ∧ flush.lsn ≤ logger.lsn ∧
    flush.before ≤ logger.writtenLsn ∧ logger.outEnd = logger.writtenLsn ∧
    (fsyncedLsn < flush.lsn ∨ fsyncedLsn = logger.writtenLsn)
  | .synced flush fsyncedLsn => fsyncedLsn = logger.writtenLsn ∧
    flush.before ≤ logger.writtenLsn ∧ logger.SyncedTo first logger.writtenLsn
  | _ => True

section

variable {first : Nat} {logger after : TokuLogger} {thread : LogThread}
  (ok : thread.Ok first logger)
include ok

/-- A thread that does not have the output relies on nothing that takes entries away. -/
theorem Ok.mono (outside : ¬ thread.HasOutput) (grows : logger.lsn ≤ after.lsn) :
    thread.Ok first after := by
  cases thread
  case waitTill flush => exact ⟨le_trans ok.1 grows, le_trans ok.2 grows⟩
  case grabOutput => exact ok
  case append => exact ok
  all_goals first | exact trivial | exact absurd trivial outside

/-- A thread that has the output relies on the buffers that only it may write. -/
theorem Ok.same (grows : logger.lsn ≤ after.lsn) (synced : after.fsyncedLsn = logger.fsyncedLsn)
    (written : after.writtenLsn = logger.writtenLsn) (ended : after.outEnd = logger.outEnd)
    (durable : ∀ lsn, logger.Durable lsn → after.Durable lsn) : thread.Ok first after := by
  cases thread <;> simp only [LogThread.Ok, synced, written, ended] at ok ⊢
  case lockAgain => exact ok
  case madeSpace => exact ok
  case grabOutput => exact ok
  case append => exact ok
  case waitTill => omega
  case lockToSwap => omega
  case swapped => omega
  case written => omega
  case synced =>
    refine ⟨ok.1, ok.2.1, ?_⟩
    intro lsn newer bound
    exact durable lsn (ok.2.2 lsn newer (written ▸ bound))

end

end LogThread

namespace LogWorld

open LogThread TokuLogger

variable {first : Nat} {world : LogWorld} {t : Nat}

/-- The log is in order, at most one thread has the output, and every thread knows where it is. -/
structure Good (first : Nat) (world : LogWorld) : Prop where
  logger : world.logger.Ok first
  holder : ∀ {t u}, (world.threads t).HasOutput → (world.threads u).HasOutput → t = u
  available : world.logger.outputIsAvailable = true → ∀ t, ¬ (world.threads t).HasOutput
  lock : ∀ t, (world.threads t).HasLock → world.logger.inputLock = some t
  threads : ∀ t, (world.threads t).Ok first world.logger
  /-- Only a thread that is about to write leaves something in the output buffer. -/
  toWrite : 0 < world.logger.outbuf.nInBuf →
    ∃ t flush fsyncedLsn, world.threads t = .swapped flush fsyncedLsn
  /-- What was taken out of an empty input buffer is synced, or some thread will do it. -/
  taken : world.logger.inbuf.nInBuf = 0 → world.logger.inputLock = none →
    world.logger.lsn ≤ world.logger.fsyncedLsn ∨ ∃ t, (world.threads t).TookEntries
  /-- Other threads hear of synced entries when the output is released. -/
  announced : ∀ lsn, world.logger.Durable lsn → lsn ≤ world.logger.fsyncedLsn ∨
    ∃ t flush fsyncedLsn, world.threads t = .synced flush fsyncedLsn

/-- No other thread has the output. -/
def Alone (world : LogWorld) (t : Nat) : Prop := ∀ u, u ≠ t → ¬ (world.threads u).HasOutput

/-- The thread that moves is where it was put. -/
@[simp] theorem threads_at'_self (logger : TokuLogger) (thread : LogThread) :
    (world.at' t logger thread).threads t = thread := if_pos rfl

/-- The other threads stay where they are. -/
theorem threads_at'_of_ne {u : Nat} (other : u ≠ t) (logger : TokuLogger) (thread : LogThread) :
    (world.at' t logger thread).threads u = world.threads u := if_neg other

/-- The log is the one that the thread leaves behind. -/
@[simp] theorem logger_at' (logger : TokuLogger) (thread : LogThread) :
    (world.at' t logger thread).logger = logger := rfl

section

variable (good : Good first world)
include good

/-- A thread that has the output is the only one. -/
theorem Good.alone (has : (world.threads t).HasOutput) :
    world.Alone t := fun _ other holds => other (good.holder holds has)

/-- A thread that holds the input lock is the only one. -/
theorem Good.lockedAlone (lock : world.logger.inputLock = some t) (u : Nat) (other : u ≠ t) :
    ¬ (world.threads u).HasLock := by
  intro holds
  rw [good.lock u holds] at lock
  exact other (Option.some.inj lock)

/-- A thread that may use the output goes on, and no other thread relied on what it changes. -/
theorem Good.atOutput (alone : world.Alone t) {logger : TokuLogger} {thread : LogThread}
    (ok : logger.Ok first) (grows : world.logger.lsn ≤ logger.lsn) (here : thread.Ok first logger)
    (released : logger.outputIsAvailable = true → ¬ thread.HasOutput)
    (lock : thread.HasLock → logger.inputLock = some t)
    (locks : ∀ u, u ≠ t → (world.threads u).HasLock → logger.inputLock = some u)
    (toWrite : 0 < logger.outbuf.nInBuf → ∃ flush fsyncedLsn, thread = .swapped flush fsyncedLsn)
    (taken : logger.inbuf.nInBuf = 0 → logger.inputLock = none →
      logger.lsn ≤ logger.fsyncedLsn ∨ thread.TookEntries)
    (announced : ∀ lsn, logger.Durable lsn → lsn ≤ logger.fsyncedLsn ∨
      ∃ flush fsyncedLsn, thread = .synced flush fsyncedLsn) :
    Good first (world.at' t logger thread) := by
  have self : (world.at' t logger thread).threads t = thread := threads_at'_self logger thread
  refine ⟨ok, ?holder, ?available, ?lock, ?threads, ?toWrite, ?taken, ?announced⟩
  case holder =>
    intro u v first second
    by_cases mine : u = t
    · by_cases his : v = t
      · rw [mine, his]
      · rw [threads_at'_of_ne his] at second
        exact absurd second (alone v his)
    · rw [threads_at'_of_ne mine] at first
      exact absurd first (alone u mine)
  case available =>
    intro available u
    by_cases mine : u = t
    · cases mine
      rw [self]
      exact released available
    · rw [threads_at'_of_ne mine]
      exact alone u mine
  case lock =>
    intro u holds
    by_cases mine : u = t
    · cases mine
      rw [self] at holds
      exact lock holds
    · rw [threads_at'_of_ne mine] at holds
      exact locks u mine holds
  case threads =>
    intro u
    by_cases mine : u = t
    · cases mine
      rw [self]
      exact here
    · rw [threads_at'_of_ne mine]
      exact (good.threads u).mono (alone u mine) grows
  case toWrite =>
    intro filled
    obtain ⟨flush, fsyncedLsn, same⟩ := toWrite filled
    exact ⟨t, flush, fsyncedLsn, self.trans same⟩
  case taken =>
    intro empty free
    rcases taken empty free with synced | took
    · exact .inl synced
    · refine .inr ⟨t, ?_⟩
      rw [self]
      exact took
  case announced =>
    intro lsn durable
    rcases announced lsn durable with known | ⟨flush, fsyncedLsn, same⟩
    · exact .inl known
    · exact .inr ⟨t, flush, fsyncedLsn, self.trans same⟩

/-- A thread that leaves the output alone goes on, and so does what the others rely on. -/
theorem Good.beside {logger : TokuLogger} {thread : LogThread}
    (outside : ¬ (world.threads t).HasOutput) (stays : ¬ thread.HasOutput) (ok : logger.Ok first)
    (grows : world.logger.lsn ≤ logger.lsn) (here : thread.Ok first logger)
    (available : logger.outputIsAvailable = world.logger.outputIsAvailable)
    (lock : thread.HasLock → logger.inputLock = some t)
    (locks : ∀ u, u ≠ t → (world.threads u).HasLock → logger.inputLock = some u)
    (synced : logger.fsyncedLsn = world.logger.fsyncedLsn)
    (written : logger.writtenLsn = world.logger.writtenLsn)
    (outbuf : logger.outbuf = world.logger.outbuf)
    (durable : ∀ lsn, world.logger.Durable lsn ↔ logger.Durable lsn)
    (taken : logger.inbuf.nInBuf = 0 → logger.inputLock = none →
      world.logger.inbuf.nInBuf = 0 ∧ world.logger.inputLock = none ∧
        world.logger.lsn = logger.lsn) :
    Good first (world.at' t logger thread) := by
  have self : (world.at' t logger thread).threads t = thread := threads_at'_self logger thread
  have ended : logger.outEnd = world.logger.outEnd := by
    unfold outEnd
    rw [outbuf, written]
  -- A thread with the output is another one, and stays where it is.
  have kept : ∀ u, (world.threads u).HasOutput →
      (world.at' t logger thread).threads u = world.threads u := by
    intro u holds
    apply threads_at'_of_ne
    intro same
    cases same
    exact outside holds
  refine ⟨ok, ?holder, ?available, ?lock, ?threads, ?toWrite, ?taken, ?announced⟩
  case holder =>
    intro u v first second
    by_cases mine : u = t
    · cases mine
      rw [self] at first
      exact absurd first stays
    · by_cases his : v = t
      · cases his
        rw [self] at second
        exact absurd second stays
      · rw [threads_at'_of_ne mine] at first
        rw [threads_at'_of_ne his] at second
        exact good.holder first second
  case available =>
    intro free u
    by_cases mine : u = t
    · cases mine
      rw [self]
      exact stays
    · rw [threads_at'_of_ne mine]
      exact good.available (available.symm.trans free) u
  case lock =>
    intro u holds
    by_cases mine : u = t
    · cases mine
      rw [self] at holds
      exact lock holds
    · rw [threads_at'_of_ne mine] at holds
      exact locks u mine holds
  case threads =>
    intro u
    by_cases mine : u = t
    · cases mine
      rw [self]
      exact here
    · rw [threads_at'_of_ne mine]
      exact (good.threads u).same grows synced written ended fun lsn => (durable lsn).mp
  case toWrite =>
    intro filled
    rw [logger_at', outbuf] at filled
    obtain ⟨u, flush, fsyncedLsn, same⟩ := good.toWrite filled
    refine ⟨u, flush, fsyncedLsn, (kept u ?_).trans same⟩
    rw [same]
    exact trivial
  case taken =>
    intro empty free
    obtain ⟨empty, free, same⟩ := taken empty free
    rw [logger_at', synced, ← same]
    rcases good.taken empty free with known | ⟨u, took⟩
    · exact .inl known
    · refine .inr ⟨u, ?_⟩
      rw [kept u ?_]
      · exact took
      · cases place : world.threads u <;> rw [place] at took <;> trivial
  case announced =>
    intro lsn here
    rw [logger_at', synced]
    rcases good.announced lsn ((durable lsn).mpr here) with known | ⟨u, flush, fsyncedLsn, same⟩
    · exact .inl known
    · refine .inr ⟨u, flush, fsyncedLsn, (kept u ?_).trans same⟩
      rw [same]
      exact trivial

end

/-- When a log is opened, no thread has begun anything. -/
theorem opened_good (lastLsn lgMax : Nat) : Good lastLsn (opened lastLsn lgMax) where
  logger := opened_ok lastLsn lgMax
  holder := fun has => has.elim
  available := fun _ _ has => has.elim
  lock := fun _ has => has.elim
  threads := fun _ => trivial
  toWrite := fun filled => absurd filled (Nat.lt_irrefl 0)
  taken := fun _ _ => .inl le_rfl
  announced := by
    intro lsn durable
    simp [opened, TokuLogger.opened, Durable] at durable

end LogWorld

end Tokuft
