import Tokuft.Logger.ThreadsSteps

/-! When an explicit flush of the log makes every earlier entry durable. -/

namespace Tokuft.LogWorld

open LogThread TokuLogger

variable {first : Nat} {world after : LogWorld} {t : Nat}

/-- A flush will not return before what it was called after is synced. -/
def SafeThread (first : Nat) (world : LogWorld) : LogThread → Prop
  | .waitTill flush => flush.before ≤ flush.lsn ∨ world.logger.SyncedTo first flush.before ∨
    -- Another thread has the output, and syncs the earlier entries before it lets go.
    (world.logger.fsyncedLsn < flush.lsn ∧ flush.before ≤ world.logger.outEnd ∧
      ∃ u, Unsynced (world.threads u))
  | .flushed flush => world.logger.SyncedTo first flush.before
  | _ => True

/-- No flush returns too early. -/
def Safe (first : Nat) (world : LogWorld) : Prop :=
  ∀ t, SafeThread first world (world.threads t)

/-- What a step of one thread means for the flushes of the others. -/
structure Moves (first : Nat) (world : LogWorld) (t : Nat) (after : LogWorld) : Prop where
  others : ∀ u, u ≠ t → after.threads u = world.threads u
  durable : ∀ lsn, world.logger.Durable lsn → after.logger.Durable lsn
  /-- Only a thread that has the output changes what is announced and what is swapped. -/
  still : ¬ (world.threads t).HasOutput → after.logger.fsyncedLsn = world.logger.fsyncedLsn ∧
    after.logger.outEnd = world.logger.outEnd
  /-- Entries that were swapped out stay with the thread until they are synced. -/
  unsynced : Unsynced (world.threads t) → after.logger.SyncedTo first world.logger.outEnd ∨
    (Unsynced (after.threads t) ∧ after.logger.fsyncedLsn = world.logger.fsyncedLsn ∧
      after.logger.outEnd = world.logger.outEnd)

variable {thread : LogThread}

/-- A thread with entries that are not synced has the output. -/
theorem hasOutput_of_unsynced (unsynced : Unsynced thread) :
    thread.HasOutput := by
  cases thread <;> trivial

/-- A step that leaves files, announcements and the output buffer alone. -/
theorem moves_quiet {logger : TokuLogger} (outside : ¬ Unsynced (world.threads t))
    (durable : ∀ lsn, world.logger.Durable lsn → logger.Durable lsn)
    (fsynced : logger.fsyncedLsn = world.logger.fsyncedLsn)
    (ended : logger.outEnd = world.logger.outEnd) :
    Moves first world t (world.at' t logger thread) where
  others := fun _ other => threads_at'_of_ne other logger thread
  durable := durable
  still := fun _ => ⟨fsynced, ended⟩
  unsynced := fun unsynced => absurd unsynced outside

/-- A step of a thread that has the output and has nothing to sync. -/
theorem moves_output {logger : TokuLogger} (has : (world.threads t).HasOutput)
    (outside : ¬ Unsynced (world.threads t))
    (durable : ∀ lsn, world.logger.Durable lsn → logger.Durable lsn) :
    Moves first world t (world.at' t logger thread) where
  others := fun _ other => threads_at'_of_ne other logger thread
  durable := durable
  still := fun without => absurd has without
  unsynced := fun unsynced => absurd unsynced outside

/-- A flush of another thread is as safe after a step as before. -/
theorem Moves.kept (moves : Moves first world t after) (good : Good first world) {u : Nat}
    (other : u ≠ t) (safe : SafeThread first world (world.threads u)) :
    SafeThread first after (after.threads u) := by
  have further : ∀ {last}, world.logger.SyncedTo first last → after.logger.SyncedTo first last :=
    fun synced lsn newer bound => moves.durable lsn (synced lsn newer bound)
  rw [moves.others u other]
  cases place : world.threads u <;> rw [place] at safe
  case flushed flush => exact further safe
  case waitTill flush =>
    rcases safe with target | synced | ⟨waits, bound, v, unsynced⟩
    · exact .inl target
    · exact .inr (.inl (further synced))
    · by_cases mine : v = t
      · -- The thread that syncs the entries moved.
        cases mine
        rcases moves.unsynced unsynced with synced | ⟨still, fsynced, ended⟩
        · exact .inr (.inl fun lsn newer within => synced lsn newer (le_trans within bound))
        · exact .inr (.inr ⟨fsynced ▸ waits, ended ▸ bound, _, still⟩)
      · by_cases has : (world.threads t).HasOutput
        · exact absurd (good.holder (hasOutput_of_unsynced unsynced) has) mine
        · obtain ⟨fsynced, ended⟩ := moves.still has
          refine .inr (.inr ⟨fsynced ▸ waits, ended ▸ bound, v, ?_⟩)
          rw [moves.others v mine]
          exact unsynced
  all_goals exact trivial

/-- A step keeps every flush safe when it leaves its own thread safe. -/
theorem Safe.moved (safe : Safe first world) (good : Good first world)
    (moves : Moves first world t after) (own : SafeThread first after (after.threads t)) :
    Safe first after := by
  intro u
  by_cases mine : u = t
  · rw [mine]
    exact own
  · exact moves.kept good mine (safe u)

/-- Appending an entry keeps every flush safe. -/
theorem Safe.appendEntry (safe : Safe first world) (good : Good first world) {buflen : Nat}
    {doFsync : Bool} (outside : ¬ Unsynced (world.threads t)) :
    Safe first (world.appendEntry t buflen doFsync) := by
  unfold LogWorld.appendEntry
  refine safe.moved good (moves_quiet outside (fun _ durable => durable) rfl rfl) ?_
  rw [threads_at'_self]
  cases doFsync
  · exact trivial
  · exact .inl le_rfl

/-- Whatever an explicit flush reads that is not stale, it waits for what it was called after. -/
theorem Good.readsClear (good : Good first world) (free : world.logger.inputLock = none)
    (clear : ¬ world.ReadsStale) :
    SafeThread first world (.waitTill ⟨world.logger.inbuf.maxLsnInBuf, world.logger.lsn⟩) := by
  by_cases filled : 0 < world.logger.inbuf.nInBuf
  · exact .inl (le_of_eq (good.logger.newest filled).1.symm)
  have empty : world.logger.inbuf.nInBuf = 0 := by omega
  have ended := good.logger.swapped empty
  rcases good.taken empty free with announced | ⟨u, took⟩
  · refine .inr (.inl fun lsn newer bound => ?_)
    exact good.logger.synced lsn newer (le_trans bound announced)
  by_cases unsynced : Unsynced (world.threads u)
  · -- Some thread still has to sync, so what is read must not be announced yet.
    refine .inr (.inr ⟨?_, le_of_eq ended.symm, u, unsynced⟩)
    by_contra announced
    exact clear ⟨empty, Nat.le_of_not_lt announced, u, unsynced⟩
  · -- The thread that took the entries synced them, and only has to let go of the output.
    have here := good.threads u
    refine .inr (.inl fun lsn newer bound => ?_)
    have bound : lsn ≤ world.logger.outEnd := ended ▸ bound
    cases place : world.threads u <;> rw [place] at took here unsynced
    case swapped => exact absurd trivial unsynced
    case written flush fsyncedLsn =>
      obtain ⟨told, _, _, same, target⟩ := here
      have reached : ¬ fsyncedLsn < flush.lsn := unsynced
      exact good.logger.synced lsn newer (by omega)
    case synced flush fsyncedLsn =>
      have same := outEnd_of_empty (good.emptyTo (t := u) (by rw [place]; exact trivial)
        (by simp [place]))
      exact here.2.2 lsn newer (by omega)
    all_goals exact took.elim

/-- Every clear step keeps every flush safe. -/
theorem Safe.next (safe : Safe first world) (good : Good first world) {event : LogEvent}
    (step : world.ClearStep event after) : Safe first after := by
  obtain ⟨clear, done⟩ := step
  cases event
  case log u fieldsSize doFsync =>
    simp only [LogWorld.next] at done
    split at done
    case isFalse => cases done
    case isTrue idle =>
      have outside : ¬ Unsynced (world.threads u) := by rw [idle]; exact fun wrong => wrong
      simp only [LogWorld.log] at done
      split at done
      case isFalse => cases done
      case isTrue =>
        split at done
        · cases done
          exact safe.appendEntry good outside
        · cases done
          refine safe.moved good (moves_quiet outside (fun _ durable => durable) rfl rfl) ?_
          rw [threads_at'_self]
          exact trivial
  case fsync u =>
    simp only [LogWorld.next] at done
    split at done
    case isFalse => cases done
    case isTrue idle =>
      have outside : ¬ Unsynced (world.threads u) := by rw [idle]; exact fun wrong => wrong
      unfold LogWorld.fsync at done
      split at done
      case isFalse => cases done
      case isTrue free =>
        cases done
        refine safe.moved good (moves_quiet outside (fun _ durable => durable) rfl rfl) ?_
        rw [threads_at'_self]
        rcases good.readsClear free clear with target | synced | ⟨waits, bound, v, unsynced⟩
        · exact .inl target
        · exact .inr (.inl synced)
        · refine .inr (.inr ⟨waits, bound, v, ?_⟩)
          rw [threads_at'_of_ne]
          · exact unsynced
          · intro same
            cases same
            exact outside unsynced
  case fsyncIfLsnNotFsynced u lsn =>
    simp only [LogWorld.next] at done
    split at done
    case isFalse => cases done
    case isTrue idle =>
      have outside : ¬ Unsynced (world.threads u) := by rw [idle]; exact fun wrong => wrong
      unfold LogWorld.fsyncIfLsnNotFsynced at done
      split at done
      case isFalse => cases done
      case isTrue =>
        cases done
        refine safe.moved good (moves_quiet outside (fun _ durable => durable) rfl rfl) ?_
        rw [threads_at'_self]
        exact .inl le_rfl
  case goOn u =>
    have here := good.threads u
    have mine := safe u
    cases place : world.threads u <;> simp only [LogWorld.next, place, LogWorld.goOn] at done
    all_goals rw [place] at here mine
    case idle => cases done
    case grabOutput buflen doFsync =>
      unfold LogWorld.grabOutput at done
      split at done
      case isFalse => cases done
      case isTrue =>
        cases done
        refine safe.moved good (moves_quiet (by rw [place]; exact fun wrong => wrong)
          (fun _ durable => durable) rfl rfl) ?_
        rw [threads_at'_self]
        exact trivial
    case lockAgain buflen doFsync fsyncedLsn =>
      have has : (world.threads u).HasOutput := by rw [place]; exact trivial
      unfold LogWorld.makeSpace at done
      split at done
      case isFalse => cases done
      case isTrue =>
        obtain ⟨⟨logger, fsyncedAfter⟩, made, rest⟩ := of_bind done
        cases rest
        have space := (good.logger.locks (some u) world.logger.outputIsAvailable).makeSpaceInInbuf
          (good.emptyTo has (by simp [place])) here.2 made
        refine safe.moved good (moves_output has (by rw [place]; exact fun wrong => wrong)
          space.durable) ?_
        rw [threads_at'_self]
        exact trivial
    case madeSpace =>
      cases done
      refine safe.moved good (moves_output (by rw [place]; exact trivial)
        (by rw [place]; exact fun wrong => wrong) fun _ durable => durable) ?_
      rw [threads_at'_self]
      exact trivial
    case append =>
      cases done
      exact safe.appendEntry good (by rw [place]; exact fun wrong => wrong)
    case waitTill flush =>
      have outside : ¬ Unsynced (world.threads u) := by rw [place]; exact fun wrong => wrong
      unfold LogWorld.waitTill at done
      split at done
      case isTrue announced =>
        cases done
        refine safe.moved good (moves_quiet outside (fun _ durable => durable) rfl rfl) ?_
        rw [threads_at'_self]
        intro lsn newer bound
        rcases mine with target | synced | ⟨waits, _⟩
        · exact good.logger.synced lsn newer (by omega)
        · exact synced lsn newer bound
        · omega
      case isFalse =>
        split at done
        case isFalse => cases done
        case isTrue =>
          cases done
          refine safe.moved good (moves_quiet outside (fun _ durable => durable) rfl rfl) ?_
          rw [threads_at'_self]
          exact trivial
    case lockToSwap flush fsyncedLsn =>
      unfold LogWorld.swap at done
      split at done
      case isFalse => cases done
      case isTrue =>
        obtain ⟨logger, swapped, rest⟩ := of_bind done
        cases rest
        obtain ⟨_, _, _, rfl⟩ := good.logger.swap swapped
        refine safe.moved good (moves_output (by rw [place]; exact trivial)
          (by rw [place]; exact fun wrong => wrong) fun _ durable => durable) ?_
        rw [threads_at'_self]
        exact trivial
    case swapped flush fsyncedLsn =>
      obtain ⟨⟨logger, fsyncedAfter⟩, written, rest⟩ := of_bind done
      cases rest
      have wrote := good.logger.writeOutbufToLogfile written
      have has : (world.threads u).HasOutput := by rw [place]; exact trivial
      have moves : Moves first world u (world.at' u logger (.written flush fsyncedAfter)) := by
        refine ⟨fun _ other => threads_at'_of_ne other _ _, wrote.durable,
          fun without => absurd has without, fun _ => ?_⟩
        rcases wrote.fsynced with ⟨kept, still, _⟩ | ⟨_, told⟩
        · -- The entries are in the file, and the thread goes on to sync them.
          refine .inr ⟨?_, still, (outEnd_of_empty wrote.empty).trans wrote.written⟩
          rw [threads_at'_self]
          exact kept ▸ here.2.1
        · refine .inl ?_
          rw [← wrote.written, ← told]
          exact wrote.ok.synced
      refine safe.moved good moves ?_
      rw [threads_at'_self]
      exact trivial
    case written flush fsyncedLsn =>
      have has : (world.threads u).HasOutput := by rw [place]; exact trivial
      obtain ⟨_, _, _, ended, _⟩ := here
      unfold LogWorld.sync at done
      split at done
      case isTrue =>
        obtain ⟨_, rest⟩ := of_invariant done
        cases rest
        have durable : ∀ lsn, world.logger.Durable lsn → world.logger.fsyncFile.Durable lsn :=
          fun lsn durable => (durable_fsyncFile good.logger lsn).mpr durable.written
        refine safe.moved good ⟨fun _ other => threads_at'_of_ne other _ _, durable,
          fun without => absurd has without,
          fun _ => .inl (ended ▸ good.logger.fsyncFile.2)⟩ ?_
        rw [threads_at'_self]
        exact trivial
      case isFalse reached =>
        cases done
        refine safe.moved good (moves_output has (by rw [place]; exact reached)
          fun _ durable => durable) ?_
        rw [threads_at'_self]
        exact trivial
    case synced flush fsyncedLsn =>
      cases done
      refine safe.moved good (moves_output (by rw [place]; exact trivial)
        (by rw [place]; exact fun wrong => wrong) fun _ durable => durable) ?_
      rw [threads_at'_self]
      intro lsn newer bound
      exact here.2.2 lsn newer (le_trans bound here.2.1)
    case flushed flush =>
      cases done
      refine safe.moved good (moves_quiet (by rw [place]; exact fun wrong => wrong)
        (fun _ durable => durable) rfl rfl) ?_
      rw [threads_at'_self]
      exact trivial

/-- In every run in which no explicit flush makes a stale read, a flush returns only when every
entry that was appended before it was called is synced. A flush that makes a stale read returns
at once, although the last entry is not synced. -/
theorem logFlush_exact (lastLsn lgMax : Nat) (events : List LogEvent) (world : LogWorld) :
    (Runs ClearStep (opened lastLsn lgMax) events world → world.FlushesDurably lastLsn) ∧
    (Runs Step (opened lastLsn lgMax) events world → world.ReadsStale →
      ∀ t asked, world.next (.fsync t) = some asked →
        ∃ returned, asked.next (.goOn t) = some returned ∧
          ¬ returned.FlushesDurably lastLsn) := by
  constructor
  · intro run
    have kept : Good lastLsn world ∧ Safe lastLsn world := by
      apply run.invariant ⟨opened_good lastLsn lgMax, fun _ => trivial⟩
      rintro before event after ⟨good, safe⟩ step
      exact ⟨good.next step.2, safe.next good step⟩
    intro t flush place
    have safe := kept.2 t
    rw [place] at safe
    exact safe
  · intro run stale t asked done
    have good : Good lastLsn world :=
      run.invariant (opened_good lastLsn lgMax) fun good step => good.next step
    obtain ⟨_, announced, u, unsynced⟩ := stale
    have here := good.threads u
    have has := hasOutput_of_unsynced unsynced
    -- The thread that swapped the buffers goes for an entry that is not synced.
    have behind : world.logger.fsyncedLsn < world.logger.lsn := by
      cases place : world.threads u <;> rw [place] at here unsynced
      case swapped => exact lt_of_lt_of_le (here.1 ▸ here.2.1) here.2.2.1
      case written => exact lt_of_lt_of_le (here.1 ▸ unsynced) here.2.1
      all_goals exact unsynced.elim
    have lost : ¬ world.logger.Durable world.logger.lsn := by
      intro durable
      have known := good.knownTo has (fun flush fsyncedLsn same => by
        rw [same] at unsynced
        exact unsynced) durable
      omega
    simp only [LogWorld.next] at done
    split at done
    case isFalse => cases done
    case isTrue =>
      unfold LogWorld.fsync at done
      split at done
      case isFalse => cases done
      case isTrue =>
        cases done
        have returns : (world.at' t world.logger
            (.waitTill ⟨world.logger.inbuf.maxLsnInBuf, world.logger.lsn⟩)).next (.goOn t) =
            some ((world.at' t world.logger
              (.waitTill ⟨world.logger.inbuf.maxLsnInBuf, world.logger.lsn⟩)).at' t world.logger
              (.flushed ⟨world.logger.inbuf.maxLsnInBuf, world.logger.lsn⟩)) := by
          simp [LogWorld.next, LogWorld.goOn, LogWorld.waitTill, announced]
        refine ⟨_, returns, ?_⟩
        intro durably
        refine lost (durably t _ (threads_at'_self _ _) world.logger.lsn ?_ le_rfl)
        exact lt_of_le_of_lt good.logger.first_le behind

/-- A step that can be seen to be clear, since a flush finds something in the input buffer. -/
def nextFilled (world : LogWorld) (event : LogEvent) : Option LogWorld :=
  match event with
  | .fsync t => if world.logger.inbuf.nInBuf = 0 then none else world.next (.fsync t)
  | event => world.next event

/-- A flush that finds something in the input buffer makes no stale read. -/
theorem clear_of_nextFilled {event : LogEvent} (done : world.nextFilled event = some after) :
    world.ClearStep event after := by
  -- Only the calls of a flush need something in the buffer.
  unfold nextFilled at done
  split at done
  case h_1 t =>
    split at done
    case isTrue => cases done
    case isFalse filled => exact ⟨fun stale => filled stale.1, done⟩
  case h_2 other =>
    refine ⟨?_, done⟩
    cases event
    case fsync t => exact absurd rfl (other t)
    all_goals exact trivial

/-- Three threads, of which the first takes the second's entry along and leaves the third's. -/
def threeFlushes : List LogEvent :=
  [.log 0 0 false, .fsync 0, .goOn 0, .log 1 0 true, .goOn 0, .log 2 0 false, .fsync 2, .goOn 0,
    .goOn 0, .goOn 0, .goOn 1, .goOn 2, .goOn 2, .goOn 2, .goOn 2, .goOn 2]

/-- A flush that waits while another thread swaps the buffers returns with its entries durable. -/
theorem logFlush_exact_three : ∃ world,
    Runs ClearStep (opened 0 100) threeFlushes world ∧
    world.threads 1 = .flushed ⟨2, 2⟩ ∧ world.threads 2 = .flushed ⟨3, 3⟩ ∧
      world.FlushesDurably 0 := by
  have run : ∃ world, Runs ClearStep (opened 0 100) threeFlushes world ∧
      world.threads 1 = .flushed ⟨2, 2⟩ ∧ world.threads 2 = .flushed ⟨3, 3⟩ := by
    have reached : ((threeFlushes.foldlM nextFilled (opened 0 100)).map fun world =>
        (world.threads 1, world.threads 2)) = some (.flushed ⟨2, 2⟩, .flushed ⟨3, 3⟩) := by decide
    obtain ⟨world, folded, same⟩ := Option.map_eq_some_iff.mp reached
    obtain ⟨second, third⟩ := Prod.mk.inj same
    exact ⟨world, (Runs.of_foldlM folded).mono clear_of_nextFilled, second, third⟩
  obtain ⟨world, run, second, third⟩ := run
  exact ⟨world, run, second, third, (logFlush_exact 0 100 _ world).1 run⟩

/-- A flush that is called while another one is about to write what was logged returns at once. -/
theorem logFlush_stale : ¬ ∀ (lastLsn lgMax : Nat) (events : List LogEvent) (world : LogWorld),
    Runs Step (opened lastLsn lgMax) events world → world.FlushesDurably lastLsn := by
  intro durably
  have run : ∃ world, Runs Step (opened 0 100)
      [.log 0 0 false, .fsync 0, .goOn 0, .goOn 0, .fsync 1, .goOn 1] world ∧
      world.threads 1 = .flushed ⟨0, 1⟩ ∧ ¬ world.logger.Durable 1 := by
    have reached : (([.log 0 0 false, .fsync 0, .goOn 0, .goOn 0, .fsync 1, .goOn 1].foldlM next
        (opened 0 100)).map fun world => (world.threads 1, decide (world.logger.Durable 1))) =
        some (.flushed ⟨0, 1⟩, false) := by decide
    obtain ⟨world, folded, same⟩ := Option.map_eq_some_iff.mp reached
    obtain ⟨place, lost⟩ := Prod.mk.inj same
    exact ⟨world, Runs.of_foldlM folded, place, of_decide_eq_false lost⟩
  obtain ⟨world, run, place, lost⟩ := run
  exact lost (durably 0 100 _ world run 1 ⟨0, 1⟩ place 1 (by decide) le_rfl)

end Tokuft.LogWorld
