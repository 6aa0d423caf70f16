import Tokuft.Logger.ThreadsLaws

/-! Every step of a thread keeps the log in order. -/

namespace Tokuft.LogWorld

open LogThread TokuLogger

variable {first : Nat} {world after : LogWorld} {t : Nat}
  {buflen lsn fsyncedLsn : Nat} {doFsync : Bool} {flush : LogFlush}

section

variable (good : Good first world)
include good

/-- A thread that keeps the log as it is goes on without the output. -/
theorem Good.stay {thread : LogThread}
    (outside : ¬ (world.threads t).HasOutput) (stays : ¬ thread.HasOutput)
    (unlocked : ¬ thread.HasLock) (here : thread.Ok first world.logger) :
    Good first (world.at' t world.logger thread) :=
  good.beside outside stays good.logger le_rfl here rfl (fun holds => absurd holds unlocked)
    (fun u _ holds => good.lock u holds) rfl rfl rfl (fun _ => Iff.rfl)
    (fun empty free => ⟨empty, free, rfl⟩)

/-- Appending an entry keeps everything in order. -/
theorem Good.appendEntry (outside : ¬ (world.threads t).HasOutput) (positive : 0 < buflen)
    (free : ∀ u, u ≠ t → ¬ (world.threads u).HasLock) :
    Good first (world.appendEntry t buflen doFsync) := by
  -- No other thread has the input lock, so that none relies on the input buffer.
  have ok : ({ world.logger with inputLock := none } : TokuLogger).Ok first :=
    good.logger.locks none world.logger.outputIsAvailable
  unfold LogWorld.appendEntry
  apply good.beside outside ?stays (ok.append positive) (Nat.le_succ _) ?here rfl ?lock ?locks
    rfl rfl rfl (fun _ => Iff.rfl) ?taken
  case stays => cases doFsync <;> exact fun has => has
  case lock => cases doFsync <;> exact fun has => has.elim
  case here =>
    cases doFsync
    · exact trivial
    · exact ⟨le_rfl, le_rfl⟩
  case locks => exact fun u other holds => absurd holds (free u other)
  case taken =>
    intro empty
    have filled : world.logger.inbuf.nInBuf + buflen = 0 := empty
    omega

/-- When the input lock is free, no thread holds it. -/
theorem Good.unlocked (free : world.logger.inputLock = none) (u : Nat) :
    ¬ (world.threads u).HasLock := by
  intro holds
  rw [good.lock u holds] at free
  cases free

section

variable (idle : world.threads t = .idle)
include idle

/-- Logging keeps everything in order. -/
theorem Good.log {fieldsSize : Nat} (done : world.log t fieldsSize doFsync = some after) :
    Good first after := by
  -- With room the entry is appended at once, and without it the thread waits for the output.
  have outside : ¬ (world.threads t).HasOutput := by rw [idle]; exact fun has => has
  have positive : 0 < logEntryOverhead + fieldsSize := by unfold logEntryOverhead; omega
  simp only [LogWorld.log] at done
  split at done
  case isFalse => cases done
  case isTrue free =>
    split at done
    · cases done
      exact good.appendEntry outside positive fun u _ => good.unlocked free u
    · cases done
      exact good.stay outside (fun has => has) (fun has => has) positive

/-- Asking for a flush keeps everything in order. -/
theorem Good.fsync (done : world.fsync t = some after) :
    Good first after := by
  have outside : ¬ (world.threads t).HasOutput := by rw [idle]; exact fun has => has
  unfold LogWorld.fsync at done
  split at done
  case isFalse => cases done
  case isTrue =>
    cases done
    exact good.stay outside (fun has => has) (fun has => has) ⟨good.logger.inMax, le_rfl⟩

/-- Asking for a flush up to some entry keeps everything in order. -/
theorem Good.fsyncIfLsnNotFsynced (done : world.fsyncIfLsnNotFsynced t lsn = some after) :
    Good first after := by
  have outside : ¬ (world.threads t).HasOutput := by rw [idle]; exact fun has => has
  unfold LogWorld.fsyncIfLsnNotFsynced at done
  split at done
  case isFalse => cases done
  case isTrue bound =>
    cases done
    exact good.stay outside (fun has => has) (fun has => has) ⟨bound, bound⟩

end

section

variable (free : world.logger.outputIsAvailable = true)
include free

/-- While the output is available, all that is synced is announced. -/
theorem Good.known (durable : world.logger.Durable lsn) : lsn ≤ world.logger.fsyncedLsn := by
  rcases good.announced lsn durable with known | ⟨u, flush, fsyncedLsn, same⟩
  · exact known
  · refine absurd ?_ (good.available free u)
    rw [same]
    exact trivial

/-- While the output is available, nothing waits in the output buffer. -/
theorem Good.nothingToWrite :
    world.logger.outbuf.nInBuf = 0 := by
  by_contra filled
  obtain ⟨u, flush, fsyncedLsn, same⟩ := good.toWrite (by omega)
  refine absurd ?_ (good.available free u)
  rw [same]
  exact trivial

/-- While the output is available, an empty input buffer means that all is synced. -/
theorem Good.allSynced (empty : world.logger.inbuf.nInBuf = 0)
    (unlocked : world.logger.inputLock = none) :
    world.logger.lsn ≤ world.logger.fsyncedLsn := by
  rcases good.taken empty unlocked with known | ⟨u, took⟩
  · exact known
  · refine absurd ?_ (good.available free u)
    cases place : world.threads u <;> rw [place] at took <;> trivial

/-- Getting the output keeps everything in order. -/
theorem Good.takeOutput {thread : LogThread} (unlocked : ¬ thread.HasLock)
    (here : thread.Ok first world.logger) :
    Good first (world.at' t { world.logger with outputIsAvailable := false } thread) := by
  -- No other thread has the output, since it was available.
  have alone : world.Alone t := fun u _ => good.available free u
  refine good.atOutput alone (good.logger.locks _ false) le_rfl
    (here.same le_rfl rfl rfl rfl fun _ durable => durable) ?released
    (fun has => absurd has unlocked) (fun u _ holds => good.lock u holds) ?toWrite ?taken ?announced
  case released =>
    intro wrong
    cases wrong
  case toWrite =>
    intro filled
    have filled : 0 < world.logger.outbuf.nInBuf := filled
    have empty := good.nothingToWrite free
    omega
  case taken =>
    intro empty lockFree
    exact .inl (good.allSynced free empty lockFree)
  case announced =>
    intro lsn durable
    exact .inl (good.known free durable)

end

/-- Getting the output in order to make room keeps everything in order. -/
theorem Good.grabOutput (place : world.threads t = .grabOutput buflen doFsync)
    (done : world.grabOutput t buflen doFsync = some after) : Good first after := by
  have positive := good.threads t
  rw [place] at positive
  unfold LogWorld.grabOutput at done
  split at done
  case isFalse => cases done
  case isTrue free =>
    cases done
    exact good.takeOutput free (fun has => has) ⟨positive, rfl⟩

/-- Waiting for an entry to be synced keeps everything in order. -/
theorem Good.waitTill (place : world.threads t = .waitTill flush)
    (done : world.waitTill t flush = some after) : Good first after := by
  -- The thread returns, or gets the output, or has to wait.
  have outside : ¬ (world.threads t).HasOutput := by rw [place]; exact fun has => has
  have here := good.threads t
  rw [place] at here
  unfold LogWorld.waitTill at done
  split at done
  case isTrue =>
    cases done
    exact good.stay outside (fun has => has) (fun has => has) trivial
  case isFalse unsynced =>
    split at done
    case isFalse => cases done
    case isTrue free =>
      cases done
      exact good.takeOutput free (fun has => has) ⟨rfl, by omega, here⟩

/-- While a thread has the output and has not synced anything, all that is synced is announced. -/
theorem Good.knownTo (has : (world.threads t).HasOutput)
    (unsynced : ∀ flush fsyncedLsn, world.threads t ≠ .synced flush fsyncedLsn)
    (durable : world.logger.Durable lsn) : lsn ≤ world.logger.fsyncedLsn := by
  rcases good.announced lsn durable with known | ⟨u, flush, fsyncedLsn, same⟩
  · exact known
  · -- Only one thread has the output, so this would be the same one.
    have there : (world.threads u).HasOutput := by rw [same]; exact trivial
    cases good.holder there has
    exact absurd same (unsynced flush fsyncedLsn)

/-- While a thread has the output and has not swapped the buffers, nothing waits to be written. -/
theorem Good.emptyTo (has : (world.threads t).HasOutput)
    (waiting : ∀ flush fsyncedLsn, world.threads t ≠ .swapped flush fsyncedLsn) :
    world.logger.outbuf.nInBuf = 0 := by
  by_contra filled
  obtain ⟨u, flush, fsyncedLsn, same⟩ := good.toWrite (by omega)
  have there : (world.threads u).HasOutput := by rw [same]; exact trivial
  cases good.holder there has
  exact waiting flush fsyncedLsn same

/-- Making room keeps everything in order. -/
theorem Good.makeSpace (place : world.threads t = .lockAgain buflen doFsync fsyncedLsn)
    (done : world.makeSpace t buflen doFsync fsyncedLsn = some after) : Good first after := by
  -- The thread has the output and the input lock, so that no other one relies on the buffers.
  have has : (world.threads t).HasOutput := by rw [place]; exact trivial
  have here := good.threads t
  rw [place] at here
  have empty := good.emptyTo has (by simp [place])
  unfold LogWorld.makeSpace at done
  split at done
  case isFalse => cases done
  case isTrue free =>
    obtain ⟨⟨logger, fsyncedAfter⟩, made, rest⟩ := of_bind done
    cases rest
    have space := (good.logger.locks (some t) world.logger.outputIsAvailable).makeSpaceInInbuf
      empty here.2 made
    refine good.atOutput (good.alone has) space.ok (le_of_eq space.lsn.symm) ⟨here.1, space.fsynced⟩
      ?released (fun _ => space.inputLock) (fun u _ holds => absurd holds (good.unlocked free u))
      ?toWrite ?taken ?announced
    case released =>
      intro wrong
      rw [space.outputIsAvailable] at wrong
      exact absurd has (good.available wrong t)
    case toWrite =>
      intro filled
      rw [space.empty] at filled
      exact absurd filled (Nat.lt_irrefl 0)
    case taken =>
      intro _ wrong
      rw [space.inputLock] at wrong
      cases wrong
    case announced =>
      intro lsn durable
      refine .inl (space.announced (fun lsn before => ?_) lsn durable)
      exact good.knownTo has (by simp [place]) before

/-- Releasing the output after making room keeps everything in order. -/
theorem Good.releaseSpace (place : world.threads t = .madeSpace buflen doFsync fsyncedLsn) :
    Good first (world.at' t (world.logger.releaseOutput fsyncedLsn) (.append buflen doFsync)) := by
  -- What is announced was synced when the file was closed.
  have has : (world.threads t).HasOutput := by rw [place]; exact trivial
  have locked : world.logger.inputLock = some t := good.lock t (by rw [place]; exact trivial)
  have here := good.threads t
  rw [place] at here
  have bound : fsyncedLsn ≤ world.logger.writtenLsn := here.2 ▸ good.logger.fsynced_le
  have ok := good.logger.release bound (here.2 ▸ good.logger.synced)
  refine good.atOutput (good.alone has) ok le_rfl here.1 (fun _ has => has) (fun _ => locked)
    ?locks ?toWrite ?taken ?announced
  case locks =>
    intro u other holds
    exact absurd holds (good.lockedAlone locked u other)
  case toWrite =>
    intro filled
    have empty := good.emptyTo has (by simp [place])
    have filled : 0 < world.logger.outbuf.nInBuf := filled
    omega
  case taken =>
    intro _ wrong
    have wrong : world.logger.inputLock = none := wrong
    rw [locked] at wrong
    cases wrong
  case announced =>
    intro lsn durable
    refine .inl (le_trans (good.knownTo has (by simp [place]) durable) ?_)
    rw [fsyncedLsn_releaseOutput]
    exact le_max_left _ _

/-- Swapping the buffers keeps everything in order. -/
theorem Good.swap (place : world.threads t = .lockToSwap flush fsyncedLsn)
    (done : world.swap t flush fsyncedLsn = some after) : Good first after := by
  -- The thread has the output, so that the output buffer is its own.
  have has : (world.threads t).HasOutput := by rw [place]; exact trivial
  have here := good.threads t
  rw [place] at here
  unfold LogWorld.swap at done
  split at done
  case isFalse => cases done
  case isTrue free =>
    obtain ⟨logger, swapped, rest⟩ := of_bind done
    cases rest
    obtain ⟨ok, ended, _, rfl⟩ := good.logger.swap swapped
    refine good.atOutput (good.alone has) ok le_rfl
      ⟨here.1, here.2.1, here.2.2.1, ended ▸ here.2.2.2⟩ ?released (fun has => has.elim)
      (fun u _ holds => absurd holds (good.unlocked free u)) (fun _ => ⟨flush, fsyncedLsn, rfl⟩)
      (fun _ _ => .inr trivial) ?announced
    case released =>
      intro wrong
      exact absurd has (good.available wrong t)
    case announced =>
      intro lsn durable
      exact .inl (good.knownTo has (by simp [place]) durable)

/-- Writing the output buffer keeps everything in order. -/
theorem Good.write (place : world.threads t = .swapped flush fsyncedLsn)
    (done : world.write t flush fsyncedLsn = some after) : Good first after := by
  -- What is written is as much as the output buffer held.
  have has : (world.threads t).HasOutput := by rw [place]; exact trivial
  have here := good.threads t
  rw [place] at here
  obtain ⟨⟨logger, fsyncedAfter⟩, written, rest⟩ := of_bind done
  cases rest
  have wrote := good.logger.writeOutbufToLogfile written
  have space := wrote.madeSpace here.1
  have local' : LogThread.Ok first logger (.written flush fsyncedAfter) := by
    refine ⟨space.fsynced, ?_, ?_, outEnd_of_empty wrote.empty, ?_⟩
    · rw [wrote.lsn]
      exact here.2.2.1
    · rw [wrote.written]
      exact here.2.2.2
    · rcases wrote.fsynced with ⟨kept, _⟩ | ⟨all, _⟩
      · exact .inl (kept ▸ here.2.1)
      · exact .inr all
  refine good.atOutput (good.alone has) wrote.ok (le_of_eq wrote.lsn.symm) local' ?released
    (fun has => has.elim) (fun u _ holds => wrote.inputLock.trans (good.lock u holds)) ?toWrite
    (fun _ _ => .inr trivial) ?announced
  case released =>
    intro wrong
    rw [wrote.outputIsAvailable] at wrong
    exact absurd has (good.available wrong t)
  case toWrite =>
    intro filled
    rw [wrote.empty] at filled
    exact absurd filled (Nat.lt_irrefl 0)
  case announced =>
    intro lsn durable
    refine .inl (space.announced (fun lsn before => ?_) lsn durable)
    exact good.knownTo has (by simp [place]) before

/-- Syncing the file keeps everything in order. -/
theorem Good.sync (place : world.threads t = .written flush fsyncedLsn)
    (done : world.sync t flush fsyncedLsn = some after) : Good first after := by
  have has : (world.threads t).HasOutput := by rw [place]; exact trivial
  have here := good.threads t
  rw [place] at here
  obtain ⟨told, _, bound, _, target⟩ := here
  have empty := good.emptyTo has (by simp [place])
  unfold LogWorld.sync at done
  split at done
  case isTrue =>
    obtain ⟨_, rest⟩ := of_invariant done
    cases rest
    obtain ⟨ok, synced⟩ := good.logger.fsyncFile
    refine good.atOutput (good.alone has) ok le_rfl ⟨rfl, bound, synced⟩ ?released
      (fun has => has.elim) (fun u _ holds => good.lock u holds) ?toWrite
      (fun _ _ => .inr trivial) (fun _ _ => .inr ⟨flush, _, rfl⟩)
    case released =>
      intro wrong
      exact absurd has (good.available wrong t)
    case toWrite =>
      intro filled
      have filled : 0 < world.logger.outbuf.nInBuf := filled
      omega
  case isFalse reached =>
    cases done
    -- The file was closed, and everything written was synced then.
    have all : fsyncedLsn = world.logger.writtenLsn := by omega
    have synced : world.logger.SyncedTo first world.logger.writtenLsn := by
      rw [← all, told]
      exact good.logger.synced
    refine good.atOutput (good.alone has) good.logger le_rfl ⟨all, bound, synced⟩ ?released
      (fun has => has.elim) (fun u _ holds => good.lock u holds) ?toWrite
      (fun _ _ => .inr trivial) (fun _ _ => .inr ⟨flush, fsyncedLsn, rfl⟩)
    case released =>
      intro wrong
      exact absurd has (good.available wrong t)
    case toWrite =>
      intro filled
      omega

/-- Releasing the output after a flush keeps everything in order. -/
theorem Good.releaseFlush (place : world.threads t = .synced flush fsyncedLsn) :
    Good first (world.at' t (world.logger.releaseOutput fsyncedLsn) (.flushed flush)) := by
  have has : (world.threads t).HasOutput := by rw [place]; exact trivial
  have here := good.threads t
  rw [place] at here
  obtain ⟨all, _, synced⟩ := here
  have ok := good.logger.release (le_of_eq all) (all ▸ synced)
  have empty := good.emptyTo has (by simp [place])
  have told : (world.logger.releaseOutput fsyncedLsn).fsyncedLsn = world.logger.writtenLsn := by
    have bound := good.logger.fsynced_le
    rw [fsyncedLsn_releaseOutput]
    omega
  refine good.atOutput (good.alone has) ok le_rfl trivial (fun _ has => has) (fun has => has.elim)
    (fun u _ holds => good.lock u holds) ?toWrite ?taken ?announced
  case toWrite =>
    intro filled
    have filled : 0 < world.logger.outbuf.nInBuf := filled
    omega
  case taken =>
    intro taken _
    -- Both buffers are empty, so everything is in the files.
    have taken : world.logger.inbuf.nInBuf = 0 := taken
    have ended := good.logger.swapped taken
    rw [outEnd_of_empty empty] at ended
    refine .inl ?_
    rw [told]
    exact le_of_eq ended.symm
  case announced =>
    intro lsn durable
    have durable : world.logger.Durable lsn := durable
    rw [told]
    exact .inl ((good.logger.inFiles lsn).mp durable.written).2

/-- Every step of every thread keeps everything in order. -/
theorem Good.next {event : LogEvent} (done : world.next event = some after) : Good first after := by
  -- One case for each step, by the law of its function.
  cases event
  case log u fieldsSize doFsync =>
    simp only [LogWorld.next] at done
    split at done
    case isTrue idle => exact good.log idle done
    case isFalse => cases done
  case fsync u =>
    simp only [LogWorld.next] at done
    split at done
    case isTrue idle => exact good.fsync idle done
    case isFalse => cases done
  case fsyncIfLsnNotFsynced u lsn =>
    simp only [LogWorld.next] at done
    split at done
    case isTrue idle => exact good.fsyncIfLsnNotFsynced idle done
    case isFalse => cases done
  case goOn u =>
    have here := good.threads u
    cases place : world.threads u <;> simp only [LogWorld.next, place, LogWorld.goOn] at done
    case idle => cases done
    case grabOutput => exact good.grabOutput place done
    case lockAgain => exact good.makeSpace place done
    case madeSpace =>
      cases done
      exact good.releaseSpace place
    case append buflen doFsync =>
      cases done
      have locked : world.logger.inputLock = some u := good.lock u (by rw [place]; exact trivial)
      rw [place] at here
      exact good.appendEntry (by rw [place]; exact fun has => has) here (good.lockedAlone locked)
    case waitTill => exact good.waitTill place done
    case lockToSwap => exact good.swap place done
    case swapped => exact good.write place done
    case written => exact good.sync place done
    case synced =>
      cases done
      exact good.releaseFlush place
    case flushed =>
      cases done
      exact good.stay (by rw [place]; exact fun has => has) (fun has => has) (fun has => has)
        trivial

end

end Tokuft.LogWorld
