import Tokuft.Logger.Logger

/-! Which entries of the log are in the files, in the output buffer and in the input buffer. -/

namespace Tokuft.TokuLogger

variable {first : Nat} {logger after : TokuLogger}

/-- The newest entry that is in the files or in the output buffer. -/
def outEnd (logger : TokuLogger) : Nat :=
  if 0 < logger.outbuf.nInBuf then logger.outbuf.maxLsnInBuf else logger.writtenLsn

/-- An entry has been written to a file. -/
def Written (logger : TokuLogger) (lsn : Nat) : Prop :=
  ∃ file ∈ logger.oldFiles ++ [logger.file], lsn ∈ file.entries

/-- Every entry up to some point is synced. -/
def SyncedTo (first : Nat) (logger : TokuLogger) (last : Nat) : Prop :=
  ∀ lsn, first < lsn → lsn ≤ last → logger.Durable lsn

/-- The files, the output buffer and the input buffer hold one stretch of the log each. -/
structure Ok (first : Nat) (logger : TokuLogger) : Prop where
  first_le : first ≤ logger.fsyncedLsn
  fsynced_le : logger.fsyncedLsn ≤ logger.writtenLsn
  written_lt : 0 < logger.outbuf.nInBuf → logger.writtenLsn < logger.outbuf.maxLsnInBuf
  /-- What is in the input buffer is newer than what is in the output buffer. -/
  newest : 0 < logger.inbuf.nInBuf →
    logger.inbuf.maxLsnInBuf = logger.lsn ∧ logger.outEnd < logger.lsn
  swapped : logger.inbuf.nInBuf = 0 → logger.outEnd = logger.lsn
  inFiles : ∀ lsn, logger.Written lsn ↔ first < lsn ∧ lsn ≤ logger.writtenLsn
  inOutbuf : ∀ lsn, lsn ∈ logger.outbuf.entries ↔ logger.writtenLsn < lsn ∧ lsn ≤ logger.outEnd
  inInbuf : ∀ lsn, lsn ∈ logger.inbuf.entries ↔ logger.outEnd < lsn ∧ lsn ≤ logger.lsn
  oldSynced : ∀ file ∈ logger.oldFiles, file.entries.length ≤ file.synced
  syncedWritten : logger.file.synced ≤ logger.file.entries.length
  synced : logger.SyncedTo first logger.fsyncedLsn
  inMax : logger.inbuf.maxLsnInBuf ≤ logger.lsn
  outMax : logger.outbuf.maxLsnInBuf ≤ logger.lsn

/-- A log that was just opened is empty. -/
theorem opened_ok (lastLsn : Nat) (lgMax : Nat) : Ok lastLsn (opened lastLsn lgMax) := by
  constructor <;> simp [opened, Logbuf.empty, outEnd, Written, SyncedTo]
  all_goals intro lsn
  all_goals omega

/-- What is in the files has been written before it is appended again. -/
theorem Ok.written_le (ok : Ok first logger) : logger.writtenLsn ≤ logger.outEnd := by
  -- A buffer that is not empty holds entries newer than those written.
  unfold outEnd
  split
  · exact (ok.written_lt ‹_›).le
  · exact le_rfl

/-- The output buffer ends where the input buffer starts. -/
theorem Ok.outEnd_le (ok : Ok first logger) : logger.outEnd ≤ logger.lsn := by
  by_cases filled : 0 < logger.inbuf.nInBuf
  · exact (ok.newest filled).2.le
  · exact (ok.swapped (by omega)).le

/-- An empty output buffer ends where the files end. -/
theorem outEnd_of_empty (empty : logger.outbuf.nInBuf = 0) : logger.outEnd = logger.writtenLsn :=
  if_neg (by omega)

/-- A synced entry was written. -/
theorem Durable.written {lsn : Nat} (durable : logger.Durable lsn) : logger.Written lsn := by
  obtain ⟨file, member, taken⟩ := durable
  exact ⟨file, member, List.mem_of_mem_take taken⟩

section

variable (ok : Ok first logger)
include ok

/-- The locks say nothing about the entries. -/
theorem Ok.locks (inputLock : Option Nat) (outputIsAvailable : Bool) :
    Ok first { logger with inputLock, outputIsAvailable } :=
  ⟨ok.first_le, ok.fsynced_le, ok.written_lt, ok.newest, ok.swapped, ok.inFiles, ok.inOutbuf,
    ok.inInbuf, ok.oldSynced, ok.syncedWritten, ok.synced, ok.inMax, ok.outMax⟩

/-- Appending adds the next entry to the input buffer. -/
theorem Ok.append {buflen : Nat} (positive : 0 < buflen) :
    Ok first (logger.append buflen) where
  first_le := ok.first_le
  fsynced_le := ok.fsynced_le
  written_lt := ok.written_lt
  newest := by
    intro _
    exact ⟨rfl, Nat.lt_succ_of_le ok.outEnd_le⟩
  swapped := by
    intro empty
    have filled : logger.inbuf.nInBuf + buflen = 0 := empty
    omega
  inFiles := ok.inFiles
  inOutbuf := ok.inOutbuf
  inInbuf := by
    intro lsn
    have bound := ok.outEnd_le
    show lsn ∈ logger.inbuf.entries ++ [logger.lsn + 1] ↔
      logger.outEnd < lsn ∧ lsn ≤ logger.lsn + 1
    rw [List.mem_append, List.mem_singleton, ok.inInbuf]
    omega
  oldSynced := ok.oldSynced
  syncedWritten := ok.syncedWritten
  synced := ok.synced
  inMax := le_rfl
  outMax := le_trans ok.outMax (Nat.le_succ _)

/-- After a swap the input buffer is empty, and the output buffer reaches to the newest entry. -/
theorem Ok.swap (done : logger.swapInbufOutbuf = some after) :
    Ok first after ∧ after.outEnd = logger.lsn ∧ after.inbuf.nInBuf = 0 ∧
      after = { logger with inbuf := logger.outbuf, outbuf := logger.inbuf } := by
  -- The output buffer was empty before, which the code checks.
  obtain ⟨empty, rest⟩ := of_invariant done
  cases rest
  have before := outEnd_of_empty empty
  have reached : ({ logger with inbuf := logger.outbuf, outbuf := logger.inbuf } :
      TokuLogger).outEnd = logger.lsn := by
    by_cases filled : 0 < logger.inbuf.nInBuf
    · exact (if_pos filled).trans (ok.newest filled).1
    · -- Nothing was appended, so the newest entry is in the files already.
      refine (if_neg filled).trans ?_
      rw [← before]
      exact ok.swapped (by omega)
  refine ⟨?_, reached, empty, rfl⟩
  constructor
  case first_le => exact ok.first_le
  case fsynced_le => exact ok.fsynced_le
  case written_lt =>
    intro filled
    have newest := ok.newest filled
    show logger.writtenLsn < logger.inbuf.maxLsnInBuf
    omega
  case newest =>
    intro filled
    have filled : 0 < logger.outbuf.nInBuf := filled
    omega
  case swapped =>
    intro _
    exact reached
  case inFiles => exact ok.inFiles
  case inOutbuf =>
    intro lsn
    show lsn ∈ logger.inbuf.entries ↔ logger.writtenLsn < lsn ∧ lsn ≤ _
    rw [reached, ok.inInbuf, before]
  case inInbuf =>
    intro lsn
    show lsn ∈ logger.outbuf.entries ↔ _ < lsn ∧ lsn ≤ logger.lsn
    rw [reached, ok.inOutbuf, before]
    omega
  case oldSynced => exact ok.oldSynced
  case syncedWritten => exact ok.syncedWritten
  case synced => exact ok.synced
  case inMax => exact ok.outMax
  case outMax => exact ok.inMax

/-- Writing the output buffer moves its entries to the file, where they are not synced yet. -/
theorem Ok.writeOutbuf (done : logger.writeOutbuf = some after) :
    Ok first after ∧ after.writtenLsn = logger.outEnd ∧ after.outbuf.nInBuf = 0 ∧
      after.fsyncedLsn = logger.fsyncedLsn ∧ after.lsn = logger.lsn ∧
      after.inbuf = logger.inbuf ∧ (∀ lsn, after.Durable lsn ↔ logger.Durable lsn) ∧
      after.inputLock = logger.inputLock ∧
      after.outputIsAvailable = logger.outputIsAvailable := by
  -- An empty buffer writes nothing, and a full one brings the file up to its newest entry.
  unfold TokuLogger.writeOutbuf at done
  split at done
  case isFalse empty =>
    cases done
    have empty : logger.outbuf.nInBuf = 0 := by omega
    exact ⟨ok, (outEnd_of_empty empty).symm, empty, rfl, rfl, rfl, fun _ => Iff.rfl, rfl, rfl⟩
  case isTrue filled =>
    obtain ⟨newer, rest⟩ := of_invariant done
    have ended : logger.outEnd = logger.outbuf.maxLsnInBuf := if_pos filled
    have same : ∀ lsn, after.Durable lsn ↔ logger.Durable lsn := by
      cases rest
      intro lsn
      simp [Durable, List.take_append_of_le_length ok.syncedWritten]
    have reached : after.outEnd = logger.outEnd := by
      cases rest
      simp [outEnd, filled]
    have bound := ok.fsynced_le
    have kept := ok.synced
    refine ⟨?_, by cases rest; exact ended.symm, by cases rest; rfl, by cases rest; rfl,
      by cases rest; rfl, by cases rest; rfl, same, by cases rest; rfl, by cases rest; rfl⟩
    constructor
    case first_le => cases rest; exact ok.first_le
    case fsynced_le =>
      cases rest
      show logger.fsyncedLsn ≤ logger.outbuf.maxLsnInBuf
      omega
    case written_lt =>
      cases rest
      intro wrong
      exact absurd wrong (Nat.lt_irrefl 0)
    case newest =>
      rw [reached]
      cases rest
      exact ok.newest
    case swapped =>
      rw [reached]
      cases rest
      exact ok.swapped
    case inFiles =>
      intro lsn
      have inFiles := ok.inFiles lsn
      have inOutbuf := ok.inOutbuf lsn
      have written : after.Written lsn ↔ logger.Written lsn ∨ lsn ∈ logger.outbuf.entries := by
        cases rest
        simp [Written, or_assoc]
      have last : after.writtenLsn = logger.outEnd := by
        cases rest
        exact ended.symm
      have := ok.first_le
      have := ok.written_le
      rw [written, inFiles, inOutbuf, last]
      omega
    case inOutbuf =>
      intro lsn
      rw [reached]
      cases rest
      simp [ended]
    case inInbuf =>
      rw [reached]
      cases rest
      exact ok.inInbuf
    case oldSynced => cases rest; exact ok.oldSynced
    case syncedWritten =>
      cases rest
      have := ok.syncedWritten
      show logger.file.synced ≤ (logger.file.entries ++ logger.outbuf.entries).length
      rw [List.length_append]
      omega
    case synced =>
      intro lsn newer bound
      rw [same]
      cases rest
      exact kept lsn newer bound
    case inMax => cases rest; exact ok.inMax
    case outMax => cases rest; exact ok.outMax

/-- Syncing the current file makes durable what is written. -/
theorem durable_fsyncFile (lsn : Nat) :
    logger.fsyncFile.Durable lsn ↔ logger.Written lsn := by
  -- Old files were synced when they were closed, so that all that is written is durable.
  constructor
  · intro durable
    obtain ⟨file, member, taken⟩ := durable.written
    rcases List.mem_append.mp member with old | current
    · exact ⟨file, List.mem_append_left _ old, taken⟩
    · cases List.mem_singleton.mp current
      exact ⟨logger.file, List.mem_append_right _ (List.mem_singleton.mpr rfl), taken⟩
  · rintro ⟨file, member, inside⟩
    rcases List.mem_append.mp member with old | current
    · -- The older files were synced when they were closed.
      refine ⟨file, List.mem_append_left _ old, ?_⟩
      rw [List.take_of_length_le (ok.oldSynced file old)]
      exact inside
    · cases List.mem_singleton.mp current
      refine ⟨logger.file.fsync, List.mem_append_right _ (List.mem_singleton.mpr rfl), ?_⟩
      show lsn ∈ logger.file.entries.take logger.file.entries.length
      rw [List.take_length]
      exact inside

/-- Syncing the current file keeps what is in order. -/
theorem Ok.fsyncFile :
    Ok first logger.fsyncFile ∧ logger.fsyncFile.SyncedTo first logger.writtenLsn := by
  -- The file now has all its entries synced, and no entry moved.
  have synced : logger.fsyncFile.SyncedTo first logger.writtenLsn := by
    intro lsn newer bound
    exact (durable_fsyncFile ok lsn).mpr ((ok.inFiles lsn).mpr ⟨newer, bound⟩)
  refine ⟨⟨ok.first_le, ok.fsynced_le, ok.written_lt, ok.newest, ok.swapped, ?_, ok.inOutbuf,
    ok.inInbuf, ok.oldSynced, le_rfl, ?_, ok.inMax, ok.outMax⟩, synced⟩
  · intro lsn
    apply Iff.trans ?_ (ok.inFiles lsn)
    simp [Written, TokuLogger.fsyncFile, LogFile.fsync]
  · intro lsn newer bound
    exact synced lsn newer (le_trans bound ok.fsynced_le)

/-- Going on to the next file makes durable what is written. -/
theorem Ok.closeAndOpen :
    Ok first logger.closeAndOpenLogfile ∧
      ∀ lsn, logger.closeAndOpenLogfile.Durable lsn ↔ logger.Written lsn := by
  -- The new file is empty, and the one that is closed is synced first.
  have same : ∀ lsn, logger.closeAndOpenLogfile.Durable lsn ↔ logger.Written lsn := by
    intro lsn
    rw [← durable_fsyncFile ok lsn]
    simp [Durable, closeAndOpenLogfile, openLogfile, TokuLogger.fsyncFile, or_and_right, exists_or]
  refine ⟨⟨le_trans ok.first_le ok.fsynced_le, le_rfl, ok.written_lt, ok.newest, ok.swapped, ?_,
    ok.inOutbuf, ok.inInbuf, ?_, le_rfl, ?_, ok.inMax, ok.outMax⟩, same⟩
  · intro lsn
    apply Iff.trans ?_ (ok.inFiles lsn)
    simp [Written, closeAndOpenLogfile, openLogfile, LogFile.fsync, or_and_right, exists_or]
  · intro file member
    rcases List.mem_append.mp member with old | closed
    · exact ok.oldSynced file old
    · cases List.mem_singleton.mp closed
      exact le_rfl
  · intro lsn newer bound
    exact (same lsn).mpr ((ok.inFiles lsn).mpr ⟨newer, bound⟩)

/-- Releasing the output keeps what is in order when everything it announces is synced. -/
theorem Ok.release {fsyncedLsn : Nat} (bound : fsyncedLsn ≤ logger.writtenLsn)
    (synced : logger.SyncedTo first fsyncedLsn) :
    Ok first (logger.releaseOutput fsyncedLsn) := by
  -- What is announced never goes back.
  have older := ok.first_le
  refine ⟨?_, ?_, ok.written_lt, ok.newest, ok.swapped, ok.inFiles, ok.inOutbuf, ok.inInbuf,
    ok.oldSynced, ok.syncedWritten, ?_, ok.inMax, ok.outMax⟩
  all_goals
    by_cases later : logger.fsyncedLsn < fsyncedLsn
    all_goals simp only [releaseOutput, later, if_true, if_false]
  · omega
  · exact older
  · exact bound
  · exact ok.fsynced_le
  · exact synced
  · exact ok.synced

end

/-- What writing the output buffer leaves behind. -/
structure Wrote (first : Nat) (logger : TokuLogger) (fsyncedLsn : Nat) (after : TokuLogger)
    (fsyncedAfter : Nat) : Prop where
  ok : after.Ok first
  written : after.writtenLsn = logger.outEnd
  empty : after.outbuf.nInBuf = 0
  lsn : after.lsn = logger.lsn
  inbuf : after.inbuf = logger.inbuf
  inputLock : after.inputLock = logger.inputLock
  outputIsAvailable : after.outputIsAvailable = logger.outputIsAvailable
  durable : ∀ lsn, logger.Durable lsn → after.Durable lsn
  /-- Either nothing is synced, or everything that is written. -/
  fsynced : (fsyncedAfter = fsyncedLsn ∧ after.fsyncedLsn = logger.fsyncedLsn ∧
      ∀ lsn, after.Durable lsn → logger.Durable lsn) ∨
    (fsyncedAfter = after.writtenLsn ∧ after.fsyncedLsn = after.writtenLsn)

/-- Only going on to the next file syncs anything. -/
theorem Ok.writeOutbufToLogfile (ok : Ok first logger) {fsyncedLsn fsyncedAfter : Nat}
    (done : logger.writeOutbufToLogfile fsyncedLsn = some (after, fsyncedAfter)) :
    Wrote first logger fsyncedLsn after fsyncedAfter := by
  -- The output buffer is written first, and then the file may be too large.
  obtain ⟨middle, wrote, rest⟩ := of_bind done
  obtain ⟨okMiddle, written, empty, fsynced, lsn, inbuf, durable, inputLock, available⟩ :=
    ok.writeOutbuf wrote
  simp only [pure] at rest
  split at rest
  · obtain ⟨okAfter, same⟩ := okMiddle.closeAndOpen
    cases rest
    refine ⟨okAfter, written, empty, lsn, inbuf, inputLock, available, ?_, .inr ⟨rfl, rfl⟩⟩
    intro lsn here
    exact (same lsn).mpr (Durable.written ((durable lsn).mpr here))
  · cases rest
    exact ⟨okMiddle, written, empty, lsn, inbuf, inputLock, available,
      fun lsn => (durable lsn).mpr, .inl ⟨rfl, fsynced, fun lsn => (durable lsn).mp⟩⟩

/-- The size of the input buffer says nothing about the entries. -/
theorem Ok.enlargeInbuf (ok : Ok first logger) {nBytesNeeded : Nat}
    (done : logger.enlargeInbuf nBytesNeeded = some after) :
    ∃ bufSize, after = { logger with inbuf := { logger.inbuf with bufSize } } ∧ Ok first after := by
  -- Only the size of the buffer changes.
  unfold TokuLogger.enlargeInbuf at done
  split at done
  · obtain ⟨_, rest⟩ := of_invariant done
    obtain ⟨_, rest⟩ := of_invariant rest
    cases rest
    exact ⟨_, rfl, ok.first_le, ok.fsynced_le, ok.written_lt, ok.newest, ok.swapped, ok.inFiles,
      ok.inOutbuf, ok.inInbuf, ok.oldSynced, ok.syncedWritten, ok.synced, ok.inMax, ok.outMax⟩
  · cases done
    exact ⟨logger.inbuf.bufSize, rfl, ok⟩

/-- What making room leaves behind. -/
structure MadeSpace (first : Nat) (logger : TokuLogger) (fsyncedLsn : Nat) (after : TokuLogger)
    (fsyncedAfter : Nat) : Prop where
  ok : after.Ok first
  empty : after.outbuf.nInBuf = 0
  lsn : after.lsn = logger.lsn
  inputLock : after.inputLock = logger.inputLock
  outputIsAvailable : after.outputIsAvailable = logger.outputIsAvailable
  durable : ∀ lsn, logger.Durable lsn → after.Durable lsn
  fsynced : fsyncedAfter = after.fsyncedLsn
  announced : (∀ lsn, logger.Durable lsn → lsn ≤ logger.fsyncedLsn) →
    ∀ lsn, after.Durable lsn → lsn ≤ after.fsyncedLsn

/-- What is written in order to make room is synced when the file is closed, or not at all. -/
theorem Wrote.madeSpace {fsyncedLsn fsyncedAfter : Nat}
    (wrote : Wrote first logger fsyncedLsn after fsyncedAfter)
    (same : fsyncedLsn = logger.fsyncedLsn) :
    MadeSpace first logger fsyncedLsn after fsyncedAfter := by
  -- Either the file was closed, and then all is synced, or nothing was.
  refine ⟨wrote.ok, wrote.empty, wrote.lsn, wrote.inputLock, wrote.outputIsAvailable,
    wrote.durable, ?_, ?_⟩
  · rcases wrote.fsynced with ⟨kept, still, _⟩ | ⟨all, told⟩
    · rw [kept, still, same]
    · rw [all, told]
  · intro announced lsn durable
    rcases wrote.fsynced with ⟨_, still, before⟩ | ⟨_, told⟩
    · rw [still]
      exact announced lsn (before lsn durable)
    · rw [told]
      exact ((wrote.ok.inFiles lsn).mp durable.written).2

/-- Making room loses nothing and announces what it syncs. -/
theorem Ok.makeSpaceInInbuf (ok : Ok first logger) {nBytesNeeded fsyncedLsn fsyncedAfter : Nat}
    (empty : logger.outbuf.nInBuf = 0) (same : fsyncedLsn = logger.fsyncedLsn)
    (done : logger.makeSpaceInInbuf nBytesNeeded fsyncedLsn = some (after, fsyncedAfter)) :
    MadeSpace first logger fsyncedLsn after fsyncedAfter := by
  -- With room enough nothing is done, and otherwise the input buffer is written first.
  unfold TokuLogger.makeSpaceInInbuf at done
  split at done
  · cases done
    exact ⟨ok, empty, rfl, rfl, rfl, fun _ here => here, same, fun announced => announced⟩
  · obtain ⟨⟨middle, fsyncedMiddle⟩, wrote, rest⟩ := of_bind done
    obtain ⟨large, enlarged, rest⟩ := of_bind rest
    cases rest
    have space : MadeSpace first logger fsyncedLsn middle fsyncedAfter := by
      unfold TokuLogger.writeInbuf at wrote
      split at wrote
      · -- There is something in the input buffer, so it goes to the file.
        obtain ⟨swapped, swap, written⟩ := of_bind wrote
        obtain ⟨okSwapped, _, _, rfl⟩ := ok.swap swap
        have space := (okSwapped.writeOutbufToLogfile written).madeSpace same
        exact ⟨space.ok, space.empty, space.lsn, space.inputLock, space.outputIsAvailable,
          space.durable, space.fsynced, space.announced⟩
      · cases wrote
        exact ⟨ok, empty, rfl, rfl, rfl, fun _ here => here, same, fun announced => announced⟩
    obtain ⟨bufSize, rfl, okLarge⟩ := space.ok.enlargeInbuf enlarged
    exact ⟨okLarge, space.empty, space.lsn, space.inputLock, space.outputIsAvailable,
      space.durable, space.fsynced, space.announced⟩

/-- What is synced stays synced when the output is released. -/
theorem fsyncedLsn_releaseOutput (logger : TokuLogger) (fsyncedLsn : Nat) :
    (logger.releaseOutput fsyncedLsn).fsyncedLsn = max logger.fsyncedLsn fsyncedLsn := by
  by_cases later : logger.fsyncedLsn < fsyncedLsn
  all_goals simp only [releaseOutput, later, if_true, if_false]
  all_goals omega

end Tokuft.TokuLogger
