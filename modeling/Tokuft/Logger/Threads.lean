import Tokuft.Logger.LoggerLaws
import Tokuft.Library.Runs

/-! Threads that append to the log and flush it, one critical section at a time. -/

namespace Tokuft

/-- What a flush is asked for: an entry to reach, and the newest entry when it was called. -/
structure LogFlush where
  lsn : Nat
  before : Nat
  deriving DecidableEq, Repr

/-- Where a thread is, with the local variables it needs to go on. -/
inductive LogThread where
  | idle
  /-- Waits for the output in order to make room. -/
  | grabOutput (buflen : Nat) (doFsync : Bool)
  /-- Has the output and waits for the input lock. -/
  | lockAgain (buflen : Nat) (doFsync : Bool) (fsyncedLsn : Nat)
  /-- Has both, and made room. -/
  | madeSpace (buflen : Nat) (doFsync : Bool) (fsyncedLsn : Nat)
  /-- Has the input lock and room for the entry. -/
  | append (buflen : Nat) (doFsync : Bool)
  /-- Waits until its entry is synced or the output is available. -/
  | waitTill (flush : LogFlush)
  /-- Has the output and waits for the input lock. -/
  | lockToSwap (flush : LogFlush) (fsyncedLsn : Nat)
  /-- Has the output, and swapped the buffers. -/
  | swapped (flush : LogFlush) (fsyncedLsn : Nat)
  /-- Has the output, and wrote the output buffer. -/
  | written (flush : LogFlush) (fsyncedLsn : Nat)
  /-- Has the output, and synced the file. -/
  | synced (flush : LogFlush) (fsyncedLsn : Nat)
  /-- The flush returns. -/
  | flushed (flush : LogFlush)
  deriving DecidableEq, Repr

/-- The log and the threads that use it. -/
structure LogWorld where
  logger : TokuLogger
  threads : Nat → LogThread

/-- What a thread is asked to do, or that it goes on. -/
inductive LogEvent where
  /-- Log an entry with so many bytes of fields. -/
  | log (t : Nat) (fieldsSize : Nat) (doFsync : Bool)
  | fsync (t : Nat)
  | fsyncIfLsnNotFsynced (t : Nat) (lsn : Nat)
  | goOn (t : Nat)
  deriving DecidableEq, Repr

namespace LogWorld

/-- A log is opened when no thread uses it. -/
def opened (lastLsn : Nat) (lgMax : Nat) : LogWorld where
  logger := .opened lastLsn lgMax
  threads := fun _ => .idle

/-- A thread has come to another place. -/
def at' (world : LogWorld) (t : Nat) (logger : TokuLogger) (thread : LogThread) : LogWorld where
  logger := logger
  threads := fun u => if u = t then thread else world.threads u

/-- Append an entry while holding the input lock, let go of it, and flush if that is asked for. -/
def appendEntry (world : LogWorld) (t buflen : Nat) (doFsync : Bool) : LogWorld :=
  let logger := { world.logger with inputLock := none }.append buflen
  world.at' t logger (if doFsync then .waitTill ⟨logger.lsn, logger.lsn⟩ else .idle)

/-- Take the input lock and append at once when there is room, or wait for the output. -/
def log (world : LogWorld) (t fieldsSize : Nat) (doFsync : Bool) : Option LogWorld :=
  let buflen := logEntryOverhead + fieldsSize
  if world.logger.inputLock = none then
    if world.logger.hasRoom buflen then some (world.appendEntry t buflen doFsync)
    else some (world.at' t world.logger (.grabOutput buflen doFsync))
  else none

/-- Read the newest entry of the input buffer under the input lock, and flush up to there. -/
def fsync (world : LogWorld) (t : Nat) : Option LogWorld :=
  if world.logger.inputLock = none then
    some (world.at' t world.logger (.waitTill ⟨world.logger.inbuf.maxLsnInBuf, world.logger.lsn⟩))
  else none

/-- Flush up to an entry that was logged. -/
def fsyncIfLsnNotFsynced (world : LogWorld) (t : Nat) (lsn : Nat) : Option LogWorld :=
  if lsn ≤ world.logger.lsn then some (world.at' t world.logger (.waitTill ⟨lsn, lsn⟩))
  else none

/-- Get the output as soon as no other thread has it. -/
def grabOutput (world : LogWorld) (t buflen : Nat) (doFsync : Bool) : Option LogWorld :=
  if world.logger.outputIsAvailable then
    some (world.at' t { world.logger with outputIsAvailable := false }
      (.lockAgain buflen doFsync world.logger.fsyncedLsn))
  else none

/-- Take the input lock again and make room. -/
def makeSpace (world : LogWorld) (t buflen : Nat) (doFsync : Bool) (fsyncedLsn : Nat) :
    Option LogWorld :=
  if world.logger.inputLock = none then do
    let (logger, fsyncedLsn) ← { world.logger with inputLock := some t }.makeSpaceInInbuf buflen
      fsyncedLsn
    return world.at' t logger (.madeSpace buflen doFsync fsyncedLsn)
  else none

/-- Return when the entry is synced, or else get the output, or else wait. -/
def waitTill (world : LogWorld) (t : Nat) (flush : LogFlush) : Option LogWorld :=
  if flush.lsn ≤ world.logger.fsyncedLsn then some (world.at' t world.logger (.flushed flush))
  else if world.logger.outputIsAvailable then
    some (world.at' t { world.logger with outputIsAvailable := false }
      (.lockToSwap flush world.logger.fsyncedLsn))
  else none

/-- Swap the buffers under the input lock. -/
def swap (world : LogWorld) (t : Nat) (flush : LogFlush) (fsyncedLsn : Nat) : Option LogWorld :=
  if world.logger.inputLock = none then do
    let logger ← world.logger.swapInbufOutbuf
    return world.at' t logger (.swapped flush fsyncedLsn)
  else none

/-- Write the output buffer. -/
def write (world : LogWorld) (t : Nat) (flush : LogFlush) (fsyncedLsn : Nat) : Option LogWorld := do
  let (logger, fsyncedLsn) ← world.logger.writeOutbufToLogfile fsyncedLsn
  return world.at' t logger (.written flush fsyncedLsn)

/-- Sync the file unless that happened when it was closed. -/
def sync (world : LogWorld) (t : Nat) (flush : LogFlush) (fsyncedLsn : Nat) : Option LogWorld :=
  if fsyncedLsn < flush.lsn then do
    invariant (fsyncedLsn ≤ world.logger.writtenLsn)
    return world.at' t world.logger.fsyncFile (.synced flush world.logger.writtenLsn)
  else some (world.at' t world.logger (.synced flush fsyncedLsn))

/-- A thread goes on from where it is. -/
def goOn (world : LogWorld) (t : Nat) : LogThread → Option LogWorld
  | .idle => none
  | .grabOutput buflen doFsync => world.grabOutput t buflen doFsync
  | .lockAgain buflen doFsync fsyncedLsn => world.makeSpace t buflen doFsync fsyncedLsn
  | .madeSpace buflen doFsync fsyncedLsn =>
    some (world.at' t (world.logger.releaseOutput fsyncedLsn) (.append buflen doFsync))
  | .append buflen doFsync => some (world.appendEntry t buflen doFsync)
  | .waitTill flush => world.waitTill t flush
  | .lockToSwap flush fsyncedLsn => world.swap t flush fsyncedLsn
  | .swapped flush fsyncedLsn => world.write t flush fsyncedLsn
  | .written flush fsyncedLsn => world.sync t flush fsyncedLsn
  | .synced flush fsyncedLsn =>
    some (world.at' t (world.logger.releaseOutput fsyncedLsn) (.flushed flush))
  | .flushed _ => some (world.at' t world.logger .idle)

/-- A thread starts something only when it is done with what it did before. -/
def next (world : LogWorld) : LogEvent → Option LogWorld
  | .log t fieldsSize doFsync =>
    if world.threads t = .idle then world.log t fieldsSize doFsync else none
  | .fsync t => if world.threads t = .idle then world.fsync t else none
  | .fsyncIfLsnNotFsynced t lsn =>
    if world.threads t = .idle then world.fsyncIfLsnNotFsynced t lsn else none
  | .goOn t => world.goOn t (world.threads t)

/-- A thread has swapped the buffers, and what it took out is not synced. -/
def Unsynced : LogThread → Prop
  | .swapped _ _ => True
  | .written flush fsyncedLsn => fsyncedLsn < flush.lsn
  | _ => False

/-- A flush reads an entry that is synced already from an empty buffer, while entries that
another thread has swapped out of there are not synced. -/
def ReadsStale (world : LogWorld) : Prop :=
  world.logger.inbuf.nInBuf = 0 ∧ world.logger.inbuf.maxLsnInBuf ≤ world.logger.fsyncedLsn ∧
    ∃ u, Unsynced (world.threads u)

/-- A step that is not an explicit flush that reads a stale entry. -/
def Clear (world : LogWorld) : LogEvent → Prop
  | .fsync _ => ¬ world.ReadsStale
  | _ => True

/-- A step of the log. -/
def Step (before : LogWorld) (event : LogEvent) (after : LogWorld) : Prop :=
  before.next event = some after

/-- A step of the log with no stale read. -/
def ClearStep (before : LogWorld) (event : LogEvent) (after : LogWorld) : Prop :=
  before.Clear event ∧ before.next event = some after

/-- Every entry that a flush was called after is synced when it returns. -/
def FlushesDurably (first : Nat) (world : LogWorld) : Prop :=
  ∀ t flush, world.threads t = .flushed flush →
    ∀ lsn, first < lsn → lsn ≤ flush.before → world.logger.Durable lsn

end LogWorld

end Tokuft
