import Tokuft.Basic

/-! The log: entries gather in one buffer while the other is written to the current file. -/

namespace Tokuft

/-- A buffer of the log, with the entries that its bytes hold and the newest one put there.

Log sequence numbers count the entries, so an entry is known by its number. -/
structure Logbuf where
  nInBuf : Nat
  bufSize : Nat
  entries : List Nat
  maxLsnInBuf : Nat
  deriving DecidableEq, Repr

/-- A log file, with how many of its entries are known to have reached the disk. -/
structure LogFile where
  entries : List Nat
  synced : Nat
  deriving DecidableEq, Repr

/-- The state that the threads of an environment share about the log. -/
structure TokuLogger where
  /-- The thread that holds the input lock. -/
  inputLock : Option Nat
  outputIsAvailable : Bool
  lgMax : Nat
  lsn : Nat
  inbuf : Logbuf
  writtenLsn : Nat
  fsyncedLsn : Nat
  outbuf : Logbuf
  nInFile : Nat
  /-- The files that are closed, oldest first. -/
  oldFiles : List LogFile
  /-- The file that is open for writing. -/
  file : LogFile
  deriving DecidableEq, Repr

/-- An input buffer has at least this many bytes. -/
def loggerMinBufSize : Nat := 2 ^ 24

/-- A new log file holds a magic word and a version. -/
def logFileHeaderSize : Nat := 12

/-- A length, a command, a sequence number, a checksum and the length again. -/
def logEntryOverhead : Nat := 4 + 1 + 8 + 8

/-- An empty buffer that remembers the newest entry of an earlier log. -/
def Logbuf.empty (maxLsnInBuf : Nat) : Logbuf := ⟨0, loggerMinBufSize, [], maxLsnInBuf⟩

/-- Everything written to the file so far reaches the disk. -/
def LogFile.fsync (file : LogFile) : LogFile := { file with synced := file.entries.length }

namespace TokuLogger

/-- A log that was opened after an earlier log, with a new file. -/
def opened (lastLsn : Nat) (lgMax : Nat) : TokuLogger where
  inputLock := none
  outputIsAvailable := true
  lgMax := lgMax
  lsn := lastLsn
  inbuf := .empty lastLsn
  writtenLsn := lastLsn
  fsyncedLsn := lastLsn
  outbuf := .empty lastLsn
  nInFile := logFileHeaderSize
  oldFiles := []
  file := ⟨[], 0⟩

/-- Put an entry of some length at the end of the input buffer. -/
def append (logger : TokuLogger) (buflen : Nat) : TokuLogger :=
  let lsn := logger.lsn + 1
  { logger with
    lsn
    inbuf := { logger.inbuf with
      nInBuf := logger.inbuf.nInBuf + buflen
      entries := logger.inbuf.entries ++ [lsn]
      maxLsnInBuf := lsn } }

/-- The buffers change places, and what is appended next goes to an empty one. -/
def swapInbufOutbuf (logger : TokuLogger) : Option TokuLogger := do
  invariant (logger.outbuf.nInBuf = 0)
  return { logger with inbuf := logger.outbuf, outbuf := logger.inbuf }

/-- Start the next log file. -/
def openLogfile (logger : TokuLogger) : TokuLogger :=
  { logger with
    file := ⟨[], 0⟩
    fsyncedLsn := logger.writtenLsn
    nInFile := logFileHeaderSize }

/-- Sync the current file and start the next one. -/
def closeAndOpenLogfile (logger : TokuLogger) : TokuLogger :=
  { logger with oldFiles := logger.oldFiles ++ [logger.file.fsync] }.openLogfile

/-- Write the bytes of the output buffer, if there are any. -/
def writeOutbuf (logger : TokuLogger) : Option TokuLogger :=
  if 0 < logger.outbuf.nInBuf then do
    invariant (logger.writtenLsn < logger.outbuf.maxLsnInBuf)
    return { logger with
      file := { logger.file with entries := logger.file.entries ++ logger.outbuf.entries }
      writtenLsn := logger.outbuf.maxLsnInBuf
      nInFile := logger.nInFile + logger.outbuf.nInBuf
      outbuf := { logger.outbuf with nInBuf := 0, entries := [] } }
  else some logger

/-- Write the output buffer, and go on to the next file when the current one is too big. -/
def writeOutbufToLogfile (logger : TokuLogger) (fsyncedLsn : Nat) : Option (TokuLogger × Nat) := do
  let logger ← logger.writeOutbuf
  return if logger.lgMax < logger.nInFile then (logger.closeAndOpenLogfile, logger.writtenLsn)
    else (logger, fsyncedLsn)

/-- Sync the current file. -/
def fsyncFile (logger : TokuLogger) : TokuLogger := { logger with file := logger.file.fsync }

/-- Let other threads have the output, and tell them how much is synced. -/
def releaseOutput (logger : TokuLogger) (fsyncedLsn : Nat) : TokuLogger :=
  { logger with
    outputIsAvailable := true
    fsyncedLsn := if logger.fsyncedLsn < fsyncedLsn then fsyncedLsn else logger.fsyncedLsn }

/-- Whether some bytes fit into the input buffer. -/
def hasRoom (logger : TokuLogger) (nBytesNeeded : Nat) : Bool :=
  decide (logger.inbuf.nInBuf + nBytesNeeded ≤ loggerMinBufSize)

/-- Write what is in the input buffer, if there is anything. -/
def writeInbuf (logger : TokuLogger) (fsyncedLsn : Nat) : Option (TokuLogger × Nat) :=
  if 0 < logger.inbuf.nInBuf then do
    let logger ← logger.swapInbufOutbuf
    logger.writeOutbufToLogfile fsyncedLsn
  else some (logger, fsyncedLsn)

/-- Make the empty input buffer large enough for an entry. -/
def enlargeInbuf (logger : TokuLogger) (nBytesNeeded : Nat) : Option TokuLogger :=
  if logger.inbuf.bufSize < nBytesNeeded then do
    invariant (nBytesNeeded < 2 ^ 30)
    let newSize := max (logger.inbuf.bufSize * 2) nBytesNeeded
    invariant (newSize < 2 ^ 30)
    return { logger with inbuf := { logger.inbuf with bufSize := newSize } }
  else some logger

/-- Make room in the input buffer, with both the input lock and the output at hand. -/
def makeSpaceInInbuf (logger : TokuLogger) (nBytesNeeded : Nat) (fsyncedLsn : Nat) :
    Option (TokuLogger × Nat) :=
  if logger.hasRoom nBytesNeeded then some (logger, fsyncedLsn)
  else do
    let (logger, fsyncedLsn) ← logger.writeInbuf fsyncedLsn
    let logger ← logger.enlargeInbuf nBytesNeeded
    return (logger, fsyncedLsn)

/-- An entry is among those of a file that have reached the disk. -/
def Durable (logger : TokuLogger) (lsn : Nat) : Prop :=
  ∃ file ∈ logger.oldFiles ++ [logger.file], lsn ∈ file.entries.take file.synced

instance (logger : TokuLogger) (lsn : Nat) : Decidable (logger.Durable lsn) :=
  inferInstanceAs (Decidable (∃ file ∈ _, _))

end TokuLogger

end Tokuft
