import Tokuft.Library.ListCursor
import Tokuft.Logger.CodecsExact

/-! Log cursors, which read the entries of a list of log files, and repair the end of the last. -/

namespace Tokuft

/-- How the current entry of a cursor was reached. -/
inductive LcDirection where
  | forward
  | backward
  | first
  | last
  deriving DecidableEq, Repr

/-- A log file that is open, at some position. -/
structure OpenLogfile where
  index : Nat
  pos : Nat
  deriving DecidableEq, Repr

/-- A cursor over log files. -/
structure LogCursor where
  /-- What the files hold. -/
  logfiles : List Bytes
  curLogfilesIndex : Nat
  curFp : Option OpenLogfile
  entryValid : Bool
  curLsn : UInt64
  lastDirection : LcDirection
  deriving DecidableEq

/-- What a call returns: an entry, that there is none, or that its sequence number is wrong. -/
inductive LogCursorResult where
  | entry (entry : LogEntry)
  | notFound
  | runRecovery
  deriving DecidableEq

/-- Errors that leave the cursor at a position that is not known: a file or an entry in it has a bad
format, an entry cannot be read backward, or an assertion fails. -/
inductive LogCursorFailure where
  | badFormat
  | unreadable
  | assertion
  deriving DecidableEq, Repr

/-- The versions of log files that can be read. -/
def tokuLogMinSupportedVersion : Nat := 13

/-- The version of the log files that are written. -/
def tokuLogVersion : Nat := 29

/-- The magic word `tokulogg`. -/
def logMagic : Bytes := [0x74, 0x6f, 0x6b, 0x75, 0x6c, 0x6f, 0x67, 0x67]

/-- The version in the header of a log file, most significant byte first. -/
def tokuReadLogmagic (file : Bytes) : Option Nat :=
  if file.take 8 = logMagic then
    match (file.drop 8).take 4 with
    | [a, b, c, d] =>
      some (a.toNat * 2 ^ 24 + b.toNat * 2 ^ 16 + c.toNat * 2 ^ 8 + d.toNat)
    | _ => none
  else none

/-- Shorten a file, or extend it by bytes that are zero. -/
def truncateFile (file : Bytes) (length : Nat) : Bytes :=
  file.take length ++ List.replicate (length - file.length) 0

namespace LogCursor

/-- A cursor that has not been used. -/
def create (logfiles : List Bytes) : LogCursor where
  logfiles := logfiles
  curLogfilesIndex := 0
  curFp := none
  entryValid := false
  curLsn := 0
  lastDirection := .first

/-- Close the file that is open. -/
def lcCloseCurLogfile (lc : LogCursor) : LogCursor := { lc with curFp := none }

/-- Open a file at the end of its header, and tell whether there is such a file. -/
def lcOpenLogfile (lc : LogCursor) (index : Nat) : Except LogCursorFailure (LogCursor × Bool) :=
  if lc.curFp.isSome then .error .assertion
  else
    match lc.logfiles[index]? with
    | none => .ok (lc, false)
    | some file =>
      -- A file that is too short for a header is read from its start.
      if file.length < logHeaderEnd then .ok ({ lc with curFp := some ⟨index, 0⟩ }, true)
      else
        match tokuReadLogmagic file with
        | none => .error .badFormat
        | some version =>
          if version < tokuLogMinSupportedVersion ∨ tokuLogVersion < version then
            .error .badFormat
          else .ok ({ lc with curFp := some ⟨index, logHeaderEnd⟩ }, true)

/-- Go to the end of the file that is open. -/
def seekEnd (lc : LogCursor) : LogCursor :=
  { lc with
    curFp := lc.curFp.map fun fp => { fp with pos := (lc.logfiles.getD fp.index []).length } }

/-- Read an entry of the file that is open, if it has one more. -/
def fread (lc : LogCursor) : Except LogCursorFailure (LogCursor × Option LogEntry) :=
  match lc.curFp with
  | none => .error .assertion
  | some fp =>
    match tokuLogFread (lc.logfiles.getD fp.index []) fp.pos with
    | .ok (entry, pos) => .ok ({ lc with curFp := some { fp with pos } }, some entry)
    | .error .eof => .ok (lc, none)
    | .error .badFormat => .error .badFormat

/-- Read the entry that ends here in the file that is open, if there is one. -/
def freadBackward (lc : LogCursor) : Except LogCursorFailure (LogCursor × Option LogEntry) :=
  match lc.curFp with
  | none => .error .assertion
  | some fp =>
    match tokuLogFreadBackward (lc.logfiles.getD fp.index []) fp.pos with
    | .ok (entry, pos) => .ok ({ lc with curFp := some { fp with pos } }, some entry)
    | .error .eof => .ok (lc, none)
    | .error .badFormat => .error .unreadable

/-- Read an entry, of a later file if need be. -/
def lcLogRead : Nat → LogCursor → Except LogCursorFailure (LogCursor × Option LogEntry)
  | 0, _ => .error .assertion
  | fuel + 1, lc => do
    match ← lc.fread with
    | (lc, some entry) => return (lc, some entry)
    | (lc, none) =>
      let lc := lc.lcCloseCurLogfile
      if lc.curLogfilesIndex + 1 = lc.logfiles.length then return (lc, none)
      else
        let lc := { lc with curLogfilesIndex := lc.curLogfilesIndex + 1 }
        match ← lc.lcOpenLogfile lc.curLogfilesIndex with
        | (lc, false) => return (lc, none)
        | (lc, true) => lcLogRead fuel lc

/-- Read an entry backward, of an earlier file if need be. -/
def lcLogReadBackward : Nat → LogCursor → Except LogCursorFailure (LogCursor × Option LogEntry)
  | 0, _ => .error .assertion
  | fuel + 1, lc => do
    match ← lc.freadBackward with
    | (lc, some entry) => return (lc, some entry)
    | (lc, none) =>
      let lc := lc.lcCloseCurLogfile
      if lc.curLogfilesIndex = 0 then return (lc, none)
      else
        let lc := { lc with curLogfilesIndex := lc.curLogfilesIndex - 1 }
        match ← lc.lcOpenLogfile lc.curLogfilesIndex with
        | (lc, false) => return (lc, none)
        | (lc, true) => lcLogReadBackward fuel lc.seekEnd

/-- Whether the sequence number of an entry follows the one before. -/
def lcCheckLsn (lc : LogCursor) (dir : LcDirection) (lsn : UInt64) : Bool :=
  match dir with
  | .forward => lsn = lc.curLsn + 1
  | .backward => lsn = lc.curLsn - 1
  | .first | .last => true

/-- Return the entry that has been read, which becomes the current one. -/
def returnEntry (lc : LogCursor) (dir : LcDirection) :
    Option LogEntry → LogCursor × LogCursorResult
  | none => (lc, .notFound)
  | some entry =>
    if lc.lcCheckLsn dir entry.lsn then
      ({ lc with curLsn := entry.lsn, lastDirection := dir, entryValid := true }, .entry entry)
    else (lc, .runRecovery)

/-- Close any other file than the one at an index, and open that one if no file is open. -/
def openOnly (lc : LogCursor) (index : Nat) : Except LogCursorFailure (LogCursor × Bool) := do
  let lc := if lc.curLogfilesIndex ≠ index then lc.lcCloseCurLogfile else lc
  if lc.curFp.isSome then return (lc, true)
  else
    match ← lc.lcOpenLogfile index with
    | (lc, false) => return (lc, false)
    | (lc, true) => return ({ lc with curLogfilesIndex := index }, true)

/-- Return the first entry of all files. -/
def tokuLogcursorFirst (lc : LogCursor) :
    Except LogCursorFailure (LogCursor × LogCursorResult) := do
  let lc := { lc with entryValid := false }
  match ← lc.openOnly 0 with
  | (lc, false) => return (lc, .notFound)
  | (lc, true) =>
    let (lc, entry) ← lcLogRead lc.logfiles.length lc
    return lc.returnEntry .first entry

/-- Where the last entry ends that is read forward from a position. -/
def lastGoodPos (file : Bytes) : Nat → Nat → Nat
  | 0, pos => pos
  | fuel + 1, pos =>
    match tokuLogFread file pos with
    | .ok (_, after) => lastGoodPos file fuel after
    | .error _ => pos

/-- Truncate the last file where the entries of the file that is open end, and go to its end. -/
def lcFixBadLogfile (lc : LogCursor) : Except LogCursorFailure LogCursor := do
  match lc.curFp with
  | none => .error .assertion
  | some fp =>
    let file := lc.logfiles.getD fp.index []
    if tokuReadLogmagic file = some tokuLogVersion then
      let pos := lastGoodPos file file.length logHeaderEnd
      let lc := lc.lcCloseCurLogfile
      let last := lc.logfiles.length - 1
      let lc := { lc with logfiles := lc.logfiles.modify last (truncateFile · pos) }
      match ← lc.lcOpenLogfile last with
      | (_, false) => .error .badFormat
      | (lc, true) => return lc.seekEnd
    else .error .badFormat

/-- Read the last entry of the file that is open; when it is unreadable, repair the file first. -/
def lastOfFile (lc : LogCursor) : Except LogCursorFailure (LogCursor × Option LogEntry) :=
  match lc.seekEnd.freadBackward with
  | .ok result => .ok result
  | .error .unreadable =>
    match lc.seekEnd.lcFixBadLogfile with
    | .error _ => .error .badFormat
    | .ok fixed =>
      match fixed.freadBackward with
      | .ok result => .ok result
      | .error _ => .ok (fixed, none)
  | .error failure => .error failure

/-- Read the last entry of the file that is open, or of the file before that has one. -/
def lastOfFiles : Nat → LogCursor → Except LogCursorFailure (LogCursor × Option LogEntry)
  | 0, _ => .error .assertion
  | fuel + 1, lc => do
    match ← lc.lastOfFile with
    | (lc, some entry) => return (lc, some entry)
    | (lc, none) =>
      let lc := lc.lcCloseCurLogfile
      if lc.curLogfilesIndex = 0 then return (lc, none)
      else
        let lc := { lc with curLogfilesIndex := lc.curLogfilesIndex - 1 }
        match ← lc.lcOpenLogfile lc.curLogfilesIndex with
        | (lc, false) => return (lc, none)
        | (lc, true) => lastOfFiles fuel lc

/-- Return the last entry of all files. -/
def tokuLogcursorLast (lc : LogCursor) :
    Except LogCursorFailure (LogCursor × LogCursorResult) := do
  let lc := { lc with entryValid := false }
  match ← lc.openOnly (lc.logfiles.length - 1) with
  | (lc, false) => return (lc, .notFound)
  | (lc, true) =>
    let (lc, entry) ← lastOfFiles lc.logfiles.length lc
    return lc.returnEntry .last entry

/-- Read the current entry once more to get to its other end. -/
def passAgain (lc : LogCursor)
    (read : LogCursor → Except LogCursorFailure (LogCursor × Option LogEntry)) :
    Except LogCursorFailure LogCursor :=
  match read lc with
  | .ok (lc, some _) => .ok lc
  | .ok (_, none) | .error _ => .error .assertion

/-- Return the entry behind the current one. -/
def tokuLogcursorNext (lc : LogCursor) :
    Except LogCursorFailure (LogCursor × LogCursorResult) :=
  if lc.entryValid then do
    let lc := { lc with entryValid := false }
    let lc ← if lc.lastDirection = .backward then lc.passAgain fread else pure lc
    let (lc, entry) ← lcLogRead lc.logfiles.length lc
    return lc.returnEntry .forward entry
  else lc.tokuLogcursorFirst

/-- Return the entry in front of the current one. -/
def tokuLogcursorPrev (lc : LogCursor) :
    Except LogCursorFailure (LogCursor × LogCursorResult) :=
  if lc.entryValid then do
    let lc := { lc with entryValid := false }
    let lc ← if lc.lastDirection = .forward then lc.passAgain freadBackward else pure lc
    let (lc, entry) ← lcLogReadBackward lc.logfiles.length lc
    return lc.returnEntry .backward entry
  else lc.tokuLogcursorLast

/-- Do what a cursor is asked to do. -/
def call (lc : LogCursor) : CursorCall → Except LogCursorFailure (LogCursor × LogCursorResult)
  | .first => lc.tokuLogcursorFirst
  | .last => lc.tokuLogcursorLast
  | .next => lc.tokuLogcursorNext
  | .prev => lc.tokuLogcursorPrev

/-- What a sequence of calls returns. -/
def answers : LogCursor → List CursorCall → Except LogCursorFailure (List LogCursorResult)
  | _, [] => .ok []
  | lc, asked :: calls => do
    let (lc, result) ← lc.call asked
    let results ← lc.answers calls
    return result :: results

end LogCursor

end Tokuft
