import Tokuft.Search.CursorExact

/-! Scans: the rows that a cursor passes to its user, with row locks that may be refused. -/

namespace Tokuft

/-- The answer of the lock tree to a request for a range lock. -/
inductive LockAnswer where
  | granted
  | notGranted
  | error (code : Int)
  deriving DecidableEq, Repr

/-- The answer of the user's callback to a row. -/
inductive UserAnswer where
  | ok
  | cursorContinue
  | error (code : Int)
  deriving DecidableEq, Repr

/-- The code of an answer of the lock tree. -/
def LockAnswer.code : LockAnswer → FtCode
  | .granted => .ok
  | .notGranted => .lockNotGranted
  | .error code => .other code

/-- The code of an answer of the user. -/
def UserAnswer.code : UserAnswer → FtCode
  | .ok => .ok
  | .cursorContinue => .cursorContinue
  | .error code => .other code

/--
What a scan asks of the lock tree and of the user.

Each answer may depend on all calls of the scan so far, the latest of which is the first.
-/
structure ScanContext (Key Val : Type) where
  doLocking : Bool
  /-- A lock on a range of keys; a missing key is an infinite one. -/
  startRangeLock : (leftKey rightKey : Option Key) → List (GetfCall Key Val) → LockAnswer
  waitRangeLock : List (GetfCall Key Val) → LockAnswer
  f : Key → Val → List (GetfCall Key Val) → UserAnswer

/-- A scan between two of its searches: its cursor and all its calls, latest first. -/
structure ScanState (Key Entry Val : Type) where
  cursor : FtCursor Key Entry Val
  calls : List (GetfCall Key Val)

variable {Key Entry Val : Type}

/-- Lock the range up to a row and, when that is granted, pass the row to the user. -/
def ScanContext.callback (context : ScanContext Key Val)
    (range : GetfCall Key Val → Option Key × Option Key) : FtGetCallback Key Val
  | [] => .ok
  | call :: before =>
    let r := if context.doLocking then
        (context.startRangeLock (range call).1 (range call).2 (call :: before)).code
      else .ok
    match r, call.key, call.val, call.lockOnly with
    | .ok, some key, some val, false => (context.f key val (call :: before)).code
    | r, _, _, _ => r

/-- The range from the least key to the row. -/
def cGetfFirstCallback (context : ScanContext Key Val) : FtGetCallback Key Val :=
  context.callback fun call => (none, call.key)

/-- The range from the row to the greatest key. -/
def cGetfLastCallback (context : ScanContext Key Val) : FtGetCallback Key Val :=
  context.callback fun call => (call.key, none)

/-- The range from the row of the cursor to the row. -/
def cGetfNextCallback (context : ScanContext Key Val) : FtGetCallback Key Val :=
  context.callback fun call => (call.position, call.key)

/-- The range from the row to the row of the cursor. -/
def cGetfPrevCallback (context : ScanContext Key Val) : FtGetCallback Key Val :=
  context.callback fun call => (call.key, call.position)

/-- The callback of one search of a scan, which knows of the calls before. -/
def FtGetCallback.since (getf : FtGetCallback Key Val) (before : List (GetfCall Key Val)) :
    FtGetCallback Key Val := fun calls => getf (calls ++ before)

/-- The cursor after a search, which knows what it was asked about interrupting. -/
def SearchState.finish (state : SearchState Key Entry Val) : FtCursor Key Entry Val :=
  { state.cursor with
    interruptCb := state.cursor.interruptCb.map fun interruptCb later =>
      interruptCb (later ++ state.interrupts) }

/-- What one search makes of a scan. -/
def ScanState.after (scan : ScanState Key Entry Val) (state : SearchState Key Entry Val) :
    ScanState Key Entry Val :=
  { cursor := state.finish, calls := state.calls ++ scan.calls }

/-- Search, and search again whenever a lock that was refused is granted after waiting. -/
def searchAndWait (context : ScanContext Key Val)
    (search : ScanState Key Entry Val → Option (FtCode × SearchState Key Entry Val)) :
    Nat → ScanState Key Entry Val → Option (FtCode × ScanState Key Entry Val)
  | 0, _ => none
  | tries + 1, scan => do
    let (r, state) ← search scan
    let scan := scan.after state
    if r = .lockNotGranted then
      match context.waitRangeLock scan.calls with
      | .granted => searchAndWait context search tries scan
      | refused => pure (refused.code, scan)
    else pure (r, scan)

variable [LinearOrder Key] (context : ScanContext Key Val) (tree : FtTree Key Entry)
  (fuel tries : Nat) (scan : ScanState Key Entry Val)

/-- Get the first row. -/
def cGetfFirst : Option (FtCode × ScanState Key Entry Val) :=
  searchAndWait context (fun scan =>
    tokuFtCursorFirst tree fuel ((cGetfFirstCallback context).since scan.calls) scan.cursor)
    tries scan

/-- Get the last row. -/
def cGetfLast : Option (FtCode × ScanState Key Entry Val) :=
  searchAndWait context (fun scan =>
    tokuFtCursorLast tree fuel ((cGetfLastCallback context).since scan.calls) scan.cursor)
    tries scan

/-- Get the next row, and more while the user wants them. -/
def cGetfNext : Option (FtCode × ScanState Key Entry Val) :=
  if scan.cursor.key.isNone then cGetfFirst context tree fuel tries scan
  else
    searchAndWait context (fun scan =>
      tokuFtCursorNext tree fuel ((cGetfNextCallback context).since scan.calls) scan.cursor)
      tries scan

/-- Get the previous row, and more while the user wants them. -/
def cGetfPrev : Option (FtCode × ScanState Key Entry Val) :=
  if scan.cursor.key.isNone then cGetfLast context tree fuel tries scan
  else
    searchAndWait context (fun scan =>
      tokuFtCursorPrev tree fuel ((cGetfPrevCallback context).since scan.calls) scan.cursor)
      tries scan

end Tokuft
