import Tokuft.Search.FirstVisible

/-! The operations of a cursor, each of which is one search. -/

namespace Tokuft

variable {Key Entry Val : Type} [LinearOrder Key]

/-- A search that has not looked at anything yet. -/
def ftSearchInit (compare : SearchCompare Key) (direction : FtSearchDirection)
    (kBound : Option Key) : FtSearch Key where
  compare := compare
  direction := direction
  kBound := kBound
  pivotBound := none

section operations

variable (tree : FtTree Key Entry) (fuel : Nat) (getf : FtGetCallback Key Val)
  (cursor : FtCursor Key Entry Val)

/-- The first row. -/
def tokuFtCursorFirst : Option (FtCode × SearchState Key Entry Val) :=
  ftSearch getf false tree.root fuel (ftSearchInit .one .left none) { cursor with direction := 0 }

/-- The last row. -/
def tokuFtCursorLast : Option (FtCode × SearchState Key Entry Val) :=
  ftSearch getf false tree.root fuel (ftSearchInit .one .right none) { cursor with direction := 0 }

/-- The row behind that of the cursor, and rows behind it; the caller has seen
to it that the cursor is set. -/
def tokuFtCursorNext : Option (FtCode × SearchState Key Entry Val) := do
  let key ← cursor.key
  ftSearch getf true tree.root fuel (ftSearchInit (.next key) .left none)
    { cursor with direction := 1 }

/-- The row before that of the cursor, and rows before it. -/
def tokuFtCursorPrev : Option (FtCode × SearchState Key Entry Val) := do
  let key ← cursor.key
  ftSearch getf true tree.root fuel (ftSearchInit (.prev key) .right none)
    { cursor with direction := -1 }

/-- A call as the caller of a search for one key gets it. -/
def eqCall (k : Key) (call : GetfCall Key Val) : GetfCall Key Val :=
  match call.key with
  | none => { call with lockOnly := false }
  | some key => if key = k then call else { call with key := none, val := none }

/-- Pass on only what has the key that is searched for, and otherwise stop the search. -/
def ftCursorSearchEqKXGetf (k : Key) : FtGetCallback Key Val := fun calls =>
  let r := getf (calls.map (eqCall k))
  match calls with
  | { key := some key, .. } :: _ => if key ≠ k ∧ r = .ok then .foundButRejected else r
  | _ => r

/-- The row of a key. -/
def tokuFtCursorSet (key : Key) : Option (FtCode × SearchState Key Entry Val) :=
  ftSearch (ftCursorSearchEqKXGetf getf key) false tree.root fuel
    (ftSearchInit (.setRange key) .left none) { cursor with direction := 0 }

/-- The first row from a key on, which need not be looked for behind the bound. -/
def tokuFtCursorSetRange (key : Key) (keyBound : Option Key) :
    Option (FtCode × SearchState Key Entry Val) :=
  ftSearch getf false tree.root fuel (ftSearchInit (.setRange key) .left keyBound)
    { cursor with direction := 0 }

/-- The last row up to a key. -/
def tokuFtCursorSetRangeReverse (key : Key) : Option (FtCode × SearchState Key Entry Val) :=
  ftSearch getf false tree.root fuel (ftSearchInit (.setRangeReverse key) .right none)
    { cursor with direction := 0 }

end operations

/-- An operation of a cursor. -/
inductive CursorOp (Key : Type) where
  | first
  | last
  | next
  | prev
  | set (key : Key)
  | setRange (key : Key) (keyBound : Option Key)
  | setRangeReverse (key : Key)
  deriving DecidableEq, Repr

namespace CursorOp

/-- Perform an operation. -/
def run (op : CursorOp Key) (tree : FtTree Key Entry) (fuel : Nat) (getf : FtGetCallback Key Val)
    (cursor : FtCursor Key Entry Val) : Option (FtCode × SearchState Key Entry Val) :=
  match op with
  | .first => tokuFtCursorFirst tree fuel getf cursor
  | .last => tokuFtCursorLast tree fuel getf cursor
  | .next => tokuFtCursorNext tree fuel getf cursor
  | .prev => tokuFtCursorPrev tree fuel getf cursor
  | .set key => tokuFtCursorSet tree fuel getf cursor key
  | .setRange key keyBound => tokuFtCursorSetRange tree fuel getf cursor key keyBound
  | .setRangeReverse key => tokuFtCursorSetRangeReverse tree fuel getf cursor key

/-- The direction in which an operation goes through the rows. -/
def way : CursorOp Key → FtSearchDirection
  | .last | .prev | .setRangeReverse _ => .right
  | _ => .left

/-- Whether an operation is for a row with some key. -/
def wants (op : CursorOp Key) (position : Option Key) (key : Key) : Bool :=
  match op with
  | .first | .last => true
  | .next => position.any (decide <| · < key)
  | .prev => position.any (decide <| key < ·)
  | .set k => decide (key = k)
  | .setRange k _ => decide (k ≤ key)
  | .setRangeReverse k => decide (key ≤ k)

/-- Whether an operation looks at a row with some key, which it need not be for. -/
def meets (op : CursorOp Key) (position : Option Key) (key : Key) : Bool :=
  match op with
  | .set k => decide (k ≤ key)
  | op => op.wants position key

/-- Whether a key lies behind the bound of an operation. -/
def Outside (op : CursorOp Key) (key : Key) : Prop :=
  match op with
  | .setRange _ (some keyBound) => keyBound < key
  | _ => False

/-- The calls that the caller of an operation gets. -/
def seen (op : CursorOp Key) (calls : List (GetfCall Key Val)) : List (GetfCall Key Val) :=
  match op with
  | .set key => calls.map (eqCall key)
  | _ => calls

end CursorOp

/-- The entries of a tree, from the least key to the greatest. -/
def FtTree.entries (tree : FtTree Key Entry) : List (Key × Entry) :=
  (tree.parts .left).flatMap SearchPart.bn

/-- The rows that an operation looks at, in the order in which it does. -/
def CursorOp.met (op : CursorOp Key) (tree : FtTree Key Entry)
    (cursor : FtCursor Key Entry Val) : List (Key × Val) :=
  (visible cursor.leVal (entriesIn op.way tree.entries)).filter fun row =>
    op.meets cursor.key row.1

/-- The rows that an operation is for. -/
def CursorOp.rows (op : CursorOp Key) (tree : FtTree Key Entry)
    (cursor : FtCursor Key Entry Val) : List (Key × Val) :=
  (visible cursor.leVal (entriesIn op.way tree.entries)).filter fun row =>
    op.wants cursor.key row.1

end Tokuft
