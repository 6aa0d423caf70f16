import Tokuft.Basic
import Tokuft.Library.WeightTreeSearch

/-! A sequence of values that is an array while it is filled at its ends, and a tree otherwise. -/

namespace Tokuft

/-- A node of the tree, which stands at an index of an array of nodes. Two bits tell whether its
value is marked and whether there are marks below it. -/
structure OmtNode (α : Type) where
  idx : Nat
  value : α
  marked : Bool
  marksBelow : Bool
  deriving DecidableEq, Repr

/-- The values from some cell of an array on, or a tree in an array of nodes that are used up to
some index. A cell that was never written has no value. -/
inductive OmtData (α : Type) where
  | array (startIdx numValues : Nat) (values : List (Option α))
  | tree (freeIdx : Nat) (root : WeightTree (OmtNode α))
  deriving DecidableEq, Repr

/-- The sequence, with the size of its array. -/
structure Omt (α : Type) where
  capacity : Nat
  d : OmtData α
  deriving DecidableEq, Repr

/-- What an operation returns. -/
inductive OmtCode where
  | ok
  | einval
  | keyexist
  | notfound
  deriving DecidableEq, Repr

/-- Read cells of an array, all of which have to be there. -/
def readCells {α : Type} (cells : List (Option α)) (start num : Nat) : Option (List (Option α)) :=
  if start + num ≤ cells.length then some ((cells.drop start).take num) else none

/-- Copy cells into an array, all of which have to fit. -/
def copyCells {α : Type} (cells : List (Option α)) (start : Nat) (from' : List (Option α)) :
    Option (List (Option α)) :=
  if start + from'.length ≤ cells.length then
    some (cells.take start ++ from' ++ cells.drop (start + from'.length))
  else none

/-- The size of an array for a number of values. -/
def newSizeFor (n : Nat) : Nat := if n ≤ 2 then 4 else 2 * n

/-- Take the next node of an array of nodes, which must not be full. -/
def nodeMalloc (capacity freeIdx : Nat) : Option (Nat × Nat) := do
  invariant (freeIdx < capacity)
  return (freeIdx, freeIdx + 1)

/-- Build a tree from values in order, each in a new node. -/
def rebuildFromSortedArray {α : Type} (capacity : Nat) :
    Nat → List α → Nat → Option (WeightTree (OmtNode α) × Nat)
  | 0, _, freeIdx => some (.null, freeIdx)
  | fuel + 1, values, freeIdx =>
    match values[values.length / 2]? with
    | none => some (.null, freeIdx)
    | some value => do
      let (newidx, freeIdx) ← nodeMalloc capacity freeIdx
      let (left, freeIdx) ←
        rebuildFromSortedArray capacity fuel (values.take (values.length / 2)) freeIdx
      let (right, freeIdx) ←
        rebuildFromSortedArray capacity fuel (values.drop (values.length / 2 + 1)) freeIdx
      return (.node values.length left ⟨newidx, value, false, false⟩ right, freeIdx)

namespace Omt

variable {α σ : Type}

/-- An empty array of some capacity. -/
def createInternal (newCapacity : Nat) : Omt α :=
  ⟨newCapacity, .array 0 0 (List.replicate newCapacity none)⟩

/-- How many values there are. -/
def size (omt : Omt α) : Nat :=
  match omt.d with
  | .array _ numValues _ => numValues
  | .tree _ root => root.nweight

/-- Something is marked, as the root tells. -/
def hasMarks (omt : Omt α) : Bool :=
  match omt.d with
  | .tree _ (.node _ _ n _) => n.marksBelow || n.marked
  | _ => false

/-- A sequence with marks must not be changed. -/
def barfIfMarked (supportsMarks : Bool) (omt : Omt α) : Option Unit :=
  invariant (!(supportsMarks && omt.hasMarks))

/-- Make room in the array for a number of values, or give back what is too much. -/
def maybeResizeArray (capacity startIdx numValues : Nat) (values : List (Option α)) (n : Nat) :
    Option (Omt α) :=
  if capacity - startIdx < n ∨ newSizeFor n ≤ capacity / 2 then do
    let old ← readCells values startIdx numValues
    let values ← copyCells (List.replicate (newSizeFor n) none) 0 old
    return ⟨newSizeFor n, .array 0 numValues values⟩
  else some ⟨capacity, .array startIdx numValues values⟩

/-- Become an array. -/
def convertToArray (omt : Omt α) : Option (Omt α) :=
  match omt.d with
  | .array _ _ _ => some omt
  | .tree _ root => do
    let numValues := root.nweight
    let newSize := if 2 * numValues < 4 then 4 else 2 * numValues
    let values ← root.fillArray OmtNode.value 0 (List.replicate newSize none)
    return ⟨newSize, .array 0 numValues values⟩

/-- Become a tree. -/
def convertToTree (omt : Omt α) : Option (Omt α) :=
  match omt.d with
  | .array startIdx numValues values => do
    let newSize := if 2 * numValues < 4 then 4 else 2 * numValues
    let values ← readCells values startIdx numValues
    let values ← values.mapM id
    let (root, freeIdx) ← rebuildFromSortedArray newSize numValues values 0
    return ⟨newSize, .tree freeIdx root⟩
  | .tree _ _ => some omt

/-- With marks a sequence is always a tree. -/
def treeIfMarks (supportsMarks : Bool) (omt : Omt α) : Option (Omt α) :=
  if supportsMarks then omt.convertToTree else some omt

/-- Make room for a number of values. -/
def maybeResizeOrConvert (supportsMarks : Bool) (omt : Omt α) (n : Nat) : Option (Omt α) :=
  match omt.d with
  | .array startIdx numValues values =>
    maybeResizeArray omt.capacity startIdx numValues values n
  | .tree freeIdx root =>
    if newSizeFor n ≤ omt.capacity / 2 ∨ (omt.capacity ≤ freeIdx ∧ root.nweight < n) ∨
        omt.capacity < n then do
      (← omt.convertToArray).treeIfMarks supportsMarks
    else some omt

/-- An empty sequence. -/
def create (supportsMarks : Bool) : Option (Omt α) :=
  (createInternal 2).treeIfMarks supportsMarks

/-- An empty sequence without any memory. -/
def createNoArray (supportsMarks : Bool) : Omt α :=
  if supportsMarks then ⟨0, .tree 0 .null⟩ else createInternal 0

/-- A sequence of given values. -/
def createFromSortedArray (supportsMarks : Bool) (values : List (Option α)) : Option (Omt α) := do
  let cells ← copyCells (List.replicate values.length none) 0 values
  treeIfMarks supportsMarks ⟨values.length, .array 0 values.length cells⟩

/-- Copy the values of a sequence into an array from some cell on. -/
def copyValues (omt : Omt α) (values : List (Option α)) (start : Nat) :
    Option (List (Option α)) :=
  match omt.d with
  | .array startIdx numValues others => do
    let others ← readCells others startIdx numValues
    copyCells values start others
  | .tree _ root => root.fillArray OmtNode.value start values

/-- The memory of a sequence that is merged is stolen when the other one fits behind its values. -/
def mergeLeft (leftomt : Omt α) (rightsize newsize : Nat) :
    Option (Nat × Nat × List (Option α)) :=
  match leftomt.d with
  | .array startIdx numValues values =>
    if rightsize ≤ leftomt.capacity - (startIdx + numValues) then
      some (leftomt.capacity, startIdx, values)
    else do
      let values ← leftomt.copyValues (List.replicate newsize none) 0
      return (newsize, 0, values)
  | .tree _ _ => do
    let values ← leftomt.copyValues (List.replicate newsize none) 0
    return (newsize, 0, values)

/-- Append a sequence to another one. Both are destroyed. -/
def merge (supportsMarks : Bool) (leftomt rightomt : Omt α) : Option (Omt α) := do
  let leftsize := leftomt.size
  let rightsize := rightomt.size
  let (capacity, startIdx, values) ← mergeLeft leftomt rightsize (leftsize + rightsize)
  let values ← rightomt.copyValues values (startIdx + leftsize)
  treeIfMarks supportsMarks ⟨capacity, .array startIdx (leftsize + rightsize) values⟩

/-- A copy of a sequence. -/
def clone (supportsMarks : Bool) (src : Omt α) : Option (Omt α) := do
  let values ← src.copyValues (List.replicate src.size none) 0
  treeIfMarks supportsMarks ⟨src.size, .array 0 src.size values⟩

/-- Move the values from a place on to a new sequence. -/
def splitAt (supportsMarks : Bool) (omt : Omt α) (idx : Nat) :
    Option (OmtCode × Omt α × Option (Omt α)) := do
  omt.barfIfMarked supportsMarks
  if omt.size < idx then return (.einval, omt, none)
  else
    let omt ← omt.convertToArray
    match omt.d with
    | .array startIdx numValues values =>
      let others ← readCells values (startIdx + idx) (numValues - idx)
      let newomt ← createFromSortedArray supportsMarks others
      let omt ← maybeResizeArray omt.capacity startIdx idx values idx
      let omt ← omt.treeIfMarks supportsMarks
      return (.ok, omt, some newomt)
    | .tree _ _ => none

/-- Balance a part of the tree. At the root everything becomes an array. -/
def rebalance (supportsMarks : Bool) (omt : Omt α) (path : List Bool) : Option (Omt α) :=
  match omt.d with
  | .array _ _ _ => none
  | .tree freeIdx root =>
    if path = [] then do
      (← omt.convertToArray).treeIfMarks supportsMarks
    else do
      let root ← root.rebalanceAt path
      return ⟨omt.capacity, .tree freeIdx root⟩

/-- Balance what has to be balanced after a change of the tree. -/
def maybeRebalance (supportsMarks : Bool) (omt : Omt α) : Option (List Bool) → Option (Omt α)
  | some path => omt.rebalance supportsMarks path
  | none => some omt

/-- An array can only grow at its ends, at the first one only when it does not start there. -/
def treeToInsert (omt : Omt α) (idx : Nat) : Option (Omt α) :=
  match omt.d with
  | .array startIdx numValues _ =>
    if idx ≠ numValues ∧ (idx ≠ 0 ∨ startIdx = 0) then omt.convertToTree else some omt
  | .tree _ _ => some omt

/-- Insert a value where there is room for it. -/
def insertWithRoom (supportsMarks : Bool) (omt : Omt α) (value : α) (idx : Nat) : Option (Omt α) :=
  match omt.d with
  | .array startIdx numValues values =>
    if idx = numValues then do
      let values ← WeightTree.writeCell values (startIdx + numValues) value
      return ⟨omt.capacity, .array startIdx (numValues + 1) values⟩
    else do
      let values ← WeightTree.writeCell values (startIdx - 1) value
      return ⟨omt.capacity, .array (startIdx - 1) (numValues + 1) values⟩
  | .tree freeIdx root => do
    let (newidx, freeIdx) ← nodeMalloc omt.capacity freeIdx
    let (root, path) ← root.insertAt ⟨newidx, value, false, false⟩ idx
    maybeRebalance supportsMarks ⟨omt.capacity, .tree freeIdx root⟩ path

/-- Insert a value at a place. -/
def insertAt (supportsMarks : Bool) (omt : Omt α) (value : α) (idx : Nat) :
    Option (OmtCode × Omt α) := do
  omt.barfIfMarked supportsMarks
  if omt.size < idx then return (.einval, omt)
  else
    let omt ← omt.maybeResizeOrConvert supportsMarks (omt.size + 1)
    let omt ← omt.treeToInsert idx
    let omt ← omt.insertWithRoom supportsMarks value idx
    return (.ok, omt)

/-- Replace the value at a place. -/
def setAt (supportsMarks : Bool) (omt : Omt α) (value : α) (idx : Nat) :
    Option (OmtCode × Omt α) := do
  omt.barfIfMarked supportsMarks
  if omt.size ≤ idx then return (.einval, omt)
  else
    match omt.d with
    | .array startIdx numValues values =>
      let values ← WeightTree.writeCell values (startIdx + idx) value
      return (.ok, ⟨omt.capacity, .array startIdx numValues values⟩)
    | .tree freeIdx root =>
      let root ← root.modifyAt (fun n => { n with value := value }) idx
      return (.ok, ⟨omt.capacity, .tree freeIdx root⟩)

/-- An array can only shrink at its ends. -/
def treeToDelete (omt : Omt α) (idx : Nat) : Option (Omt α) :=
  match omt.d with
  | .array _ numValues _ =>
    if idx ≠ 0 ∧ idx ≠ numValues - 1 then omt.convertToTree else some omt
  | .tree _ _ => some omt

/-- Delete the value at a place of an array at its ends, or of a tree. There a node that stays takes
the value of the next one. -/
def deleteInside (supportsMarks : Bool) (omt : Omt α) (idx : Nat) : Option (Omt α) :=
  match omt.d with
  | .array startIdx numValues values =>
    -- The first value can also be the last one.
    if idx ≠ numValues - 1 then some ⟨omt.capacity, .array (startIdx + 1) (numValues - 1) values⟩
    else some ⟨omt.capacity, .array startIdx (numValues - 1) values⟩
  | .tree freeIdx root => do
    let (root, _, path) ← root.deleteAt (fun n next => { n with value := next.value }) idx
    maybeRebalance supportsMarks ⟨omt.capacity, .tree freeIdx root⟩ path

/-- Delete the value at a place. -/
def deleteAt (supportsMarks : Bool) (omt : Omt α) (idx : Nat) : Option (OmtCode × Omt α) := do
  omt.barfIfMarked supportsMarks
  if omt.size ≤ idx then return (.einval, omt)
  else
    let omt ← omt.maybeResizeOrConvert supportsMarks (omt.size - 1)
    let omt ← omt.treeToDelete idx
    let omt ← omt.deleteInside supportsMarks idx
    return (.ok, omt)

/-- Visit cells of an array one after another. -/
def iterateInternalArray (f : α → Nat → σ → Int × σ) (values : List (Option α)) (startIdx : Nat) :
    Nat → Nat → σ → Option (Int × σ)
  | 0, _, extra => some (0, extra)
  | num + 1, i, extra => do
    let cell ← values[startIdx + i]?
    let value ← cell
    let (r, extra) := f value i extra
    if r ≠ 0 then return (r, extra) else iterateInternalArray f values startIdx num (i + 1) extra

/-- Visit the values whose places are in a range, until a visit says to stop. -/
def iterateOnRange (f : α → Nat → σ → Int × σ) (omt : Omt α) (left right : Nat) (extra : σ) :
    Option (OmtCode × Int × σ) := do
  if omt.size < right then return (.einval, 0, extra)
  else if left = right then return (.ok, 0, extra)
  else
    match omt.d with
    | .array startIdx _ values =>
      return (.ok, ← iterateInternalArray f values startIdx (right - left) left extra)
    | .tree _ root => return (.ok, root.iterate (fun n => f n.value) left right 0 extra)

/-- The value at a place. -/
def fetch (omt : Omt α) (idx : Nat) : Option (OmtCode × Option α) := do
  if omt.size ≤ idx then return (.einval, none)
  else
    match omt.d with
    | .array startIdx _ values => return (.ok, some (← (← values[startIdx + idx]?)))
    | .tree _ root => return (.ok, some (← root.fetch idx).value)

/-- The cells of an array as far as they were written. -/
def cell (values : List (Option α)) (i : Nat) : Option α := values[i]?.join

/-- Find the first zero, or the place where it would be. -/
def findZero (h : α → Int) (omt : Omt α) : Option (Option α × Nat) :=
  match omt.d with
  | .array startIdx numValues values => findZeroArray h (cell values) startIdx numValues
  | .tree _ root =>
    let (found, idx) := root.findZero fun n => h n.value
    some (found.map OmtNode.value, idx)

/-- Find the last negative value, or the first positive one. -/
def find (h : α → Int) (direction : Int) (omt : Omt α) : Option (Option (α × Nat)) := do
  invariant (direction ≠ 0)
  match omt.d with
  | .array startIdx numValues values =>
    if direction < 0 then findMinusArray h (cell values) startIdx numValues
    else findPlusArray h (cell values) startIdx numValues
  | .tree _ root =>
    let found := if direction < 0 then root.findMinus fun n => h n.value
      else root.findPlus fun n => h n.value
    return found.map fun (n, idx) => (n.value, idx)

/-- Insert a value where a comparison has its zero, if none is there. -/
def insert (supportsMarks : Bool) (h : α → Int) (omt : Omt α) (value : α) :
    Option (OmtCode × Nat × Omt α) := do
  let (found, idx) ← omt.findZero h
  match found with
  | some _ => return (.keyexist, idx, omt)
  | none =>
    let (r, omt) ← omt.insertAt supportsMarks value idx
    return (r, idx, omt)

end Omt

end Tokuft
