import Tokuft.Library.SignSearch
import Tokuft.Node.Leaf
import Tokuft.Search.FtSearch

/-! Estimates of how many keys lie below, between and above two keys. -/

namespace Tokuft

/-- How unsigned numbers of 32 and of 64 bits are subtracted. -/
structure Subtraction where
  sub32 : Nat → Nat → Option Nat
  sub64 : Nat → Nat → Option Nat

/-- Subtraction as it is computed, which wraps. -/
def Subtraction.wrapping : Subtraction where
  sub32 a b := some ((a + 2 ^ 32 - b) % 2 ^ 32)
  sub64 a b := some ((a + 2 ^ 64 - b) % 2 ^ 64)

/-- Subtraction that fails where it would wrap. -/
def Subtraction.checked : Subtraction where
  sub32 a b := if b ≤ a then some (a - b) else none
  sub64 a b := if b ≤ a then some (a - b) else none

/-- The counts, and whether they come from one basement node. -/
structure KeysRange where
  less : Nat
  equalLeft : Nat
  middle : Nat
  equalRight : Nat
  greater : Nat
  singleBasementNode : Bool
  deriving DecidableEq, Repr

/-- All that is counted. -/
def KeysRange.total (range : KeysRange) : Nat :=
  range.less + range.equalLeft + range.middle + range.equalRight + range.greater

variable {Key Entry : Type} [LinearOrder Key] (arith : Subtraction)

/-- Compare two keys. -/
def compareKeys (a b : Key) : Int := if a < b then -1 else if b < a then 1 else 0

/-- The comparison of an entry of a basement node with a key. -/
def keyrangeCompare (key : Key) (klpair : Key × Entry) : Int := compareKeys klpair.1 key

/-- What a query meets when it pins nodes, each known by the way to it: whether it has to give up
its locks and start again, and which partitions of a leaf are in memory. -/
structure KeysrangePins where
  tryAgain : List Nat → Bool
  inMemory : List Nat → Nat → Bool

/-- The child of a node that a query goes to, which is the first one without a key. -/
def leftChildNumber (node : Partitioned Key Entry) : Option Key → Option Nat
  | some key => ftnodeWhichChild node.pivotkeys node.children.length key
  | none => some 0

/-- The child of a node that the right end of a range is in, which is the last one without a key. -/
def rightChildNumber (node : Partitioned Key Entry) : Option Key → Option Nat
  | some key => ftnodeWhichChild node.pivotkeys node.children.length key
  | none => some (node.children.length - 1)

/-- The partitions of a leaf in memory after it is pinned so that one that holds both keys is. -/
def matchAvail (leaf : FtNode Key Entry 0) (keyLeft keyRight : Option Key)
    (inMemory : Nat → Bool) (childnum : Nat) : Bool :=
  inMemory childnum ||
    (leftChildNumber leaf keyLeft == rightChildNumber leaf keyRight &&
      leftChildNumber leaf keyLeft == some childnum)

/-- The partitions of a node in memory after it is pinned, for a leaf perhaps with the one that
holds both keys. -/
def pinAvail (pins : KeysrangePins) (keyLeft keyRight : Option Key) (keymatch : Bool)
    (path : List Nat) : (height : Nat) → FtNode Key Entry height → Nat → Bool
  | 0, leaf =>
    if keymatch then matchAvail leaf keyLeft keyRight (pins.inMemory path) else pins.inMemory path
  | _ + 1, _ => pins.inMemory path

/-- Search a basement node for a key: whether it is there, and where it is or would be. -/
def bnFindZero (bn : List (Key × Entry)) (key : Key) : Option (Bool × Nat) := do
  let (found, idx) ← findZeroArray (keyrangeCompare key) (fun i => bn[i]?) 0 bn.length
  return (found.isSome, idx)

/-- The left end of a range in a basement node, which is before everything without a key. -/
def leftEnd (bn : List (Key × Entry)) : Option Key → Option (Bool × Nat)
  | some key => bnFindZero bn key
  | none => some (false, 0)

/-- The right end of a range in a basement node, which is behind everything without a key or when
the key is in another one. -/
def rightEnd (bn : List (Key × Entry)) : Bool → Option Key → Option (Bool × Nat)
  | true, some key => bnFindZero bn key
  | _, _ => some (false, bn.length)

/-- Count in a basement node that is in memory. A right key is only looked for when it is in the
same basement node. -/
def keysrangeInBasement (bn : List (Key × Entry)) (keyLeft keyRight : Option Key)
    (singleBasement : Bool) : Option KeysRange := do
  let (foundLeft, idxLeft) ← leftEnd bn keyLeft
  let equalLeft := if foundLeft then 1 else 0
  let size := bn.length
  let (foundRight, idxRight) ← rightEnd bn singleBasement keyRight
  let equalRight := if foundRight then 1 else 0
  -- The indexes are subtracted as numbers of 32 bits, and the rest of 64 bits.
  let middle ← arith.sub64 (← arith.sub32 idxRight idxLeft) equalLeft
  let greater ← arith.sub64 (← arith.sub32 size idxRight) equalRight
  return {
    less := idxLeft
    equalLeft := equalLeft
    middle := middle
    equalRight := equalRight
    greater := greater
    singleBasementNode := singleBasement }

/-- Guess where the keys of a range lie in a partition that is not in memory. -/
def keysrangeGuess (keyLeft : Option Key) (estimatedNumRows : Nat) : Option KeysRange := do
  let idxLeft := if keyLeft.isNone then 0 else estimatedNumRows / 2 % 2 ^ 32
  let middle ← arith.sub64 estimatedNumRows idxLeft
  return {
    less := idxLeft
    equalLeft := 0
    middle := middle
    equalRight := 0
    greater := 0
    singleBasementNode := false }

/-- A basement node of a leaf. -/
def leafBasement (leaf : FtNode Key Entry 0) (childnum : Nat) : Option (List (Key × Entry)) :=
  leaf.children[childnum]?

/-- A child of an internal node. -/
def nodeChild {height : Nat} (node : FtNode Key Entry (height + 1)) (childnum : Nat) :
    Option (FtNode Key Entry height) :=
  node.children[childnum]?

/-- Count in one partition of a leaf, or guess when it is not in memory. -/
def keysrangeInLeafPartition (leaf : FtNode Key Entry 0) (avail : Nat → Bool)
    (keyLeft keyRight : Option Key) (leftChildNumber rightChildNumber estimatedNumRows : Nat) :
    Option KeysRange := do
  invariant (keyLeft ≠ none ∨ keyRight = none)
  invariant (leftChildNumber ≤ rightChildNumber)
  let singleBasement := leftChildNumber == rightChildNumber
  invariant (!singleBasement || avail leftChildNumber)
  if avail leftChildNumber then
    let bn ← leafBasement leaf leftChildNumber
    keysrangeInBasement arith bn keyLeft keyRight singleBasement
  else
    invariant (!singleBasement)
    invariant (keyLeft ≠ none ∨ keyRight = none)
    keysrangeGuess arith keyLeft estimatedNumRows

/-- Add the rows of the other children of a node. -/
def KeysRange.addSiblings (range : KeysRange) (rowsPerChild childnum nChildren : Nat) :
    KeysRange :=
  let before := rowsPerChild * childnum
  let after := rowsPerChild * (nChildren - childnum - 1)
  if range.singleBasementNode then
    { range with less := range.less + before, greater := range.greater + after }
  else { range with less := range.less + before, middle := range.middle + after }

/-- Count below a node. The inner result is absent when the query has to start again. -/
def keysrangeInternal (pins : KeysrangePins) (keyLeft keyRight : Option Key) :
    (height : Nat) → FtNode Key Entry height → (Nat → Bool) → Bool → List Nat → Nat →
      Option (Option KeysRange)
  | 0, leaf, avail, mayFindRight, _, estimatedNumRows => do
    let left ← leftChildNumber leaf keyLeft
    -- The number of children is no child.
    let right ← if mayFindRight then rightChildNumber leaf keyRight
      else some leaf.children.length
    let rowsPerChild := estimatedNumRows / leaf.children.length
    let range ← keysrangeInLeafPartition arith leaf avail keyLeft keyRight left right rowsPerChild
    return some (range.addSiblings rowsPerChild left leaf.children.length)
  | height + 1, node, _, mayFindRight, path, estimatedNumRows => do
    let left ← leftChildNumber node keyLeft
    let right ← if mayFindRight then rightChildNumber node keyRight
      else some node.children.length
    let rowsPerChild := estimatedNumRows / node.children.length
    let child ← nodeChild node left
    let childMayFindRight := mayFindRight && left == right
    let path := path ++ [left]
    if pins.tryAgain path then return none
    let avail := pinAvail pins keyLeft keyRight childMayFindRight path height child
    match ← keysrangeInternal pins keyLeft keyRight height child avail childMayFindRight path
      rowsPerChild with
    | none => return none
    | some range => return some (range.addSiblings rowsPerChild left node.children.length)

/-- One try of a query: the tree as it is then, its count of rows, and what the two parts of the
query meet. -/
structure KeysrangeAttempt (Key Entry : Type) where
  height : Nat
  root : FtNode Key Entry height
  inMemoryLogicalRows : Int
  first : KeysrangePins
  second : KeysrangePins

namespace KeysrangeAttempt

/-- The number of rows that the estimate starts from. -/
def numrows (attempt : KeysrangeAttempt Key Entry) : Nat := attempt.inMemoryLogicalRows.toNat

/-- Count for a right key in the answer for a left key alone, whose rest is in the middle. -/
def combine (range other : KeysRange) : Option KeysRange := do
  let middle ←
    if other.equalLeft + other.middle ≤ range.middle then
      arith.sub64 range.middle (other.equalLeft + other.middle)
    else some 0
  return { range with
    middle := middle
    equalRight := other.equalLeft
    greater := other.middle }

/-- One try of a query, with a right key only if there is a left one. -/
def run (attempt : KeysrangeAttempt Key Entry) (keyLeft keyRight : Option Key) :
    Option (Option KeysRange) := do
  let avail := pinAvail attempt.first keyLeft keyRight true [] attempt.height attempt.root
  match ← keysrangeInternal arith attempt.first keyLeft keyRight attempt.height attempt.root avail
    true [] attempt.numrows with
  | none => return none
  | some range =>
    if !range.singleBasementNode && keyRight.isSome then
      invariant (range.equalRight = 0)
      invariant (range.greater = 0)
      match ← keysrangeInternal arith attempt.second keyRight none attempt.height attempt.root
        avail false [] attempt.numrows with
      | none => return none
      | some other =>
        invariant (other.equalRight = 0)
        invariant (other.greater = 0)
        return some (← combine arith range other)
    else
      invariant (keyRight ≠ none ∨ (range.equalRight = 0 ∧ range.greater = 0))
      invariant (keyLeft ≠ none ∨ (range.less = 0 ∧ range.equalLeft = 0))
      return some range

end KeysrangeAttempt

/-- Try until no node has to be waited for. The inner result is absent when all tries end so. -/
def keysrangeFrom (keyLeft keyRight : Option Key) :
    List (KeysrangeAttempt Key Entry) → Option (Option KeysRange)
  | [] => some none
  | attempt :: attempts => do
    match ← attempt.run arith keyLeft keyRight with
    | some range => return some range
    | none => keysrangeFrom keyLeft keyRight attempts

/-- Estimate how many keys lie before, at, between, at and after two keys. -/
def keysrange (attempts : List (KeysrangeAttempt Key Entry)) (keyLeft keyRight : Option Key) :
    Option (Option KeysRange) :=
  match keyLeft, keyRight with
  | none, some key => do
    -- The keys are swapped, and the counts with them.
    match ← keysrangeFrom arith (some key) none attempts with
    | none => return none
    | some range =>
      invariant (range.equalRight = 0)
      invariant (range.greater = 0)
      return some { range with
        less := 0, equalLeft := 0, middle := range.less, equalRight := range.equalLeft,
        greater := range.middle }
  | keyLeft, keyRight => keysrangeFrom arith keyLeft keyRight attempts

end Tokuft
