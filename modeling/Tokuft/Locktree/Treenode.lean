import Tokuft.Locktree.Keyrange

/-! The binary tree of locked ranges, which rebalances itself by depth estimates on the way down. -/

namespace Tokuft

/-- A range together with the transaction that locks it. -/
structure RowLock (Key : Type) where
  range : Keyrange Key
  txnid : Nat
  deriving DecidableEq, Repr

/-- A node holds a lock and two child pointers, each with an estimate of its child's depth. -/
inductive Treenode (Key : Type) where
  | nil
  | node (left : Treenode Key) (leftEst : Nat) (lock : RowLock Key) (right : Treenode Key)
      (rightEst : Nat)
  deriving DecidableEq, Repr

namespace Treenode

variable {Key : Type}

/-- The depth of a tree according to the estimates in its root. -/
def depthEstimate : Treenode Key → Nat
  | nil => 0
  | node _ leftEst _ _ rightEst => max leftEst rightEst + 1

/-- Getting a child locked refreshes its estimate, unless there is no child. -/
def refreshed (child : Treenode Key) (est : Nat) : Nat :=
  match child with
  | nil => est
  | child => child.depthEstimate

/-- The locks of a tree from left to right. -/
def locks : Treenode Key → List (RowLock Key)
  | nil => []
  | node left _ lock right _ => left.locks ++ lock :: right.locks

/-- A difference of depths up to this size is left alone. -/
def imbalanceThreshold : Nat := 2

/-- Rotate a node whose left child is too deep, in two steps when that one leans to the right. -/
def rotateRight (lock : RowLock Key) (right : Treenode Key) (rightEst : Nat) :
    Treenode Key → Treenode Key
  | nil => node nil 0 lock right rightEst
  | node childLeft childLeftEst childLock (node left leftEst grandLock grandRight grandRightEst)
      childRightEst =>
    if childLeftEst < childRightEst then
      let child := node childLeft childLeftEst childLock left leftEst
      let this := node grandRight grandRightEst lock right rightEst
      node child child.depthEstimate grandLock this this.depthEstimate
    else
      let this := node (node left leftEst grandLock grandRight grandRightEst) childRightEst lock
        right rightEst
      node childLeft childLeftEst childLock this this.depthEstimate
  | node childLeft childLeftEst childLock nil childRightEst =>
    let this := node nil childRightEst lock right rightEst
    node childLeft childLeftEst childLock this this.depthEstimate

/-- Rotate a node whose right child is too deep, in two steps when that one leans to the left. -/
def rotateLeft (left : Treenode Key) (leftEst : Nat) (lock : RowLock Key) :
    Treenode Key → Treenode Key
  | nil => node left leftEst lock nil 0
  | node (node grandLeft grandLeftEst grandLock right rightEst) childLeftEst childLock childRight
      childRightEst =>
    if childRightEst < childLeftEst then
      let child := node right rightEst childLock childRight childRightEst
      let this := node left leftEst lock grandLeft grandLeftEst
      node this this.depthEstimate grandLock child child.depthEstimate
    else
      let this := node left leftEst lock (node grandLeft grandLeftEst grandLock right rightEst)
        childLeftEst
      node this this.depthEstimate childLock childRight childRightEst
  | node nil childLeftEst childLock childRight childRightEst =>
    let this := node left leftEst lock nil childLeftEst
    node this this.depthEstimate childLock childRight childRightEst

/-- Rotate a node when one child seems much deeper than the other. -/
def maybeRebalance : Treenode Key → Treenode Key
  | nil => nil
  | node left leftEst lock right rightEst =>
    if left.depthEstimate ≠ 0 ∧ imbalanceThreshold + rightEst < leftEst then
      rotateRight lock right rightEst left
    else if right.depthEstimate ≠ 0 ∧ imbalanceThreshold + leftEst < rightEst then
      rotateLeft left leftEst lock right
    else node left leftEst lock right rightEst

/-- The number of nodes in a tree. -/
def size : Treenode Key → Nat
  | nil => 0
  | node left _ _ right _ => left.size + right.size + 1

variable [LinearOrder Key]

/-- Insert a lock beside all others, rebalancing on the way down. -/
def insertFrom : Nat → Treenode Key → RowLock Key → Option (Treenode Key)
  | _, nil, lock => some (node nil 0 lock nil 0)
  -- Every turn descends by one node, so a bound on their number is enough fuel.
  | 0, node .., _ => none
  | fuel + 1, node left leftEst here right rightEst, lock =>
    match lock.range.compare here.range with
    | .lessThan => do
      let child := left.maybeRebalance
      let inserted ← insertFrom fuel child lock
      -- A new child comes with its own estimate, and an old one keeps that from before.
      let est := match child with
        | nil => inserted.depthEstimate
        | child => child.depthEstimate
      return node inserted est here right rightEst
    | .greaterThan => do
      let child := right.maybeRebalance
      let inserted ← insertFrom fuel child lock
      let est := match child with
        | nil => inserted.depthEstimate
        | child => child.depthEstimate
      return node left leftEst here inserted est
    | _ => none

/-- Insert a lock into a tree, or make it the lock of an empty root. -/
def insert (tree : Treenode Key) (lock : RowLock Key) : Option (Treenode Key) :=
  insertFrom tree.size tree lock

omit [LinearOrder Key] in
/-- Detach the rightmost lock below a pointer, with what the pointer then holds. -/
def detachRightmost (left : Treenode Key) (leftEst : Nat) (lock : RowLock Key) :
    Treenode Key → Nat → RowLock Key × Treenode Key × Nat
  | nil, _ => (lock, left, leftEst)
  | node childLeft childLeftEst childLock childRight childRightEst, est =>
    let (last, rest, restEst) := detachRightmost childLeft childLeftEst childLock childRight
      (node childLeft childLeftEst childLock childRight childRightEst).depthEstimate
    (last, node left leftEst lock rest restEst, est)

omit [LinearOrder Key] in
/-- Detach the leftmost lock below a pointer, with what the pointer then holds. -/
def detachLeftmost (lock : RowLock Key) (right : Treenode Key) (rightEst : Nat) :
    Treenode Key → Nat → RowLock Key × Treenode Key × Nat
  | nil, _ => (lock, right, rightEst)
  | node childLeft childLeftEst childLock childRight childRightEst, est =>
    let (first, rest, restEst) := detachLeftmost childLock childRight childRightEst childLeft
      (node childLeft childLeftEst childLock childRight childRightEst).depthEstimate
    (first, node rest restEst lock right rightEst, est)

omit [LinearOrder Key] in
/-- Remove the lock of a root by putting a neighbour of it in its place. -/
def removeRootOfSubtree (left : Treenode Key) (leftEst : Nat) (right : Treenode Key)
    (rightEst : Nat) : Treenode Key :=
  match left, right with
  | nil, nil => nil
  | node childLeft childLeftEst childLock childRight childRightEst, right =>
    let (replacement, left, leftEst) := detachRightmost childLeft childLeftEst childLock childRight
      (node childLeft childLeftEst childLock childRight childRightEst).depthEstimate
    node left leftEst replacement right rightEst
  | nil, node childLeft childLeftEst childLock childRight childRightEst =>
    let (replacement, right, rightEst) := detachLeftmost childLock childRight childRightEst
      childLeft (node childLeft childLeftEst childLock childRight childRightEst).depthEstimate
    node nil leftEst replacement right rightEst

/-- Remove the lock on a range, which has to be in the tree as such. -/
def remove : Treenode Key → Keyrange Key → Option (Treenode Key)
  | nil, _ => none
  | node left leftEst here right rightEst, range =>
    match range.compare here.range with
    | .equals => some (removeRootOfSubtree left leftEst right rightEst)
    | .lessThan => do
      let left ← remove left range
      return node left left.depthEstimate here right rightEst
    | .greaterThan => do
      let right ← remove right range
      return node left leftEst here right right.depthEstimate
    | .overlaps => none

/-- Call a function on the locks that overlap a range, from left to right, until it has enough. -/
def traverseOverlaps {State : Type} (fn : State → RowLock Key → State × Bool)
    (range : Keyrange Key) : Treenode Key → State → Treenode Key × State
  | nil, state => (nil, state)
  | node left leftEst here right rightEst, state =>
    match range.compare here.range with
    -- Nothing else can overlap a range that is in the tree as such.
    | .equals => (node left leftEst here right rightEst, (fn state here).1)
    | .lessThan =>
      let (left', state) := traverseOverlaps fn range left state
      (node left' (left.refreshed leftEst) here right (right.refreshed rightEst), state)
    | .greaterThan =>
      let (right', state) := traverseOverlaps fn range right state
      (node left (left.refreshed leftEst) here right' (right.refreshed rightEst), state)
    | .overlaps =>
      let (left', state) := traverseOverlaps fn range left state
      let (state, keepGoing) := fn state here
      if keepGoing then
        let (right', state) := traverseOverlaps fn range right state
        (node left' (left.refreshed leftEst) here right' (right.refreshed rightEst), state)
      else (node left' (left.refreshed leftEst) here right rightEst, state)

end Treenode

end Tokuft
