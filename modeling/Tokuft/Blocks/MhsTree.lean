import Tokuft.Basic

/-! The red-black tree of holes, labelled with the greatest hole of each subtree. -/

namespace Tokuft

namespace MhsRbTree

/-- The greatest 64-bit number, which stands for infinity. -/
def mhsMaxVal : Nat := 2 ^ 64 - 1

/-- Addition that absorbs into infinity and stops at an overflow. -/
def ouAdd (value other : Nat) : Option Nat :=
  if value = mhsMaxVal ∨ other = mhsMaxVal then some mhsMaxVal
  else do
    invariant (other ≤ mhsMaxVal - value)
    pure (value + other)

/-- Subtraction of a finite number that leaves infinity alone. -/
def ouSub (value other : Nat) : Option Nat := do
  invariant (other ≠ mhsMaxVal)
  if value = mhsMaxVal then pure value
  else do
    invariant (other ≤ value)
    pure (value - other)

/-- Subtraction in place, which does not look at what is taken from infinity. -/
def ouSubAssign (value other : Nat) : Option Nat :=
  if value = mhsMaxVal then some value else ouSub value other

/-- Whether a number is below another, which two infinite ones may not be asked. -/
def ouLt (value other : Nat) : Option Bool := do
  invariant ¬(value = mhsMaxVal ∧ other = mhsMaxVal)
  pure (decide (value < other))

/-- Whether a number is at most another, which two infinite ones may not be asked. -/
def ouLe (value other : Nat) : Option Bool := do
  invariant ¬(value = mhsMaxVal ∧ other = mhsMaxVal)
  pure (decide (value ≤ other))

/-- A free part of the file, whose end is a number or infinity. -/
structure Hole where
  offset : Nat
  size : Nat
  fits : (ouAdd offset size).isSome
  deriving DecidableEq

/-- Where a hole ends. -/
def Hole.end (hole : Hole) : Nat := (ouAdd hole.offset hole.size).get hole.fits

/-- A hole whose end does not overflow. -/
def Hole.make (offset size : Nat) : Option Hole :=
  if fits : (ouAdd offset size).isSome then some { offset, size, fits } else none

/-- Round up to the alignment, in 64-bit words. -/
def align (alignment value : Nat) : Nat :=
  ((value + alignment - 1) % 2 ^ 64) / alignment * alignment

/-- The room that a hole has from its first aligned offset on. -/
def effectiveSize (alignment : Nat) (hole : Hole) : Nat :=
  let alignedOffset := align alignment hole.offset
  if hole.end < alignedOffset then 0
  else if hole.end = mhsMaxVal then mhsMaxVal
  else hole.end - alignedOffset

/-- The same room with the checks inside the comparison and the difference. -/
def checkedEffectiveSize (alignment : Nat) (hole : Hole) : Option Nat := do
  let alignedOffset := align alignment hole.offset
  if ← ouLt hole.end alignedOffset then pure 0 else ouSub hole.end alignedOffset

/-- The color of a node. -/
inductive EColor where
  | red
  | black
  deriving DecidableEq, Repr

/-- The side of a child. -/
inductive EDirection where
  | left
  | right
  deriving DecidableEq, Repr

/-- The other side. -/
def EDirection.flip : EDirection → EDirection
  | .left => .right
  | .right => .left

/-- The greatest holes of the two subtrees of a node. -/
structure Label where
  left : Nat
  right : Nat
  deriving DecidableEq, Repr

/-- The greatest hole on one side. -/
def Label.on (label : Label) : EDirection → Nat
  | .left => label.left
  | .right => label.right

/-- Set the greatest hole on one side. -/
def Label.set (label : Label) (value : Nat) : EDirection → Label
  | .left => { label with left := value }
  | .right => { label with right := value }

/-- What a node holds beside its children. -/
structure Node where
  color : EColor
  hole : Hole
  label : Label
  deriving DecidableEq

/-- A tree of holes. -/
inductive Tree where
  | nil
  | node (data : Node) (left right : Tree)
  deriving DecidableEq

/-- A node with one child on a side, and another on the other side. -/
def Tree.link (data : Node) (near far : Tree) : EDirection → Tree
  | .left => .node data near far
  | .right => .node data far near

/-- The greatest hole of a subtree, as its root records it. -/
def mhsOf (alignment : Nat) (data : Node) : Nat :=
  max (max data.label.left data.label.right) (effectiveSize alignment data.hole)

/-- The greatest hole of a subtree that may be empty. -/
def mhsOfSubtree (alignment : Nat) : Tree → Nat
  | .nil => 0
  | .node data _ _ => mhsOf alignment data

/-- A node above the one at hand, with the side that one hangs on and what hangs on the other. -/
structure Frame where
  dir : EDirection
  data : Node
  sibling : Tree
  deriving DecidableEq

/-- The nodes above the one at hand, the nearest first. -/
abbrev Path := List Frame

/-- The node above, with a tree below it. -/
def Frame.plug (frame : Frame) (tree : Tree) : Tree :=
  Tree.link frame.data tree frame.sibling frame.dir

/-- The whole tree. -/
def plug (tree : Tree) : Path → Tree
  | [] => tree
  | frame :: rest => plug (frame.plug tree) rest

/-- Record the greatest hole of the side at hand. -/
def Frame.setMhs (frame : Frame) (value : Nat) : Frame :=
  { frame with data := { frame.data with label := frame.data.label.set value frame.dir } }

/-- Change the hole of a node above. -/
def Frame.setHole (frame : Frame) (hole : Hole) : Frame :=
  { frame with data := { frame.data with hole } }

/-- Record a changed greatest hole upwards, until it is recorded already. -/
def recalculateMhs (alignment : Nat) (maxMhs : Nat) : Path → Path
  | [] => []
  | parent :: rest =>
    if parent.data.label.on parent.dir ≠ maxMhs then
      let parent := parent.setMhs maxMhs
      parent :: recalculateMhs alignment (mhsOf alignment parent.data) rest
    else parent :: rest

/-- Rotate the child on the far side to the top, and the top to the side given. -/
def rotate (alignment : Nat) (dir : EDirection) (x : Node) (near : Tree) : Tree → Option Tree
  | .nil => none
  | .node y left right =>
    let (inner, outer) := match dir with
      | .left => (left, right)
      | .right => (right, left)
    let x := { x with label := x.label.set (y.label.on dir) dir.flip }
    let y := { y with label := y.label.set (mhsOf alignment x) dir }
    some (Tree.link y (Tree.link x near inner dir) outer dir)

/-- Rotate the right child of a node to the top. -/
def leftRotate (alignment : Nat) : Tree → Option Tree
  | .nil => none
  | .node x left right => rotate alignment .left x left right

/-- Rotate the left child of a node to the top. -/
def rightRotate (alignment : Nat) : Tree → Option Tree
  | .nil => none
  | .node y left right => rotate alignment .right y right left

/-- The rotation that moves the top to a side. -/
def rotateTo (alignment : Nat) : EDirection → Tree → Option Tree
  | .left => leftRotate alignment
  | .right => rightRotate alignment

/-- Whether a tree has a red root. -/
def isRed : Tree → Bool
  | .nil => false
  | .node data _ _ => data.color = .red

/-- Color the root of a tree. -/
def setColor (color : EColor) : Tree → Tree
  | .nil => .nil
  | .node data left right => .node { data with color } left right

/-- Color a node above. -/
def Frame.setColor (frame : Frame) (color : EColor) : Frame :=
  { frame with data := { frame.data with color } }

/-- The child of a tree on a side. -/
def child (dir : EDirection) : Tree → Tree
  | .nil => .nil
  | .node _ left right => match dir with
    | .left => left
    | .right => right

/-- The node at the root of a tree. -/
def rootOf : Tree → Option Node
  | .nil => none
  | .node data _ _ => some data

/-- Change the child of a tree on a side. -/
def setChild (dir : EDirection) (tree : Tree) : Tree → Tree
  | .nil => .nil
  | .node data left right => match dir with
    | .left => .node data tree right
    | .right => .node data left tree

/-- Move a red node to the side that its parent hangs on. -/
def straighten (alignment : Nat) (dir : EDirection) (node : Tree) (parent : Frame) : Option Tree :=
  if parent.dir ≠ dir then rotateTo alignment dir (parent.plug node) else some (parent.plug node)

/-- Restore the colors above a red node that was put into the tree. -/
def insertFixup (alignment : Nat) : Tree → Path → Option Tree
  | node, [] => some (setColor .black node)
  | node, [parent] =>
    -- The source follows the missing parent of a red root.
    if parent.data.color = .red then none else some (setColor .black (parent.plug node))
  | node, parent :: gparent :: rest =>
    if parent.data.color = .red then
      if isRed gparent.sibling then
        let uncle := setColor .black gparent.sibling
        let gparent := { (gparent.setColor .red) with sibling := uncle }
        insertFixup alignment (gparent.plug ((parent.setColor .black).plug node)) rest
      else do
        let parent ← straighten alignment gparent.dir node parent
        let subtree := (gparent.setColor .red).plug (setColor .black parent)
        -- What is now above the red node is black, so the loop ends.
        let top ← rotateTo alignment gparent.dir.flip subtree
        some (setColor .black (plug top rest))
    else some (setColor .black (plug node (parent :: gparent :: rest)))

/-- What the repair of a removal does next. -/
inductive FixupStep where
  /-- Go on with the parent. -/
  | up (parent : Tree)
  /-- The subtree of the parent is repaired, and the source leaves its loop. -/
  | done (subtree : Tree)

/-- Move a red child of the other one to the far side, where there is none. -/
def straightenOther (alignment : Nat) (dir : EDirection) (other : Tree) : Option Tree :=
  if !isRed (child dir.flip other) then
    let near := setColor .black (child dir other)
    rotateTo alignment dir.flip (setColor .red (setChild dir near other))
  else some other

/-- Repair below a parent whose other child is black. -/
def removeFixupStep (alignment : Nat) (node : Tree) (parent : Frame) : Option FixupStep :=
  let other := parent.sibling
  if !isRed (child parent.dir other) && !isRed (child parent.dir.flip other) then
    -- Both children of the other one are black, so it gives up its color.
    some (.up (Frame.plug { parent with sibling := setColor .red other } node))
  else do
    let other ← straightenOther alignment parent.dir other
    let far := setColor .black (child parent.dir.flip other)
    let other := setColor parent.data.color (setChild parent.dir.flip far other)
    let parent := { (parent.setColor .black) with sibling := other }
    let subtree ← rotateTo alignment parent.dir (parent.plug node)
    some (.done subtree)

/-- Restore the black heights above a subtree that lost a black node. -/
def rawRemoveFixup (alignment : Nat) : Tree → Path → Option Tree
  | node, [] => some (setColor .black node)
  | node, parent :: rest =>
    if isRed node then some (plug (setColor .black node) (parent :: rest))
    else if isRed parent.sibling then do
      -- The red one goes above the parent, which becomes red and gets another sibling.
      let other := setColor .black parent.sibling
      let inner := child parent.dir other
      let top ← rotateTo alignment parent.dir
        (Frame.plug { (parent.setColor .red) with sibling := other } node)
      let data ← rootOf top
      let above : Frame := { dir := parent.dir, data, sibling := child parent.dir.flip top }
      let data ← rootOf (child parent.dir top)
      let step ← removeFixupStep alignment node { dir := parent.dir, data, sibling := inner }
      match step with
      -- The parent is red here, so the loop ends with it.
      | .up parent => some (plug (setColor .black parent) (above :: rest))
      | .done subtree => some (setColor .black (plug subtree (above :: rest)))
    else do
      let _ ← rootOf parent.sibling
      let step ← removeFixupStep alignment node parent
      match step with
      | .up parent => rawRemoveFixup alignment parent rest
      | .done subtree => some (setColor .black (plug subtree rest))

/-- Restore the black heights if the node that went was black. -/
def fixupRemoved (alignment : Nat) (color : EColor) (child : Tree) (path : Path) : Option Tree :=
  if color = .black then rawRemoveFixup alignment child path else some (plug child path)

/-- The leftmost node of a tree, what hangs on its right, and the nodes above it. -/
def leftmost : Node → Tree → Tree → Path → Node × Tree × Path
  | data, .nil, right, path => (data, right, path)
  | data, .node next left inner, right, path =>
    leftmost next left inner ({ dir := .left, data, sibling := right } :: path)

/-- Put a subtree in the place of a node below another. -/
def replaceChild (alignment : Nat) (child : Tree) : Path → Path
  | [] => []
  | parent :: rest =>
    let parent := parent.setMhs (mhsOfSubtree alignment child)
    parent :: recalculateMhs alignment (mhsOf alignment parent.data) rest

/-- Put the next node in order into the place of a node, from below its right child. -/
def replaceNode (alignment : Nat) (node : Node) (left : Tree) (replace : Node) (child : Tree)
    (lower path : Path) : Option Tree :=
  match lower with
  | [] =>
    let data := { replace with
      color := node.color, label := { replace.label with left := node.label.left } }
    let path := recalculateMhs alignment (mhsOf alignment data) path
    fixupRemoved alignment replace.color child ({ dir := .right, data, sibling := left } :: path)
  | parent :: upper =>
    let parent := parent.setMhs replace.label.right
    let frame := { dir := .right, data := node, sibling := left }
    -- The source stops below the parent of the node, which no longer points to it.
    let above := recalculateMhs alignment (mhsOf alignment parent.data) (upper ++ [frame])
    let label := (above.getLast?.getD frame).data.label
    let data := { replace with color := node.color, label }
    let path := recalculateMhs alignment (mhsOf alignment data) path
    fixupRemoved alignment replace.color child
      (parent :: above.dropLast ++ { dir := .right, data, sibling := left } :: path)

/-- Take a node out of the tree. -/
def rawRemove (alignment : Nat) (node : Node) (left right : Tree) (path : Path) : Option Tree :=
  match left, right with
  | .node .., .node data inner outer =>
    let (replace, child, lower) := leftmost data inner outer []
    replaceNode alignment node left replace child lower path
  | .nil, child => fixupRemoved alignment node.color child (replaceChild alignment child path)
  | child, .nil => fixupRemoved alignment node.color child (replaceChild alignment child path)

/-- The path to the place where an offset goes. -/
def descend (offset : Nat) : Tree → Path → Option Path
  | .nil, path => some path
  | .node data left right, path => do
    let below ← ouLt offset data.hole.offset
    if below then descend offset left ({ dir := .left, data, sibling := right } :: path)
    else descend offset right ({ dir := .right, data, sibling := left } :: path)

/-- The nearest node above that hangs the rest on a side. -/
def findTurn (dir : EDirection) : Path → Option (Path × Frame × Path)
  | [] => none
  | frame :: rest =>
    if frame.dir = dir then some ([], frame, rest)
    else (findTurn dir rest).map fun (lower, turn, upper) => (frame :: lower, turn, upper)

/-- Whether a hole that must not reach further ends where another starts. -/
def touches (last start : Nat) : Option Bool := do
  let apart ← ouLt last start
  if apart then pure false
  else do
    invariant (last = start)
    pure true

/-- Whether a new hole touches the ones before and after it. -/
def isNewNodeMergable (pred succ : Option Hole) (pair : Hole) : Option (Bool × Bool) := do
  let leftMerge ← pred.elim (some false) fun pred =>
    (ouAdd pred.size pred.offset).bind fun endOfPred => touches endOfPred pair.offset
  let rightMerge ← succ.elim (some false) fun succ =>
    (ouAdd pair.offset pair.size).bind fun endOfNode => touches endOfNode succ.offset
  pure (leftMerge, rightMerge)

/-- Join a new hole with the ones before and after it, and empty the one after it. -/
def absorbIntoPred (pred succ pair : Hole) : Option (Hole × Hole) := do
  let succSize ← ouAdd succ.size pair.size
  let predSize ← ouAdd pred.size succSize
  let pred ← Hole.make pred.offset predSize
  let succOffset ← ouAdd pair.offset succSize
  let succ ← Hole.make succOffset 0
  pure (pred, succ)

/-- Join a new hole with the ones before and after it, and empty the one before it. -/
def absorbIntoSucc (pred succ pair : Hole) : Option (Hole × Hole) := do
  let predSize ← ouAdd pred.size pair.size
  let succSize ← ouAdd succ.size predSize
  let succ ← Hole.make pred.offset succSize
  let predOffset ← ouAdd pred.offset predSize
  let pred ← Hole.make predOffset 0
  pure (pred, succ)

/-- Join a new hole with the one before it. -/
def growPred (pred pair : Hole) : Option Hole := do
  let size ← ouAdd pred.size pair.size
  Hole.make pred.offset size

/-- Join a new hole with the one after it. -/
def growSucc (succ pair : Hole) : Option Hole := do
  let offset ← ouSubAssign succ.offset pair.size
  let size ← ouAdd succ.size pair.size
  Hole.make offset size

/-- Change the hole of the nearest node above, which has no child on the near side. -/
def growNear (alignment : Nat) (y : Frame) (rest : Path) (hole : Hole) : Tree :=
  let y := y.setHole hole
  plug (y.plug .nil) (recalculateMhs alignment (mhsOf alignment y.data) rest)

/-- Change the hole of a node further above. -/
def growFar (alignment : Nat) (lower : Path) (turn : Frame) (upper : Path) (hole : Hole) : Tree :=
  let turn := turn.setHole hole
  plug .nil (lower ++ turn :: recalculateMhs alignment (mhsOf alignment turn.data) upper)

/-- Take the nearest node above out of the tree, which has no child on the near side. -/
def removeNear (alignment : Nat) (y : Frame) (path : Path) : Option Tree :=
  match y.dir with
  | .left => rawRemove alignment y.data .nil y.sibling path
  | .right => rawRemove alignment y.data y.sibling .nil path

/-- Join a new hole with two others, one of which leaves the tree. -/
def absorbBoth (alignment : Nat) (y : Frame) (lower : Path) (turn : Frame) (upper : Path)
    (near far : Hole) : Option Tree :=
  let y := y.setHole near
  let turn := turn.setHole far
  let path := recalculateMhs alignment (mhsOf alignment y.data) (lower ++ turn :: upper)
  match path.drop lower.length with
  | [] => none
  | turn :: upper =>
    let path := path.take lower.length ++
      turn :: recalculateMhs alignment (mhsOf alignment turn.data) upper
    removeNear alignment y path

/-- Join a new hole with the ones that it touches. -/
def absorbNewNode (alignment : Nat) (y : Frame) (rest : Path) (pair : Hole)
    (leftMerge rightMerge : Bool) : Option Tree :=
  match leftMerge, rightMerge, y.dir with
  | true, true, .left => do
    let (lower, turn, upper) ← findTurn .right rest
    let (pred, succ) ← absorbIntoPred turn.data.hole y.data.hole pair
    absorbBoth alignment y lower turn upper succ pred
  | true, true, .right => do
    let (lower, turn, upper) ← findTurn .left rest
    let (pred, succ) ← absorbIntoSucc y.data.hole turn.data.hole pair
    absorbBoth alignment y lower turn upper pred succ
  | true, false, .left => do
    let (lower, turn, upper) ← findTurn .right rest
    let pred ← growPred turn.data.hole pair
    some (growFar alignment (y :: lower) turn upper pred)
  | true, false, .right => do
    let pred ← growPred y.data.hole pair
    some (growNear alignment y rest pred)
  | false, true, .left => do
    let succ ← growSucc y.data.hole pair
    some (growNear alignment y rest succ)
  | false, true, .right => do
    let (lower, turn, upper) ← findTurn .left rest
    let succ ← growSucc turn.data.hole pair
    some (growFar alignment (y :: lower) turn upper succ)
  | false, false, _ => none

/-- The holes before and after the missing child of a node. -/
def predAndSucc (y : Frame) (rest : Path) : Option Hole × Option Hole :=
  let far := (findTurn y.dir.flip rest).map fun (_, turn, _) => turn.data.hole
  match y.dir with
  | .left => (far, some y.data.hole)
  | .right => (some y.data.hole, far)

/-- Put a hole into the tree, joined with the holes that it touches. -/
def insert (alignment : Nat) (root : Tree) (pair : Hole) : Option Tree := do
  let path ← descend pair.offset root []
  let node : Node := { color := .red, hole := pair, label := { left := 0, right := 0 } }
  match path with
  | [] => insertFixup alignment (.node node .nil .nil) []
  | y :: rest =>
    let (pred, succ) := predAndSucc y rest
    let (leftMerge, rightMerge) ← isNewNodeMergable pred succ pair
    if leftMerge || rightMerge then
      absorbNewNode alignment y rest pair leftMerge rightMerge
    else
      let path := recalculateMhs alignment (mhsOf alignment node) (y :: rest)
      insertFixup alignment (.node node .nil .nil) path

/-- The first node in order that has room, with what is below and above it. -/
def searchFirstFitBySizeHelper (alignment size : Nat) :
    Tree → Path → Option (Node × Tree × Tree × Path)
  | .nil, _ => none
  | .node data left right, path =>
    if size ≤ effectiveSize alignment data.hole then
      if size ≤ data.label.left then
        searchFirstFitBySizeHelper alignment size left
          ({ dir := .left, data, sibling := right } :: path)
      else some (data, left, right, path)
    else if size ≤ data.label.left then
      searchFirstFitBySizeHelper alignment size left
        ({ dir := .left, data, sibling := right } :: path)
    else if size ≤ data.label.right then
      searchFirstFitBySizeHelper alignment size right
        ({ dir := .right, data, sibling := left } :: path)
    else none

/-- The first node in order that has room, if the root says that there is one. -/
def searchFirstFitBySize (alignment size : Nat) (root : Tree) :
    Option (Node × Tree × Tree × Path) :=
  match root with
  | .nil => none
  | .node data _ _ =>
    if effectiveSize alignment data.hole < size ∧ data.label.left < size ∧
        data.label.right < size then none
    else searchFirstFitBySizeHelper alignment size root []

/-- Put a node back, or take it out of the tree when its hole is empty. -/
def keepNonempty (alignment : Nat) (node : Node) (left right : Tree) (path : Path) : Option Tree :=
  if node.hole.size = 0 then rawRemove alignment node left right path
  else some (plug (.node node left right) path)

/-- Cut an aligned part out of the hole of a node. -/
def removeFrom (alignment : Nat) (node : Node) (left right : Tree) (path : Path) (size : Nat) :
    Option (Nat × Tree) := do
  let nOffset := node.hole.offset
  let nSize := node.hole.size
  let answerOffset := align alignment nOffset
  let endOfAnswer ← ouAdd answerOffset size
  let endOfNode ← ouAdd nOffset nSize
  let within ← ouLe endOfAnswer endOfNode
  invariant (within = true)
  if answerOffset = nOffset then do
    let offset ← ouAdd nOffset size
    let rest ← ouSubAssign nSize size
    let hole ← Hole.make offset rest
    let node := { node with hole }
    let path := recalculateMhs alignment (mhsOf alignment node) path
    let tree ← keepNonempty alignment node left right path
    pure (answerOffset, tree)
  else if endOfAnswer = endOfNode then do
    let rest ← ouSubAssign nSize size
    let hole ← Hole.make nOffset rest
    let node := { node with hole }
    let path := recalculateMhs alignment (mhsOf alignment node) path
    pure (answerOffset, plug (.node node left right) path)
  else do
    -- What is left in front stays in the node, and what is left behind is put in anew.
    let front ← ouSub answerOffset nOffset
    let hole ← Hole.make nOffset front
    let node := { node with hole }
    let path := recalculateMhs alignment (mhsOf alignment node) path
    let behind ← ouSub endOfNode endOfAnswer
    let pair ← Hole.make endOfAnswer behind
    let tree ← insert alignment (plug (.node node left right) path) pair
    pure (answerOffset, tree)

/-- Cut room for a block out of the first hole that has it. -/
def remove (alignment : Nat) (root : Tree) (size : Nat) : Option (Nat × Tree) := do
  let (node, left, right, path) ← searchFirstFitBySize alignment size root
  removeFrom alignment node left right path size

/-- The rightmost node of a tree. -/
def maxNode : Tree → Option Node
  | .nil => none
  | .node data _ .nil => some data
  | .node _ _ right => maxNode right

end MhsRbTree

end Tokuft
