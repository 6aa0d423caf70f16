import Tokuft.Node.LeafSplit

/-! Merging two adjacent nodes of a height, or balancing two leaves. -/

namespace Tokuft

/-- A node that is not a leaf, with what it has for each child. -/
structure NonleafNode (Key Child : Type) where
  children : List Child
  pivotkeys : List Key
  maxMsnAppliedToNodeOnDisk : Nat
  deriving DecidableEq, Repr

/-- A node of some height; one that is not a leaf is higher than the number says. -/
inductive Ftnode (Key Child : Type) where
  | leaf (node : LeafNode Key)
  | nonleaf (heightAboveOne : Nat) (node : NonleafNode Key Child)
  deriving DecidableEq, Repr

/-- The largest message number that has been applied to a node. -/
def Ftnode.maxMsn {Key Child : Type} : Ftnode Key Child → Nat
  | .leaf node => node.maxMsnAppliedToNodeOnDisk
  | .nonleaf _ node => node.maxMsnAppliedToNodeOnDisk

/-- Note the largest message number that has been applied to a node. -/
def Ftnode.setMaxMsn {Key Child : Type} (maxMsn : Nat) : Ftnode Key Child → Ftnode Key Child
  | .leaf node => .leaf { node with maxMsnAppliedToNodeOnDisk := maxMsn }
  | .nonleaf height node => .nonleaf height { node with maxMsnAppliedToNodeOnDisk := maxMsn }

/-- Two nodes after a merge, with the key between them unless they are one now. -/
structure Reaction (Node Key : Type) where
  a : Node
  b : Node
  didMerge : Bool
  didRebalance : Bool
  splitk : Option Key
  deriving DecidableEq, Repr

/-- Replace a pivot, or add one at the end. -/
def replacePivotAt {Key : Type} (pivotkeys : List Key) (key : Key) (i : Nat) :
    Option (List Key) :=
  if i < pivotkeys.length then some (pivotkeys.set i key)
  else do
    invariant (i = pivotkeys.length)
    return pivotkeys.insertIdx i key

namespace LeafNode

variable {Key : Type} (sizes : KeySizes Key)

/-- The size of a leaf when it is written, as a number of 32 bits. -/
def serializeFtnodeSize (leaf : LeafNode Key) : Nat :=
  let nChildren := leaf.basements.length
  let header := 8 + 4 + 4 + 4 + 4 + nChildren * 8 + 4
  let info := 8 + 4 + 4 + 4 + 8 + (leaf.pivotkeys.map sizes.key).sum + (nChildren - 1) * 4 + 4
  let partitions := leaf.basements.map fun basement =>
    1 + (4 + 14) + (basement.klpairs.map (klpairDisksize sizes)).sum + 4
  (header + info + partitions.sum) % 2 ^ 32

/-- Move the basement nodes of a leaf behind those of another one. -/
def mergeLeafNodes (a b : LeafNode Key) : Option (LeafNode Key × LeafNode Key) := do
  invariant (0 < a.basements.length)
  invariant (0 < b.basements.length)
  let aLast ← a.basements.getLast?
  let lastchild := a.basements.length - 1
  let emptied := { b with basements := [], pivotkeys := [] }
  if 0 < aLast.klpairs.length then
    -- What used to be the largest key of the one leaf becomes a pivot.
    let final ← aLast.klpairs.getLast?
    let pivotkeys ← replacePivotAt a.pivotkeys final.1 lastchild
    return ({ a with
      basements := a.basements ++ b.basements
      pivotkeys := pivotkeys ++ b.pivotkeys }, emptied)
  else
    -- An empty last basement node has no key for a pivot, so it goes.
    let pivotkeys := if lastchild < a.pivotkeys.length then a.pivotkeys.eraseIdx lastchild
      else a.pivotkeys
    return ({ a with
      basements := a.basements.dropLast ++ b.basements
      pivotkeys := pivotkeys ++ b.pivotkeys }, emptied)

/-- Divide the entries of two leaves evenly. -/
def balanceLeafNodes (a b : LeafNode Key) : Option (LeafNode Key × LeafNode Key × Key) := do
  let (a, b) ← mergeLeafNodes a b
  ftleafSplit sizes a (.existing b) .evenly

/-- What becomes of two leaves. -/
inductive LeafReaction where
  | nothing
  | rebalance
  | merge
  deriving DecidableEq, Repr

/-- What becomes of two leaves follows from their sizes. -/
def leafReaction (nodesize : Nat) (a b : LeafNode Key) : LeafReaction :=
  let sizea := a.serializeFtnodeSize sizes
  let sizeb := b.serializeFtnodeSize sizes
  let numLeafentries := (a.klpairs.length + b.klpairs.length) % 2 ^ 32
  if 1 < numLeafentries ∧ nodesize * 3 % 2 ^ 32 < (sizea + sizeb) * 4 % 2 ^ 32 then
    if nodesize < sizea * 4 % 2 ^ 32 ∧ nodesize < sizeb * 4 % 2 ^ 32 then .nothing
    else .rebalance
  else .merge

/-- Merge two leaves, balance them, or leave them as they are. -/
def maybeMergePinnedLeafNodes (a b : LeafNode Key) (parentSplitk : Key) (nodesize : Nat) :
    Option (Reaction (LeafNode Key) Key) :=
  match leafReaction sizes nodesize a b with
  | .nothing => some ⟨a, b, false, false, some parentSplitk⟩
  | .rebalance => do
    let (a, b, splitk) ← balanceLeafNodes sizes a b
    return ⟨a, b, false, true, some splitk⟩
  | .merge => do
    let (a, b) ← mergeLeafNodes a b
    return ⟨a, b, true, false, none⟩

end LeafNode

section

variable {Key Child : Type}

/-- Move the children of a node behind those of another one. -/
def maybeMergePinnedNonleafNodes (parentSplitk : Key) (a b : NonleafNode Key Child) :
    Option (Reaction (NonleafNode Key Child) Key) := do
  let oldNChildren := a.children.length
  -- A pivot can be inserted at the end, but not behind it.
  invariant (0 < oldNChildren)
  invariant (oldNChildren - 1 ≤ a.pivotkeys.length)
  return {
    a := { a with
      children := a.children ++ b.children
      pivotkeys := a.pivotkeys.insertIdx (oldNChildren - 1) parentSplitk ++ b.pivotkeys }
    b := { b with children := [] }
    didMerge := true
    didRebalance := false
    splitk := none }

/-- Both nodes have the larger message number of the two when they were changed. -/
def finishReaction (msnA msnB : Nat) (reaction : Reaction (Ftnode Key Child) Key) :
    Reaction (Ftnode Key Child) Key :=
  let msnMax := if msnB < msnA then msnA else msnB
  if reaction.didMerge || reaction.didRebalance then
    { reaction with a := reaction.a.setMaxMsn msnMax, b := reaction.b.setMaxMsn msnMax }
  else reaction

/-- A reaction with its nodes as nodes of any height. -/
def Reaction.map {Node Other : Type} (f : Node → Other) (reaction : Reaction Node Key) :
    Reaction Other Key where
  a := f reaction.a
  b := f reaction.b
  didMerge := reaction.didMerge
  didRebalance := reaction.didRebalance
  splitk := reaction.splitk

/-- Merge two nodes, balance them, or leave them as they are. -/
def maybeMergePinnedNodes (sizes : KeySizes Key) (parentSplitk : Key) (nodesize : Nat) :
    Ftnode Key Child → Ftnode Key Child → Option (Reaction (Ftnode Key Child) Key)
  | .leaf a, .leaf b => do
    let reaction ← LeafNode.maybeMergePinnedLeafNodes sizes a b parentSplitk nodesize
    return finishReaction a.maxMsnAppliedToNodeOnDisk b.maxMsnAppliedToNodeOnDisk
      (reaction.map .leaf)
  | .nonleaf height a, .nonleaf heightb b => do
    invariant (height = heightb)
    let reaction ← maybeMergePinnedNonleafNodes parentSplitk a b
    return finishReaction a.maxMsnAppliedToNodeOnDisk b.maxMsnAppliedToNodeOnDisk
      (reaction.map (.nonleaf height))
  | _, _ => none

end

end Tokuft
