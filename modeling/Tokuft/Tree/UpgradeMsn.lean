import Mathlib.Algebra.Order.BigOperators.Ring.Finset
import Tokuft.Library.Runs

/-! The numbers that messages of version 13 get when their nodes are read and upgraded. -/

namespace Tokuft

/-- The smallest number of a message that was written by a later version. -/
def minMsn : Nat := 2 ^ 62

/-- Number messages one after another, where each increment is made before the message is. -/
def takeMsns : Nat → Nat → List Nat × Nat
  | 0, highest => ([], highest)
  | n + 1, highest =>
    let highest := (highest + 1) % 2 ^ 64
    let (later, last) := takeMsns n highest
    (highest :: later, last)

/-- Read a message buffer: the number that is unused afterwards, those of the messages, and the
highest. -/
def deserializeFromRbufV13 (highestUnused nInThisBuffer : Nat) : Nat × List Nat × Nat :=
  let highestUnused := (highestUnused + 2 ^ 64 - nInThisBuffer) % 2 ^ 64
  (highestUnused, takeMsns nInThisBuffer highestUnused)

/-- A child of a node of version 13, and how many messages are buffered for it. -/
structure V13Partition where
  blocknum : Nat
  messages : Nat
  deriving DecidableEq, Repr

/-- A node of version 13. -/
inductive V13Node where
  | leaf
  | internal (partitions : List V13Partition)
  deriving DecidableEq, Repr

/-- The children of a node, which a leaf has none of. -/
def V13Node.partitions : V13Node → List V13Partition
  | .leaf => []
  | .internal partitions => partitions

/-- How many messages some buffers hold. -/
def countMessages (partitions : List V13Partition) : Nat :=
  (partitions.map V13Partition.messages).sum

/-- The children of the node with a block number. -/
def partitionsAt (nodes : List V13Node) (blocknum : Nat) : List V13Partition :=
  (nodes[blocknum]?.map V13Node.partitions).getD []

/-- One node is the parent of another. -/
def IsParent (nodes : List V13Node) (parent child : Nat) : Prop :=
  ∃ partition ∈ partitionsAt nodes parent, partition.blocknum = child

instance (nodes : List V13Node) (parent child : Nat) : Decidable (IsParent nodes parent child) :=
  inferInstanceAs (Decidable (∃ partition ∈ _, _))

/-- The nodes of a dictionary of version 13, by their block numbers. There are not so many messages
that the numbers below those of later versions run out. -/
structure V13Tree where
  nodes : List V13Node
  root : Nat
  oneParent : ∀ {parent other child}, IsParent nodes parent child → IsParent nodes other child →
    parent = other
  rootFree : ∀ parent, ¬ IsParent nodes parent root
  occupied : V13Node.internal [] ∉ nodes
  few : 2 * countMessages (partitionsAt nodes root) +
    ∑ blocknum ∈ Finset.range nodes.length, countMessages (partitionsAt nodes blocknum) < minMsn

/-- A node lies above another. -/
def V13Tree.Ancestor (tree : V13Tree) : Nat → Nat → Prop :=
  Relation.TransGen (IsParent tree.nodes)

/-- How far a node is read: its buffers with the numbers of their messages, or a leaf, and the
highest number applied to it. -/
inductive UpgradeState where
  | unread
  | reading (buffers : List (List Nat)) (highestMsn : Nat)
  | internal (buffers : List (List Nat)) (maxMsnApplied : Nat)
  | leaf (maxMsnApplied : Nat)
  deriving DecidableEq, Repr

/-- The buffers of a node that are read. -/
def UpgradeState.buffers : UpgradeState → List (List Nat)
  | .reading buffers _ | .internal buffers _ => buffers
  | .unread | .leaf _ => []

/-- The numbers of the messages of a node that are read. -/
def UpgradeState.msns (state : UpgradeState) : List Nat := state.buffers.flatten

/-- An internal node is read. -/
def UpgradeState.isInternal : UpgradeState → Bool
  | .internal _ _ => true
  | _ => false

/-- Read the buffer of one child. The highest number of a node is that of its first buffer. -/
def deserializeChildBufferV13 (highestUnused messages : Nat) (buffers : List (List Nat))
    (highestMsn : Nat) : Nat × List (List Nat) × Nat :=
  let (highestUnused, msns, highest) := deserializeFromRbufV13 highestUnused messages
  (highestUnused, buffers ++ [msns], if highestMsn = 0 then highest else highestMsn)

/-- Read the buffers of all children of a node, with nothing else between. -/
def deserializeBuffers : List V13Partition → Nat → List (List Nat) → Nat →
    Nat × List (List Nat) × Nat
  | [], highestUnused, buffers, highestMsn => (highestUnused, buffers, highestMsn)
  | partition :: partitions, highestUnused, buffers, highestMsn =>
    let (highestUnused, buffers, highestMsn) :=
      deserializeChildBufferV13 highestUnused partition.messages buffers highestMsn
    deserializeBuffers partitions highestUnused buffers highestMsn

/-- Read a node by itself: the number that is unused afterwards, and the highest applied to it. -/
def deserializeNode (node : V13Node) (highestUnused : Nat) : Nat × Nat :=
  match node with
  | .leaf => (highestUnused, highestUnused)
  | .internal partitions =>
    let (highestUnused, _, highestMsn) := deserializeBuffers partitions highestUnused [] 0
    (highestUnused, highestMsn)

/-- The numbers of the header, the nodes as far as they are read, and the numbers of the messages
that were injected, newest first. -/
structure UpgradeWorld where
  highestUnusedMsnForUpgrade : Nat
  maxMsnInFt : Nat
  node : Nat → UpgradeState
  injected : List Nat

/-- Open a dictionary of version 13. Its root is read once for the estimates of its subtrees, and
again for the highest number in the tree. -/
def openFt (tree : V13Tree) : UpgradeWorld :=
  let root := (tree.nodes[tree.root]?).getD .leaf
  let highestUnused := minMsn - 1
  let (highestUnused, _) := deserializeNode root highestUnused
  let (highestUnused, maxMsnApplied) := deserializeNode root highestUnused
  { highestUnusedMsnForUpgrade := highestUnused
    maxMsnInFt := maxMsnApplied
    node := fun _ => .unread
    injected := [] }

/-- What can happen next: a node is begun, one more of its buffers is read, it is done, or a message
is injected. -/
inductive UpgradeEvent where
  | read (blocknum : Nat)
  | readBuffer (blocknum : Nat)
  | finish (blocknum : Nat)
  | inject
  deriving DecidableEq, Repr

namespace UpgradeWorld

/-- Change the state of a node. -/
def setNode (world : UpgradeWorld) (blocknum : Nat) (state : UpgradeState) : UpgradeWorld :=
  { world with node := Function.update world.node blocknum state }

/-- A node can be found: it is the root, or it has a parent that is read. -/
def canFind (tree : V13Tree) (world : UpgradeWorld) (blocknum : Nat) : Prop :=
  blocknum = tree.root ∨ ∃ parent, parent < tree.nodes.length ∧
    (world.node parent).isInternal = true ∧ IsParent tree.nodes parent blocknum

instance (tree : V13Tree) (world : UpgradeWorld) (blocknum : Nat) :
    Decidable (world.canFind tree blocknum) :=
  inferInstanceAs (Decidable (_ ∨ ∃ parent, parent < tree.nodes.length ∧ _))

/-- One thing happens. Buffers of different nodes are read in any order. -/
def step (tree : V13Tree) (world : UpgradeWorld) : UpgradeEvent → Option UpgradeWorld
  | .read blocknum =>
    if world.canFind tree blocknum then
      match tree.nodes[blocknum]? with
      -- A leaf is not written only because it was read, so it may be read again.
      | some .leaf => some (world.setNode blocknum (.leaf world.highestUnusedMsnForUpgrade))
      | some (.internal _) =>
        if world.node blocknum = .unread then some (world.setNode blocknum (.reading [] 0))
        else none
      | none => none
    else none
  | .readBuffer blocknum =>
    match world.node blocknum with
    | .reading buffers highestMsn =>
      match (partitionsAt tree.nodes blocknum)[buffers.length]? with
      | some partition =>
        let (highestUnused, buffers, highestMsn) := deserializeChildBufferV13
          world.highestUnusedMsnForUpgrade partition.messages buffers highestMsn
        some { world.setNode blocknum (.reading buffers highestMsn) with
          highestUnusedMsnForUpgrade := highestUnused }
      | none => none
    | _ => none
  | .finish blocknum =>
    match world.node blocknum with
    | .reading buffers highestMsn =>
      if buffers.length = (partitionsAt tree.nodes blocknum).length then
        some (world.setNode blocknum (.internal buffers highestMsn))
      else none
    | _ => none
  | .inject =>
    some { world with
      maxMsnInFt := world.maxMsnInFt + 1
      injected := (world.maxMsnInFt + 1) :: world.injected }

end UpgradeWorld

/-- A run from the opening of a dictionary. -/
def UpgradeRun (tree : V13Tree) : List UpgradeEvent → UpgradeWorld → Prop :=
  Runs (fun before event after => before.step tree event = some after) (openFt tree)

end Tokuft
