import Tokuft.Blocks.MhsTree

/-! The allocator of the blocks of a file, which keeps the holes between them in a tree. -/

namespace Tokuft

open MhsRbTree (mhsMaxVal Tree Hole)

/-- A block of the file. -/
structure BlockPair where
  offset : Nat
  size : Nat
  deriving DecidableEq, Repr

/-- Where a block ends. -/
def BlockPair.end (pair : BlockPair) : Nat := pair.offset + pair.size

/-- The allocator of a file. -/
structure BlockAllocator where
  reserveAtBeginning : Nat
  alignment : Nat
  nBlocks : Nat
  nBytesInUse : Nat
  tree : Tree
  deriving DecidableEq

namespace BlockAllocator

/-- Put a free part of the file into the tree of holes. -/
def insertHole (alignment : Nat) (tree : Tree) (offset size : Nat) : Option Tree := do
  let hole ← Hole.make offset size
  MhsRbTree.insert alignment tree hole

/-- An allocator without blocks, which has no hole yet. -/
def createInternal (reserveAtBeginning alignment : Nat) : Option BlockAllocator := do
  invariant (512 ≤ alignment ∧ alignment % 512 = 0)
  pure
    { reserveAtBeginning, alignment, nBlocks := 0, nBytesInUse := reserveAtBeginning, tree := .nil }

/-- An allocator without blocks. -/
def create (reserveAtBeginning alignment : Nat) : Option BlockAllocator := do
  let ba ← createInternal reserveAtBeginning alignment
  let tree ← insertHole alignment ba.tree reserveAtBeginning mhsMaxVal
  pure { ba with tree }

/-- The free part in front of the first block, if there is any. -/
def insertFrontHole (ba : BlockAllocator) (first : BlockPair) : Option Tree :=
  if ba.reserveAtBeginning < first.offset then
    insertHole ba.alignment ba.tree ba.reserveAtBeginning (first.offset - ba.reserveAtBeginning)
  else some ba.tree

/-- The size of the free part behind a block, which nothing bounds after the last one. -/
def freeSizeAfter (freeOffset : Nat) : List BlockPair → Option Nat
  | [] => some mhsMaxVal
  | next :: _ => do
    let apart ← MhsRbTree.ouLe freeOffset next.offset
    invariant (apart = true)
    MhsRbTree.ouSub next.offset freeOffset

/-- The free part behind a block, unless the next block follows at once. -/
def insertFreeHole (ba : BlockAllocator) (freeOffset freeSize : Nat) : Option Tree :=
  if freeSize = 0 then some ba.tree else insertHole ba.alignment ba.tree freeOffset freeSize

/-- Count the blocks in order, and put the free part behind each into the tree. -/
def insertBlocks (ba : BlockAllocator) : List BlockPair → Option BlockAllocator
  | [] => some ba
  | pair :: rest => do
    invariant (0 < pair.size)
    invariant (ba.reserveAtBeginning ≤ pair.offset)
    invariant (pair.offset % ba.alignment = 0)
    let freeOffset := (pair.offset + pair.size) % 2 ^ 64
    let freeSize ← freeSizeAfter freeOffset rest
    let tree ← insertFreeHole ba freeOffset freeSize
    insertBlocks { ba with nBytesInUse := ba.nBytesInUse + pair.size, tree } rest

/-- An allocator with the blocks given, in whatever order they come. -/
def createFromBlockPairs (reserveAtBeginning alignment : Nat) (translationPairs : List BlockPair) :
    Option BlockAllocator := do
  let ba ← createInternal reserveAtBeginning alignment
  let ba := { ba with nBlocks := translationPairs.length }
  match translationPairs.insertionSort fun pair other => pair.offset ≤ other.offset with
  -- The source reads the first pair without asking whether there is one.
  | [] => none
  | first :: rest => do
    let tree ← insertFrontHole ba first
    insertBlocks { ba with tree } (first :: rest)

/-- Allocate a block. -/
def allocBlock (ba : BlockAllocator) (size : Nat) : Option (Nat × BlockAllocator) := do
  invariant (0 < size)
  let (offset, tree) ← MhsRbTree.remove ba.alignment ba.tree size
  pure (offset,
    { ba with nBytesInUse := ba.nBytesInUse + size, nBlocks := ba.nBlocks + 1, tree })

/-- Free a block. -/
def freeBlock (ba : BlockAllocator) (pair : BlockPair) : Option BlockAllocator := do
  let tree ← insertHole ba.alignment ba.tree pair.offset pair.size
  pure { ba with nBytesInUse := ba.nBytesInUse - pair.size, nBlocks := ba.nBlocks - 1, tree }

/-- The offset of the last hole. -/
def allocatedLimit (ba : BlockAllocator) : Option Nat :=
  (MhsRbTree.maxNode ba.tree).map fun node => node.hole.offset

end BlockAllocator

/-- An allocator with the blocks that its callers hold. -/
structure AllocatorWorld where
  ba : BlockAllocator
  blocks : List BlockPair

/-- What callers ask of an allocator. -/
inductive AllocatorEvent where
  | alloc (size : Nat)
  | free (pair : BlockPair)
  deriving DecidableEq, Repr

namespace AllocatorWorld

/-- Two blocks that do not overlap. -/
def Apart (pair other : BlockPair) : Prop := pair.end ≤ other.offset ∨ other.end ≤ pair.offset

/-- A block that is aligned, beyond the reserve, and ends at a finite offset. -/
structure Placed (reserve alignment : Nat) (pair : BlockPair) : Prop where
  positive : 0 < pair.size
  beyond : reserve ≤ pair.offset
  aligned : pair.offset % alignment = 0
  finite : pair.end < mhsMaxVal

/-- An allocator that was just created, empty or with disjoint blocks in any order. -/
inductive Created (reserve alignment : Nat) : AllocatorWorld → Prop where
  | empty {ba : BlockAllocator} (finite : reserve < mhsMaxVal)
      (created : BlockAllocator.create reserve alignment = some ba) :
      Created reserve alignment { ba, blocks := [] }
  | fromPairs {ba : BlockAllocator} {pairs : List BlockPair} (nonempty : pairs ≠ [])
      (placed : ∀ pair ∈ pairs, Placed reserve alignment pair) (apart : pairs.Pairwise Apart)
      (created : BlockAllocator.createFromBlockPairs reserve alignment pairs = some ba) :
      Created reserve alignment { ba, blocks := pairs }

/-- Serve a request and note which blocks are held, where callers free only
blocks that they hold. -/
def next (world : AllocatorWorld) : AllocatorEvent → Option AllocatorWorld
  | .alloc size => do
    let (offset, ba) ← world.ba.allocBlock size
    return { ba, blocks := { offset, size } :: world.blocks }
  | .free pair =>
    if pair ∈ world.blocks then do
      let ba ← world.ba.freeBlock pair
      return { ba, blocks := world.blocks.erase pair }
    else none

/-- A request is served and passes every check. -/
def Step (world : AllocatorWorld) (event : AllocatorEvent) (after : AllocatorWorld) : Prop :=
  world.next event = some after

end AllocatorWorld

end Tokuft
