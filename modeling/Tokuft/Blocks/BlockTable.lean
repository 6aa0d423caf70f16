import Tokuft.Blocks.BlockAllocator

/-! The tables that say where on disk the blocks of a file and of its checkpoints are. -/

namespace Tokuft

/-- The end of a list of free block numbers. -/
def freelistNull : Int := -1

/-- The size of a block number that is not in use. -/
def sizeIsFree : Int := -1

/-- The offset of a block number that is in use but has no block on disk. -/
def diskoffUnused : Int := -2

/-- The block number of the table itself. -/
abbrev reservedBlocknumTranslation : Nat := 1

/-- The block number of the descriptor. -/
abbrev reservedBlocknumDescriptor : Nat := 2

/-- The first block number that is not reserved. -/
abbrev reservedBlocknums : Nat := 3

/-- The bytes in front of all blocks, which hold two headers. -/
def blockAllocatorTotalHeaderReserve : Nat := 8192

/-- The alignment of blocks. -/
def blockAllocatorAlignment : Nat := 4096

/-- Where a block number is on disk. -/
structure BlockTranslationPair where
  /-- The offset on disk, or the next free block number when this one is free. -/
  u : Int
  size : Int
  deriving DecidableEq, Repr

/-- A block number that has no block on disk. -/
def BlockTranslationPair.unallocated : BlockTranslationPair := { u := diskoffUnused, size := 0 }

/-- A free block number, with the next one. -/
def BlockTranslationPair.free (next : Int) : BlockTranslationPair :=
  { u := next, size := sizeIsFree }

/-- The block of a pair. -/
def BlockTranslationPair.block (pair : BlockTranslationPair) : BlockPair :=
  { offset := pair.u.toNat, size := pair.size.toNat }

/-- What a table is for. -/
inductive TranslationType where
  | current
  | inprogress
  | checkpointed
  deriving DecidableEq, Repr

/-- A table of block numbers. -/
structure Translation where
  type : TranslationType
  smallestNeverUsedBlocknum : Nat
  blocknumFreelistHead : Int
  blockTranslation : List BlockTranslationPair
  deriving DecidableEq

namespace Translation

/-- Change the place of a block number. -/
def setPair (t : Translation) (b : Nat) (pair : BlockTranslationPair) : Translation :=
  { t with blockTranslation := t.blockTranslation.set b pair }

/-- Whether a block number may be freed. -/
def isValidFreeableBlocknum (t : Translation) (b : Nat) : Bool :=
  reservedBlocknums ≤ b && b < t.smallestNeverUsedBlocknum

/-- Copy a table into one that is empty. -/
def copyTranslation (dst : Option Translation) (src : Translation) (newtype : TranslationType) :
    Option Translation := do
  invariant (dst.isNone = true)
  invariant (src.smallestNeverUsedBlocknum ≤ src.blockTranslation.length)
  invariant ((src.type = .current ∧ newtype = .inprogress) ∨
    (src.type = .checkpointed ∧ newtype = .current))
  let pairs := src.blockTranslation.take src.smallestNeverUsedBlocknum
  -- The new table is not yet stored on disk.
  pure {
    type := newtype
    smallestNeverUsedBlocknum := src.smallestNeverUsedBlocknum
    blocknumFreelistHead := src.blocknumFreelistHead
    blockTranslation := pairs.set reservedBlocknumTranslation .unallocated }

/-- The block number behind the last one in use, up to a given one. -/
def usedUpTo (pairs : List BlockTranslationPair) : Nat → Nat
  | 0 => 0
  | b + 1 =>
    if reservedBlocknums < b + 1 ∧ (pairs[b]?.any fun pair => pair.size = sizeIsFree) then
      usedUpTo pairs b
    else b + 1

/-- Link the free block numbers below a given one, the greatest first. -/
def regenerateFreelist : Nat → List BlockTranslationPair → List BlockTranslationPair × Int
  | 0, pairs => (pairs, freelistNull)
  | b + 1, pairs =>
    let (pairs, head) := regenerateFreelist b pairs
    if reservedBlocknums ≤ b ∧ (pairs[b]?.any fun pair => pair.size = sizeIsFree) then
      (pairs.set b (.free head), b)
    else (pairs, head)

/-- Forget the free block numbers behind the last one in use. -/
def maybeOptimizeTranslation (t : Translation) : Translation :=
  let b := usedUpTo t.blockTranslation t.smallestNeverUsedBlocknum
  if b < t.smallestNeverUsedBlocknum then
    let pairs := if t.blockTranslation.length / 4 > b then t.blockTranslation.take (b * 2)
      else t.blockTranslation
    let (pairs, head) := regenerateFreelist b pairs
    { t with smallestNeverUsedBlocknum := b, blocknumFreelistHead := head
             blockTranslation := pairs }
  else t

/-- Whether a table still uses the block that an older pair says. -/
def translationPreventsFreeing (t : Option Translation) (b : Nat) (oldPair : BlockTranslationPair) :
    Bool :=
  t.any fun t => decide (b < t.smallestNeverUsedBlocknum) &&
    t.blockTranslation[b]?.any fun pair => oldPair.u == pair.u

/-- The bytes of a table on disk. -/
def calculateSizeOnDisk (t : Translation) : Nat := 8 + 8 + t.smallestNeverUsedBlocknum * 16 + 4

/-- Make room for one more block number. -/
def maybeExpandTranslation (t : Translation) : Translation :=
  if t.blockTranslation.length ≤ t.smallestNeverUsedBlocknum then
    let newLength := t.smallestNeverUsedBlocknum * 2
    { t with blockTranslation := t.blockTranslation ++
        List.replicate (newLength - t.blockTranslation.length) (.free freelistNull) }
  else t

/-- Take a block number off the list of free ones, or one that was never used. -/
def takeBlocknum (t : Translation) : Option (Nat × Translation) :=
  if t.blocknumFreelistHead = freelistNull then
    let t := maybeExpandTranslation t
    some (t.smallestNeverUsedBlocknum,
      { t with smallestNeverUsedBlocknum := t.smallestNeverUsedBlocknum + 1 })
  else
    let b := t.blocknumFreelistHead.toNat
    t.blockTranslation[b]?.map fun pair => (b, { t with blocknumFreelistHead := pair.u })

/-- Give out a block number. -/
def allocateBlocknum (t : Translation) : Option (Nat × Translation) := do
  let (b, t) ← takeBlocknum t
  let pair ← t.blockTranslation[b]?
  invariant (pair.size = sizeIsFree)
  let t := t.setPair b .unallocated
  invariant (t.isValidFreeableBlocknum b = true)
  pure (b, t)

/-- Put a block number on the list of free ones. -/
def freeBlocknumInTranslation (t : Translation) (b : Nat) : Option Translation := do
  invariant (t.isValidFreeableBlocknum b = true)
  let pair ← t.blockTranslation[b]?
  invariant (pair.size ≠ sizeIsFree)
  pure { t.setPair b (.free t.blocknumFreelistHead) with blocknumFreelistHead := b }

/-- Free the block numbers below a given one that have no block, but for the root. -/
def freeUnusedBlocknums (root : Nat) : Nat → Translation → Option Translation
  | 0, t => some t
  | b + 1, t => do
    let t ← freeUnusedBlocknums root b t
    let pair ← t.blockTranslation[b]?
    if b < reservedBlocknums ∨ b = root ∨ pair.size ≠ 0 then some t
    else do
      invariant (pair.u = diskoffUnused)
      freeBlocknumInTranslation t b

end Translation

open Translation

/-- The tables of a file with the allocator of its blocks. -/
structure BlockTable where
  current : Translation
  inprogress : Option Translation
  checkpointed : Translation
  allocator : AllocatorWorld
  checkpointSkipped : Bool
  /-- The blocks that were given back to the allocator, the latest first. -/
  freed : List BlockPair

namespace BlockTable

/-- Give a block back to the allocator. -/
def freeBlock (bt : BlockTable) (pair : BlockTranslationPair) : Option BlockTable := do
  let allocator ← bt.allocator.next (.free pair.block)
  pure { bt with allocator, freed := pair.block :: bt.freed }

/-- The blocks of a table that have a size. -/
def gatherPairs : List BlockTranslationPair → Option (List BlockPair)
  | [] => some []
  | pair :: rest =>
    if 0 < pair.size then do
      invariant (pair.u ≠ diskoffUnused)
      let pairs ← gatherPairs rest
      some (pair.block :: pairs)
    else gatherPairs rest

/-- The table that a buffer from disk holds, which says where it lies itself. -/
def translationDeserialize (locationOnDisk sizeOnDisk smallest : Nat) (freelistHead : Int)
    (pairs : List BlockTranslationPair) : Option Translation := do
  invariant (locationOnDisk ≠ 0)
  invariant (reservedBlocknums ≤ smallest)
  -- The source reads as many pairs as it found the number of.
  invariant (pairs.length = smallest)
  let t : Translation := {
    type := .checkpointed
    smallestNeverUsedBlocknum := smallest
    blocknumFreelistHead := freelistHead
    blockTranslation := pairs }
  invariant (calculateSizeOnDisk t = sizeOnDisk)
  let pair ← t.blockTranslation[reservedBlocknumTranslation]?
  invariant (pair.size = sizeOnDisk)
  invariant (pair.u = locationOnDisk)
  pure t

/-- The tables of a file that was read from disk. -/
def createFromBuffer (locationOnDisk sizeOnDisk smallest : Nat) (freelistHead : Int)
    (pairs : List BlockTranslationPair) : Option BlockTable := do
  let checkpointed ← translationDeserialize locationOnDisk sizeOnDisk smallest freelistHead pairs
  let current ← copyTranslation none checkpointed .current
  let blocks ← gatherPairs checkpointed.blockTranslation
  let ba ← BlockAllocator.createFromBlockPairs blockAllocatorTotalHeaderReserve
    blockAllocatorAlignment blocks
  pure { current, inprogress := none, checkpointed, allocator := { ba, blocks }
         checkpointSkipped := false, freed := [] }

/-- The tables of a new file. -/
def create : Option BlockTable := do
  let checkpointed : Translation := {
    type := .checkpointed
    smallestNeverUsedBlocknum := reservedBlocknums
    blocknumFreelistHead := freelistNull
    blockTranslation := List.replicate reservedBlocknums .unallocated }
  let current ← copyTranslation none checkpointed .current
  let ba ← BlockAllocator.create blockAllocatorTotalHeaderReserve blockAllocatorAlignment
  pure { current, inprogress := none, checkpointed, allocator := { ba, blocks := [] }
         checkpointSkipped := false, freed := [] }

/-- Begin a checkpoint with a copy of the current table. -/
def noteStartCheckpoint (bt : BlockTable) : Option BlockTable := do
  let current := maybeOptimizeTranslation bt.current
  let inprogress ← copyTranslation bt.inprogress current .inprogress
  pure { bt with current, inprogress := some inprogress, checkpointSkipped := false }

/-- Note that the checkpoint has nothing to write. -/
def noteSkippedCheckpoint (bt : BlockTable) : Option BlockTable := do
  invariant (bt.inprogress.isSome = true)
  pure { bt with checkpointSkipped := true }

/-- Give back the blocks of the last checkpoint that the one in progress does not use. -/
def freeCheckpointed (bt : BlockTable) : Nat → List BlockTranslationPair → Option BlockTable
  | _, [] => some bt
  | i, pair :: rest =>
    if 0 < pair.size ∧ translationPreventsFreeing bt.inprogress i pair = false then do
      invariant (translationPreventsFreeing (some bt.current) i pair = false)
      let bt ← bt.freeBlock pair
      freeCheckpointed bt (i + 1) rest
    else freeCheckpointed bt (i + 1) rest

/-- End a checkpoint, which becomes the last one unless it was skipped. -/
def noteEndCheckpoint (bt : BlockTable) : Option BlockTable := do
  let inprogress ← bt.inprogress
  if bt.checkpointSkipped then some { bt with inprogress := none }
  else do
    let pair ← inprogress.blockTranslation[reservedBlocknumTranslation]?
    invariant (0 < pair.size)
    invariant (0 < pair.u)
    let bt ← bt.freeCheckpointed 0 bt.checkpointed.blockTranslation
    some { bt with checkpointed := { inprogress with type := .checkpointed }, inprogress := none }

/-- Give a block back unless a table prevents it. -/
def freeUnless (bt : BlockTable) (kept : Bool) (pair : BlockTranslationPair) : Option BlockTable :=
  if kept then some bt else bt.freeBlock pair

/-- Allocate a block. -/
def allocBlock (bt : BlockTable) (size : Nat) : Option (BlockTranslationPair × BlockTable) := do
  let (offset, ba) ← bt.allocator.ba.allocBlock size
  let allocator := { ba, blocks := { offset, size } :: bt.allocator.blocks }
  pure ({ u := offset, size }, { bt with allocator })

/-- Allocate a block unless it is empty. -/
def allocUnlessEmpty (bt : BlockTable) (size : Nat) : Option (BlockTranslationPair × BlockTable) :=
  if 0 < size then bt.allocBlock size else some (.unallocated, bt)

/-- Write a pair into the table in progress too, when this is for the checkpoint. -/
def setInprogress (bt : BlockTable) (b : Nat) (pair : BlockTranslationPair)
    (forCheckpoint : Bool) : Option BlockTable :=
  if forCheckpoint then do
    let inprogress ← bt.inprogress
    invariant (b < inprogress.blockTranslation.length)
    some { bt with inprogress := some (inprogress.setPair b pair) }
  else some bt

/-- Give a block number another block, and give its old one back if no table needs it. -/
def reallocOnDiskInternal (bt : BlockTable) (b size : Nat) (forCheckpoint : Bool) :
    Option (Int × BlockTable) := do
  let oldPair ← bt.current.blockTranslation[b]?
  let cannotFree := (!forCheckpoint && translationPreventsFreeing bt.inprogress b oldPair) ||
    translationPreventsFreeing (some bt.checkpointed) b oldPair
  let bt ← bt.freeUnless (cannotFree || oldPair.u == diskoffUnused) oldPair
  let (pair, bt) ← bt.allocUnlessEmpty size
  let bt ← setInprogress { bt with current := bt.current.setPair b pair } b pair forCheckpoint
  pure (pair.u, bt)

/-- Give a block number another block. -/
def reallocOnDisk (bt : BlockTable) (b size : Nat) (forCheckpoint : Bool) :
    Option (Int × BlockTable) := do
  invariant (bt.current.isValidFreeableBlocknum b = true)
  bt.reallocOnDiskInternal b size forCheckpoint

/-- Give the descriptor another block. -/
def reallocDescriptorOnDisk (bt : BlockTable) (size : Nat) : Option (Int × BlockTable) :=
  bt.reallocOnDiskInternal reservedBlocknumDescriptor size false

/-- Allocate room for the table in progress, and tell where it is written. -/
def serializeTranslation (bt : BlockTable) : Option (Int × BlockTable) := do
  let t ← bt.inprogress
  let old ← t.blockTranslation[reservedBlocknumTranslation]?
  invariant (old = .unallocated)
  let (pair, bt) ← bt.allocBlock (calculateSizeOnDisk t)
  invariant (pair.u % 512 = 0)
  pure (pair.u, { bt with inprogress := some (t.setPair reservedBlocknumTranslation pair) })

/-- Give out a block number. -/
def allocateBlocknum (bt : BlockTable) : Option (Nat × BlockTable) := do
  let (b, current) ← bt.current.allocateBlocknum
  pure (b, { bt with current })

/-- Free a block number in the table in progress too, when this is for the checkpoint. -/
def freeInprogress (bt : BlockTable) (b : Nat) (forCheckpoint : Bool) : Option BlockTable :=
  if forCheckpoint then do
    let inprogress ← bt.inprogress
    let inprogress ← inprogress.freeBlocknumInTranslation b
    some { bt with inprogress := some inprogress }
  else some bt

/-- Free a block number, and give its block back if no table needs it. -/
def freeBlocknum (bt : BlockTable) (b : Nat) (forCheckpoint : Bool) : Option BlockTable := do
  let oldPair ← bt.current.blockTranslation[b]?
  let current ← bt.current.freeBlocknumInTranslation b
  let bt ← freeInprogress { bt with current } b forCheckpoint
  if 0 < oldPair.size then
    let cannotFree := translationPreventsFreeing bt.inprogress b oldPair ||
      translationPreventsFreeing (some bt.checkpointed) b oldPair
    bt.freeUnless cannotFree oldPair
  else do
    invariant (oldPair = .unallocated)
    pure bt

/-- Free the block numbers that have no block. -/
def freeUnusedBlocknums (bt : BlockTable) (root : Nat) : Option BlockTable := do
  let current ←
    Translation.freeUnusedBlocknums root bt.current.smallestNeverUsedBlocknum bt.current
  pure { bt with current }

end BlockTable

end Tokuft
