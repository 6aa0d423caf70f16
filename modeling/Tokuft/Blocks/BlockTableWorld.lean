import Tokuft.Blocks.BlockTable
import Tokuft.Blocks.BlockAllocatorLaws
import Tokuft.Library.Runs

/-! The tables of a file in the order in which clients and the checkpointer use them. -/

namespace Tokuft

open Translation

/-- How far a checkpoint is. -/
inductive CheckpointPhase where
  | idle
  | begun
  | written
  | skipped
  deriving DecidableEq, Repr

/-- The tables of a file, with the dirty bits of its header and of the header of a checkpoint. -/
structure BlockTableWorld where
  bt : BlockTable
  dirty : Bool
  checkpointDirty : Bool
  phase : CheckpointPhase

/-- What clients and the checkpointer ask of the tables. -/
inductive BlockTableEvent where
  | allocateBlocknum
  | reallocOnDisk (b size : Nat) (forCheckpoint : Bool)
  | reallocDescriptorOnDisk (size : Nat)
  | freeBlocknum (b : Nat) (forCheckpoint : Bool)
  | freeUnusedBlocknums (root : Nat)
  | noteStartCheckpoint
  | serializeTranslation
  | noteSkippedCheckpoint
  | noteEndCheckpoint
  deriving DecidableEq, Repr

/-- Set the dirty bit of the header in use or of the one that is written. -/
def BlockTableWorld.ftSetDirty (world : BlockTableWorld) (forCheckpoint : Bool) : BlockTableWorld :=
  if forCheckpoint then { world with checkpointDirty := true } else { world with dirty := true }

namespace BlockTableWorld

/-- Let the tables do what is asked. -/
def next (world : BlockTableWorld) : BlockTableEvent → Option BlockTableWorld
  | .allocateBlocknum => do
    let (_, bt) ← world.bt.allocateBlocknum
    return { world with bt }.ftSetDirty false
  | .reallocOnDisk b size forCheckpoint => do
    let (_, bt) ← world.bt.reallocOnDisk b size forCheckpoint
    return { world with bt }.ftSetDirty forCheckpoint
  | .reallocDescriptorOnDisk size => do
    let (_, bt) ← world.bt.reallocDescriptorOnDisk size
    return { world with bt }.ftSetDirty false
  | .freeBlocknum b forCheckpoint => do
    let bt ← world.bt.freeBlocknum b forCheckpoint
    return { world with bt }.ftSetDirty forCheckpoint
  | .freeUnusedBlocknums root => do
    let bt ← world.bt.freeUnusedBlocknums root
    return { world with bt }
  | .noteStartCheckpoint => do
    let bt ← world.bt.noteStartCheckpoint
    return { bt, dirty := false, checkpointDirty := world.dirty, phase := .begun }
  | .serializeTranslation => do
    let (_, bt) ← world.bt.serializeTranslation
    return { world with bt, phase := .written }
  | .noteSkippedCheckpoint => do
    let bt ← world.bt.noteSkippedCheckpoint
    return { world with bt, phase := .skipped }
  | .noteEndCheckpoint => do
    let bt ← world.bt.noteEndCheckpoint
    return { world with bt, phase := .idle }

/-- A block still fits below the greatest offset. -/
def Room (world : BlockTableWorld) (size : Nat) : Prop :=
  AllocatorWorld.limitOf blockAllocatorTotalHeaderReserve world.bt.allocator.blocks +
    blockAllocatorAlignment + size < 2 ^ 63

/-- A block number is in use, and a checkpoint that wants it has not changed or written it yet. -/
def Usable (world : BlockTableWorld) (b : Nat) (forCheckpoint : Bool) : Prop :=
  (∃ pair, world.bt.current.blockTranslation[b]? = some pair ∧ pair.size ≠ sizeIsFree) ∧
    (forCheckpoint = true → world.phase = .begun ∧ ∃ inprogress ∈ world.bt.inprogress,
      inprogress.blockTranslation[b]? = world.bt.current.blockTranslation[b]?)

/-- What may be asked in the order that clients and the checkpointer keep to. -/
def Allowed (world : BlockTableWorld) : BlockTableEvent → Prop
  | .allocateBlocknum => True
  | .reallocOnDisk b size forCheckpoint =>
    reservedBlocknums ≤ b ∧ world.Usable b forCheckpoint ∧ world.Room size
  | .reallocDescriptorOnDisk size => world.Room size
  | .freeBlocknum b forCheckpoint => reservedBlocknums ≤ b ∧ world.Usable b forCheckpoint
  | .freeUnusedBlocknums _ => True
  | .noteStartCheckpoint => world.phase = .idle
  | .serializeTranslation => world.phase = .begun ∧
    ∀ inprogress ∈ world.bt.inprogress, world.Room (calculateSizeOnDisk inprogress)
  -- The header of the checkpoint says that nothing changed since the last one began.
  | .noteSkippedCheckpoint => world.phase = .begun ∧ world.checkpointDirty = false
  | .noteEndCheckpoint => world.phase = .written ∨ world.phase = .skipped

/-- Whether the link of a free block number of a table is the same number as an offset. -/
def linkIsOffset (t : Option Translation) (b : Nat) (offset : Int) : Bool :=
  t.any fun t => decide (b < t.smallestNeverUsedBlocknum) &&
    t.blockTranslation[b]?.any fun pair => pair.size == sizeIsFree && pair.u == offset

/-- Whether a table uses a block for a block number. -/
def usesPair (t : Option Translation) (b : Nat) (pair : BlockTranslationPair) : Bool :=
  t.any fun t => decide (b < t.smallestNeverUsedBlocknum) && t.blockTranslation[b]? == some pair

/-- Where a link is the same number as the offset, another table uses the block anyway. -/
def PreventedRightly (first second : Option Translation) (b : Nat) (pair : BlockTranslationPair) :
    Prop :=
  (linkIsOffset first b pair.u = true → usesPair second b pair = true) ∧
    (linkIsOffset second b pair.u = true → usesPair first b pair = true)

/-- No block is kept because its offset is the same number as the link of a free block number. -/
def Clear (world : BlockTableWorld) : BlockTableEvent → Prop
  | .reallocOnDisk b _ forCheckpoint => ∀ pair ∈ world.bt.current.blockTranslation[b]?,
    0 < pair.size → PreventedRightly (if forCheckpoint then none else world.bt.inprogress)
      (some world.bt.checkpointed) b pair
  | .freeBlocknum b false => ∀ pair ∈ world.bt.current.blockTranslation[b]?,
    0 < pair.size → PreventedRightly world.bt.inprogress (some world.bt.checkpointed) b pair
  -- The block number is about to get the head of the list as its link in the table in progress.
  | .freeBlocknum b true => ∀ pair ∈ world.bt.current.blockTranslation[b]?, 0 < pair.size →
    linkIsOffset (some world.bt.checkpointed) b pair.u = false ∧
      ∀ inprogress ∈ world.bt.inprogress, inprogress.blocknumFreelistHead = pair.u →
        usesPair (some world.bt.checkpointed) b pair = true
  | .noteEndCheckpoint => ∀ b, ∀ pair ∈ world.bt.checkpointed.blockTranslation[b]?,
    0 < pair.size → world.phase = .written →
      linkIsOffset world.bt.inprogress b pair.u = false ∧
        (usesPair world.bt.inprogress b pair = true ∨
          linkIsOffset (some world.bt.current) b pair.u = false)
  | _ => True

instance (world : BlockTableWorld) (size : Nat) : Decidable (world.Room size) :=
  inferInstanceAs (Decidable (_ < _))

instance (world : BlockTableWorld) (b : Nat) (forCheckpoint : Bool) :
    Decidable (world.Usable b forCheckpoint) :=
  inferInstanceAs (Decidable ((∃ pair ∈ world.bt.current.blockTranslation[b]?,
    pair.size ≠ sizeIsFree) ∧ (forCheckpoint = true → world.phase = .begun ∧
      ∃ inprogress ∈ world.bt.inprogress,
        inprogress.blockTranslation[b]? = world.bt.current.blockTranslation[b]?)))

instance (world : BlockTableWorld) (event : BlockTableEvent) : Decidable (world.Allowed event) :=
  match event with
  | .allocateBlocknum | .freeUnusedBlocknums _ => isTrue trivial
  | .reallocOnDisk b size forCheckpoint =>
    inferInstanceAs (Decidable (_ ≤ b ∧ world.Usable b forCheckpoint ∧ world.Room size))
  | .reallocDescriptorOnDisk size => inferInstanceAs (Decidable (world.Room size))
  | .freeBlocknum b forCheckpoint =>
    inferInstanceAs (Decidable (_ ≤ b ∧ world.Usable b forCheckpoint))
  | .noteStartCheckpoint => inferInstanceAs (Decidable (world.phase = _))
  | .serializeTranslation => inferInstanceAs (Decidable (world.phase = _ ∧
      ∀ inprogress ∈ world.bt.inprogress, world.Room (calculateSizeOnDisk inprogress)))
  | .noteSkippedCheckpoint => inferInstanceAs (Decidable (world.phase = _ ∧ _ = _))
  | .noteEndCheckpoint => inferInstanceAs (Decidable (world.phase = _ ∨ world.phase = _))

instance (first second : Option Translation) (b : Nat) (pair : BlockTranslationPair) :
    Decidable (PreventedRightly first second b pair) :=
  inferInstanceAs (Decidable (_ ∧ _))

instance (world : BlockTableWorld) (event : BlockTableEvent) : Decidable (world.Clear event) :=
  match event with
  | .allocateBlocknum | .reallocDescriptorOnDisk _ | .freeUnusedBlocknums _ | .noteStartCheckpoint
  | .serializeTranslation | .noteSkippedCheckpoint => isTrue trivial
  | .reallocOnDisk b _ _ =>
    inferInstanceAs (Decidable (∀ pair ∈ world.bt.current.blockTranslation[b]?, 0 < pair.size →
      PreventedRightly _ _ b pair))
  | .freeBlocknum b false =>
    inferInstanceAs (Decidable (∀ pair ∈ world.bt.current.blockTranslation[b]?, 0 < pair.size →
      PreventedRightly _ _ b pair))
  | .freeBlocknum b true =>
    inferInstanceAs (Decidable (∀ pair ∈ world.bt.current.blockTranslation[b]?, 0 < pair.size →
      _ = false ∧ ∀ inprogress ∈ world.bt.inprogress,
        inprogress.blocknumFreelistHead = pair.u → _ = true))
  | .noteEndCheckpoint =>
    decidable_of_iff (∀ b < world.bt.checkpointed.blockTranslation.length,
      ∀ pair ∈ world.bt.checkpointed.blockTranslation[b]?, 0 < pair.size → world.phase = .written →
        linkIsOffset world.bt.inprogress b pair.u = false ∧
          (usesPair world.bt.inprogress b pair = true ∨
            linkIsOffset (some world.bt.current) b pair.u = false))
      ⟨fun clear b pair here => clear b (List.getElem?_eq_some_iff.mp here).1 pair here,
        fun clear b _ => clear b⟩

/-- What is asked in order is done. -/
def Step (world : BlockTableWorld) (event : BlockTableEvent) (after : BlockTableWorld) : Prop :=
  world.Allowed event ∧ world.next event = some after

/-- What is asked in order is done, and no link is taken for an offset. -/
def ClearStep (world : BlockTableWorld) (event : BlockTableEvent) (after : BlockTableWorld) :
    Prop :=
  world.Clear event ∧ Step world event after

end BlockTableWorld

end Tokuft
