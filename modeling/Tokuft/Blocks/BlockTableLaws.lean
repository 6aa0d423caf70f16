import Tokuft.Blocks.AllocatorExact
import Tokuft.Blocks.BlockTableWorld
import Tokuft.Blocks.TranslationLaws
import Tokuft.Library.SlotTables

/-! The blocks of the three tables of a file are the blocks that its allocator gave out. -/

namespace Tokuft

open Translation SlotTables

/-- The reserve and the alignment of the allocator of a file. -/
abbrev FileAllocator (allocator : AllocatorWorld) : Prop :=
  AllocatorWorld.Good blockAllocatorTotalHeaderReserve blockAllocatorAlignment allocator

/-- A block of an allocator is in no other place of its list. -/
theorem AllocatorWorld.Good.nodup {reserve alignment : Nat} {world : AllocatorWorld}
    (good : Good reserve alignment world) : world.blocks.Nodup := by
  refine List.Pairwise.imp_of_mem ?_ good.apart
  intro pair other member _ apart same
  subst same
  have positive := (good.placed pair member).positive
  simp only [Apart, BlockPair.end] at apart
  omega

/-- Blocks of an allocator with the same offset are the same. -/
theorem AllocatorWorld.Good.eq_of_offset {reserve alignment : Nat} {world : AllocatorWorld}
    (good : Good reserve alignment world) {pair other : BlockPair} (member : pair ∈ world.blocks)
    (elsewhere : other ∈ world.blocks) (same : pair.offset = other.offset) : pair = other := by
  by_contra different
  have symmetric : Std.Symm Apart := ⟨fun _ _ disjoint => disjoint.symm⟩
  have apart := good.apart.forall member elsewhere different
  have positive := (good.placed pair member).positive
  have otherPositive := (good.placed other elsewhere).positive
  simp only [Apart, BlockPair.end] at apart
  omega

/-- The block of a block number in a table that may be missing. -/
def Translation.blockAtOf (t : Option Translation) (b : Nat) : Option BlockPair :=
  t.bind fun t => t.blockAt b

namespace BlockTable

/-- The blocks of the three tables. -/
def table (bt : BlockTable) : TranslationType → Nat → Option BlockPair
  | .current => bt.current.blockAt
  | .inprogress => blockAtOf bt.inprogress
  | .checkpointed => bt.checkpointed.blockAt

/-- The allocator gave out exactly the blocks of the tables, each for one block number. -/
structure Pooled (bt : BlockTable) : Prop where
  allocator : FileAllocator bt.allocator
  blocks : ∀ block, block ∈ bt.allocator.blocks ↔ Referenced bt.table block
  oneSlot : OneSlot bt.table

variable {bt : BlockTable} {b : Nat} {old : Option BlockPair} {changed : TranslationType → Prop}
  [DecidablePred changed] {pair : BlockTranslationPair}

/-- The block of a slot that is emptied is freed when no other table has it there. -/
theorem freeUnless_ok (pooled : bt.Pooled)
    (same : ∀ table, changed table → bt.table table b = old) {first : TranslationType}
    (isChanged : changed first) {pair : BlockTranslationPair} {kept : Bool}
    (isOld : old = if 0 < pair.size then some pair.block else none)
    (isKept : kept = true ↔ old = none ∨ ∃ table, ¬changed table ∧ bt.table table b = old) :
    ∃ allocator freed, (∀ other : BlockTable, other.allocator = bt.allocator →
        other.freeUnless kept pair =
          some { other with allocator, freed := freed ++ other.freed }) ∧ FileAllocator allocator ∧
      (∀ block, block ∈ allocator.blocks ↔ Referenced (rewrite bt.table changed b none) block) ∧
      ∀ block ∈ freed, block ∈ bt.allocator.blocks ∧
        ¬Referenced (rewrite bt.table changed b none) block := by
  -- The block is looked for in the tables that keep theirs.
  have left (block : BlockPair) : Referenced (rewrite bt.table changed b none) block ↔
      Referenced bt.table block ∧ (old = some block →
        ∃ table, ¬changed table ∧ bt.table table b = some block) := by
    rw [rewrite_referenced pooled.oneSlot same isChanged]
    simp
  unfold freeUnless
  cases kept with
  | true =>
    refine ⟨bt.allocator, [], fun other same => (by rw [← same]; rfl), pooled.allocator,
      fun block => ?_, fun block member =>
      (by cases member)⟩
    rw [pooled.blocks, left]
    refine ⟨fun referenced => ⟨referenced, fun had => ?_⟩, fun both => both.1⟩
    rcases isKept.mp rfl with none | ⟨table, outside, there⟩
    · rw [had] at none
      cases none
    · exact ⟨table, outside, there.trans had⟩
  | false =>
    have notKept : ¬(old = none ∨ ∃ table, ¬changed table ∧ bt.table table b = old) :=
      fun wrong => by cases isKept.mpr wrong
    have isBlock : old = some pair.block := by
      by_cases positive : 0 < pair.size
      · rw [isOld, if_pos positive]
      · exact absurd (Or.inl (by rw [isOld, if_neg positive])) notKept
    have held : pair.block ∈ bt.allocator.blocks :=
      (pooled.blocks pair.block).mpr ⟨first, b, (same first isChanged).trans isBlock⟩
    obtain ⟨ba, freed, good⟩ := AllocatorWorld.good_free pooled.allocator held
    refine ⟨{ ba, blocks := bt.allocator.blocks.erase pair.block }, [pair.block], ?_, good,
      fun block => ?_, fun block member => ?_⟩
    · intro other same
      have served : bt.allocator.next (.free pair.block) =
          some { ba, blocks := bt.allocator.blocks.erase pair.block } := by
        rw [AllocatorWorld.next, if_pos held, freed]
        rfl
      rw [if_neg (by decide), freeBlock, same, served]
      rfl
    · show block ∈ bt.allocator.blocks.erase pair.block ↔ _
      rw [pooled.allocator.nodup.mem_erase_iff, pooled.blocks, left, isBlock]
      constructor
      · rintro ⟨different, referenced⟩
        exact ⟨referenced, fun had => absurd (Option.some.inj had).symm different⟩
      · rintro ⟨referenced, elsewhere⟩
        refine ⟨fun wrong => ?_, referenced⟩
        subst wrong
        obtain ⟨table, outside, there⟩ := elsewhere rfl
        exact notKept (Or.inr ⟨table, outside, there.trans isBlock.symm⟩)
    · rw [List.mem_singleton.mp member]
      refine ⟨held, fun wrong => ?_⟩
      obtain ⟨table, outside, there⟩ := ((left pair.block).mp wrong).2 isBlock
      exact notKept (Or.inr ⟨table, outside, there.trans isBlock.symm⟩)

/-- A block that is allocated is new, and it is one more of the allocator. -/
theorem allocBlock_ok {allocator : AllocatorWorld} (good : FileAllocator allocator) {size : Nat}
    (positive : 0 < size) (room : AllocatorWorld.limitOf blockAllocatorTotalHeaderReserve
      allocator.blocks + blockAllocatorAlignment + size < 2 ^ 63) :
    ∃ offset ba, allocator.ba.allocBlock size = some (offset, ba) ∧
      FileAllocator { ba, blocks := { offset, size } :: allocator.blocks } ∧
      { offset, size } ∉ allocator.blocks := by
  have exact := good.exact (by decide) (by decide)
  obtain ⟨offset, ba, granted⟩ := exact.allocates size positive (by
    simp only [MhsRbTree.mhsMaxVal]
    omega)
  have after := (AllocatorWorld.good_alloc (by decide) good granted).1
  refine ⟨offset, ba, granted, after, fun member => ?_⟩
  exact (List.nodup_cons.mp after.nodup).1 member

/-- A table that seems to need a block has it, or a link that is the same number as its offset. -/
theorem prevents_iff {t : Option Translation} (ok : ∀ found ∈ t, found.Ok) (pairOk : PairOk pair)
    (positive : 0 < pair.size)
    (unique : ∀ block, blockAtOf t b = some block → block.offset = pair.block.offset →
      block = pair.block) :
    translationPreventsFreeing t b pair = true ↔
      BlockTableWorld.linkIsOffset t b pair.u = true ∨ blockAtOf t b = some pair.block := by
  have start : 0 ≤ pair.u := by
    rcases pairOk with free | empty | ⟨-, start⟩
    · exact absurd free (used_of_pos positive)
    · rw [empty] at positive
      cases positive
    · exact start
  cases t with
  | none => simp [translationPreventsFreeing, BlockTableWorld.linkIsOffset, blockAtOf]
  | some t =>
    have tOk := ok t rfl
    have whole : translationPreventsFreeing (some t) b pair = true ↔
        b < t.smallestNeverUsedBlocknum ∧
          ∃ other, t.blockTranslation[b]? = some other ∧ pair.u = other.u := by
      simp [translationPreventsFreeing, Option.any_eq_true]
    have linked : BlockTableWorld.linkIsOffset (some t) b pair.u = true ↔
        b < t.smallestNeverUsedBlocknum ∧ ∃ other, t.blockTranslation[b]? = some other ∧
          other.size = sizeIsFree ∧ other.u = pair.u := by
      simp [BlockTableWorld.linkIsOffset, Option.any_eq_true]
    rw [whole, linked]
    constructor
    · intro ⟨below, other, here, same⟩
      rcases tOk.pairs here with free | empty | ⟨otherPositive, otherStart⟩
      · exact Or.inl ⟨below, other, here, free, same.symm⟩
      · -- A block number without a block has no offset.
        rw [empty] at same
        rw [same] at start
        cases start
      · refine Or.inr ?_
        have found : blockAtOf (some t) b = some other.block :=
          blockAt_of_pos below here otherPositive
        rw [found, unique other.block found]
        simp [BlockTranslationPair.block, same]
    · rintro (⟨below, other, here, -, same⟩ | found)
      · exact ⟨below, other, here, same.symm⟩
      · obtain ⟨other, below, here, otherPositive, same⟩ := of_blockAt found
        refine ⟨below, other, here, ?_⟩
        rw [pairOk.eq_of_pos positive, (tOk.pairs here).eq_of_pos otherPositive, same]

/-- A table that uses a pair has its block. -/
theorem blockAtOf_of_usesPair {t : Option Translation} (positive : 0 < pair.size)
    (uses : BlockTableWorld.usesPair t b pair = true) :
    blockAtOf t b = some pair.block := by
  cases t with
  | none => cases uses
  | some t =>
    simp only [BlockTableWorld.usesPair, Option.any_some, Bool.and_eq_true, decide_eq_true_eq,
      beq_iff_eq] at uses
    exact blockAt_of_pos uses.1 uses.2 positive

/-- When a block is prevented rightly, one of the two tables that prevent it has it. -/
theorem cannotFree_iff {first second : Option Translation} (firstOk : ∀ t ∈ first, t.Ok)
    (secondOk : ∀ t ∈ second, t.Ok) (pairOk : PairOk pair) (positive : 0 < pair.size)
    (unique : ∀ block, blockAtOf first b = some block ∨ blockAtOf second b = some block →
      block.offset = pair.block.offset → block = pair.block)
    (rightly : BlockTableWorld.PreventedRightly first second b pair) :
    (translationPreventsFreeing first b pair || translationPreventsFreeing second b pair) = true ↔
      blockAtOf first b = some pair.block ∨ blockAtOf second b = some pair.block := by
  -- One table after the other.
  rw [Bool.or_eq_true,
    prevents_iff firstOk pairOk positive fun block here => unique block (Or.inl here),
    prevents_iff secondOk pairOk positive fun block here => unique block (Or.inr here)]
  constructor
  · rintro ((link | here) | (link | here))
    · exact Or.inr (blockAtOf_of_usesPair positive (rightly.1 link))
    · exact Or.inl here
    · exact Or.inl (blockAtOf_of_usesPair positive (rightly.2 link))
    · exact Or.inr here
  · rintro (here | here)
    · exact Or.inl (Or.inr here)
    · exact Or.inr (Or.inr here)

end BlockTable

end Tokuft
