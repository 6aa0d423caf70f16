import Tokuft.Blocks.BlockTableSteps

/-! Tables that are new, read from disk, or left by a checkpoint that ends are in order. -/

namespace Tokuft

open Translation SlotTables

namespace BlockTable

/-- The end of a checkpoint has come to a block number of the last checkpoint. -/
structure Ending (bt : BlockTable) (i : Nat) : Prop where
  pooled : bt.Pooled
  current : bt.current.Ok
  inprogress : ∀ t ∈ bt.inprogress, t.Ok
  checkpointed : bt.checkpointed.Ok
  emptied : ∀ slot, slot < i → bt.table .checkpointed slot = none
  carried : ∀ slot block, bt.table .current slot = some block →
    bt.table .checkpointed slot = some block → bt.table .inprogress slot = some block
  clear : ∀ slot, ∀ pair ∈ bt.checkpointed.blockTranslation[slot]?, 0 < pair.size →
    BlockTableWorld.linkIsOffset bt.inprogress slot pair.u = false ∧
      (BlockTableWorld.usesPair bt.inprogress slot pair = true ∨
        BlockTableWorld.linkIsOffset (some bt.current) slot pair.u = false)

variable {bt : BlockTable} {i : Nat}

/-- A table in use or in progress prevents a block from being freed when it has the block. -/
theorem Ending.prevents_iff (ending : Ending bt i) {pair : BlockTranslationPair}
    {t : Option Translation} {kind : TranslationType}
    (here : bt.checkpointed.blockTranslation[i]? = some pair) (positive : 0 < pair.size)
    (ok : ∀ found ∈ t, found.Ok) (same : ∀ slot, blockAtOf t slot = bt.table kind slot)
    (noLink : BlockTableWorld.linkIsOffset t i pair.u = false) :
    translationPreventsFreeing t i pair = true ↔ bt.table kind i = some pair.block := by
  -- The same offset means the same block.
  have pooled := ending.pooled
  have mine : bt.table .checkpointed i = some pair.block :=
    blockAt_of_pos (ending.checkpointed.below here (used_of_pos positive)) here positive
  rw [BlockTable.prevents_iff ok (ending.checkpointed.pairs here) positive, noLink, same]
  · simp
  · intro block there
    rw [same] at there
    exact pooled.allocator.eq_of_offset ((pooled.blocks block).mpr ⟨kind, i, there⟩)
      ((pooled.blocks pair.block).mpr ⟨.checkpointed, i, mine⟩)

/-- The end of a checkpoint goes on when the block number at hand has no block any more. -/
theorem Ending.next (ending : Ending bt i) {other : BlockTable} (pooled : other.Pooled)
    (current : other.current = bt.current) (inprogress : other.inprogress = bt.inprogress)
    (ok : other.checkpointed.Ok)
    (tables : other.table = rewrite bt.table (· = .checkpointed) i none)
    (pairs : ∀ (slot : Nat) (pair : BlockTranslationPair),
      other.checkpointed.blockTranslation[slot]? = some pair → 0 < pair.size →
      bt.checkpointed.blockTranslation[slot]? = some pair) : Ending other (i + 1) := by
  -- No table but the last checkpoint has changed.
  have fewer {slot : Nat} {block : BlockPair}
      (there : other.table .checkpointed slot = some block) :
      slot ≠ i ∧ bt.table .checkpointed slot = some block := by
    rw [tables, rewrite] at there
    split at there
    · cases there
    · rename_i outside
      exact ⟨fun wrong => outside ⟨rfl, wrong⟩, there⟩
  refine ⟨pooled, by rw [current]; exact ending.current,
    by rw [inprogress]; exact ending.inprogress,
    ok, fun slot early => ?_, fun slot block inCurrent inChecked => ?_,
    fun slot pair here positive => ?_⟩
  · cases found : other.table .checkpointed slot with
    | none => rfl
    | some block =>
      obtain ⟨different, there⟩ := fewer found
      rw [ending.emptied slot (by omega)] at there
      cases there
  · rw [show other.table .current = bt.table .current by
      show other.current.blockAt = _
      rw [current]
      rfl] at inCurrent
    rw [show other.table .inprogress = bt.table .inprogress by
      show blockAtOf other.inprogress = _
      rw [inprogress]
      rfl]
    exact ending.carried slot block inCurrent (fewer inChecked).2
  · rw [current, inprogress]
    exact ending.clear slot pair (pairs slot pair here positive) positive

/-- The block at hand is given back when neither other table has it, and the end goes on. -/
theorem Ending.free (ending : Ending bt i) {pair : BlockTranslationPair}
    (here : bt.checkpointed.blockTranslation[i]? = some pair) (positive : 0 < pair.size) :
    ∃ allocator freed, (∀ other : BlockTable, other.allocator = bt.allocator →
        other.freeUnless (translationPreventsFreeing bt.inprogress i pair) pair =
          some { other with allocator, freed := freed ++ other.freed }) ∧
      (translationPreventsFreeing bt.inprogress i pair = false →
        translationPreventsFreeing (some bt.current) i pair = false) ∧
      Ending { bt with checkpointed := bt.checkpointed.setPair i .unallocated, allocator } (i + 1) ∧
      (∀ block ∈ allocator.blocks, block ∈ bt.allocator.blocks) ∧
      ∀ block ∈ freed, block ∈ bt.allocator.blocks ∧ ∀ slot,
        bt.table .current slot ≠ some block ∧ bt.table .inprogress slot ≠ some block := by
  have pooled := ending.pooled
  have used := used_of_pos positive
  have below := ending.checkpointed.below here used
  have inside := (List.getElem?_eq_some_iff.mp here).1
  have mine : bt.table .checkpointed i = some pair.block := blockAt_of_pos below here positive
  obtain ⟨noLink, notCurrent⟩ := ending.clear i pair here positive
  have prevented := ending.prevents_iff here positive ending.inprogress
    (fun slot => (rfl : _ = bt.table .inprogress slot)) noLink
  have kept : translationPreventsFreeing bt.inprogress i pair = true ↔ some pair.block = none ∨
      ∃ kind, ¬kind = TranslationType.checkpointed ∧ bt.table kind i = some pair.block := by
    rw [prevented]
    constructor
    · intro there
      exact Or.inr ⟨.inprogress, by decide, there⟩
    · rintro (none | ⟨kind, outside, there⟩)
      · cases none
      · cases kind with
        | current => exact ending.carried i pair.block there mine
        | inprogress => exact there
        | checkpointed => exact absurd rfl outside
  obtain ⟨allocator, freed, released, allocatorOk, pool, gone⟩ :=
    @freeUnless_ok bt i (some pair.block) (· = .checkpointed) _ pooled
      (fun kind isChecked => by rw [isChecked]; exact mine) .checkpointed rfl pair
      (translationPreventsFreeing bt.inprogress i pair) (by rw [if_pos positive]) kept
  let left : BlockTable := { bt with
    checkpointed := bt.checkpointed.setPair i .unallocated
    allocator }
  have tables : left.table = rewrite bt.table (· = .checkpointed) i none := by
    funext kind slot
    cases kind with
    | current => rfl
    | inprogress => rfl
    | checkpointed =>
      show (bt.checkpointed.setPair i .unallocated).blockAt slot = _
      rw [blockAt_setPair ending.checkpointed below, rewrite]
      simp only [true_and]
      rfl
  have leftPooled : left.Pooled := by
    refine ⟨allocatorOk, fun block => ?_, ?_⟩
    · rw [tables]
      exact pool block
    · rw [tables]
      exact rewrite_oneSlot pooled.oneSlot fun block wrong => by cases wrong
  have leftOk := ending.checkpointed.setPair here used (Or.inr (Or.inl rfl)) (by decide)
  refine ⟨allocator, freed, released, fun notNext => ?_,
    ending.next leftPooled rfl rfl leftOk tables fun slot other there otherPositive => ?_,
    fun block member => ?_, fun block member => ?_⟩
  · -- The block is not in the table in progress, so it is not in use either.
    rcases notCurrent with uses | noLinkHere
    · rw [prevented.mpr (blockAtOf_of_usesPair positive uses)] at notNext
      cases notNext
    · have decides := ending.prevents_iff here positive
        (fun t member => Option.some.inj member ▸ ending.current)
        (fun slot => (rfl : _ = bt.table .current slot)) noLinkHere
      cases prevents : translationPreventsFreeing (some bt.current) i pair with
      | false => rfl
      | true =>
        rw [prevented.mpr (ending.carried i pair.block (decides.mp prevents) mine)] at notNext
        cases notNext
  · have shape : left.checkpointed.blockTranslation =
        bt.checkpointed.blockTranslation.set i .unallocated := rfl
    by_cases isSlot : i = slot
    · rw [← isSlot, shape, List.getElem?_set_self inside] at there
      rw [← Option.some.inj there] at otherPositive
      cases otherPositive
    · rwa [shape, List.getElem?_set_ne isSlot] at there
  · obtain ⟨kind, slot, there⟩ := (pool block).mp member
    rw [rewrite] at there
    split at there
    · cases there
    · exact (pooled.blocks block).mpr ⟨kind, slot, there⟩
  · obtain ⟨held, unused⟩ := gone block member
    refine ⟨held, fun slot => ⟨fun wrong => ?_, fun wrong => ?_⟩⟩
    · exact unused ⟨.current, slot, wrong⟩
    · exact unused ⟨.inprogress, slot, wrong⟩

/-- The blocks that only the last checkpoint still has are given back, whichever they are. -/
theorem freeCheckpointed_ok (rest : List BlockTranslationPair) :
    ∀ {bt : BlockTable} {i : Nat}, Ending bt i → bt.checkpointed.blockTranslation.drop i = rest →
      ∃ allocator freed, (∀ other : BlockTable, other.allocator = bt.allocator →
          other.current = bt.current → other.inprogress = bt.inprogress →
          other.freeCheckpointed i rest =
            some { other with allocator, freed := freed ++ other.freed }) ∧
        FileAllocator allocator ∧
        (∀ block, block ∈ allocator.blocks ↔
          ∃ slot, bt.table .current slot = some block ∨ bt.table .inprogress slot = some block) ∧
        ∀ block ∈ freed, block ∈ bt.allocator.blocks ∧ ∀ slot,
          bt.table .current slot ≠ some block ∧ bt.table .inprogress slot ≠ some block := by
  induction rest with
  | nil =>
    intro bt i ending dropped
    refine ⟨bt.allocator, [], fun other same _ _ => ?_, ending.pooled.allocator, fun block => ?_,
      fun block wrong => by cases wrong⟩
    · rw [freeCheckpointed, ← same]
      rfl
    · -- Every block number of the last checkpoint was looked at, so its blocks are gone.
      rw [ending.pooled.blocks]
      constructor
      · intro ⟨kind, slot, there⟩
        cases kind with
        | current => exact ⟨slot, Or.inl there⟩
        | inprogress => exact ⟨slot, Or.inr there⟩
        | checkpointed =>
          have length := List.drop_eq_nil_iff.mp dropped
          have short := ending.checkpointed.short
          obtain ⟨-, below, -⟩ := of_blockAt there
          rw [ending.emptied slot (by omega)] at there
          cases there
      · rintro ⟨slot, there | there⟩
        · exact ⟨.current, slot, there⟩
        · exact ⟨.inprogress, slot, there⟩
  | cons pair rest ih =>
    intro bt i ending dropped
    have here : bt.checkpointed.blockTranslation[i]? = some pair := by
      have head := congrArg List.head? dropped
      rwa [List.head?_drop, List.head?_cons] at head
    have behind : bt.checkpointed.blockTranslation.drop (i + 1) = rest := by
      rw [← List.tail_drop, dropped, List.tail_cons]
    by_cases positive : 0 < pair.size
    · obtain ⟨allocator, freed, released, notCurrent, next, fewer, gone⟩ :=
        ending.free here positive
      obtain ⟨last, more, goes, lastOk, lastPool, moreGone⟩ := ih next (by
        show (bt.checkpointed.blockTranslation.set i .unallocated).drop (i + 1) = rest
        rw [List.drop_set_of_lt (Nat.lt_succ_self i)]
        exact behind)
      refine ⟨last, more ++ freed, fun other sameAllocator sameCurrent sameNext => ?_, lastOk,
        lastPool, fun block member => ?_⟩
      · have step := released other sameAllocator
        have others := goes { other with allocator, freed := freed ++ other.freed } rfl sameCurrent
          sameNext
        rw [freeCheckpointed, List.append_assoc]
        cases prevents : translationPreventsFreeing bt.inprogress i pair with
        | true =>
          rw [prevents, freeUnless, if_pos rfl] at step
          rw [if_neg fun wrong => by
            rw [sameNext, prevents] at wrong
            cases wrong.2]
          exact Eq.trans (by rw [← Option.some.inj step]) others
        | false =>
          rw [prevents, freeUnless, if_neg (by decide)] at step
          rw [if_pos ⟨positive, by rw [sameNext, prevents]⟩,
            invariant_of (by rw [sameCurrent]; exact notCurrent prevents), step]
          exact others
      · rcases List.mem_append.mp member with inMore | inFreed
        · obtain ⟨held, unused⟩ := moreGone block inMore
          exact ⟨fewer block held, unused⟩
        · exact gone block inFreed
    · -- A block number without a block is passed.
      have notMine : bt.table .checkpointed i = none := by
        cases found : bt.table .checkpointed i with
        | none => rfl
        | some block =>
          obtain ⟨other, -, there, otherPositive, -⟩ := of_blockAt found
          rw [here] at there
          exact absurd (Option.some.inj there ▸ otherPositive) positive
      have tables : bt.table = rewrite bt.table (· = .checkpointed) i none := by
        funext kind slot
        rw [rewrite]
        split
        · rename_i both
          rw [both.1, both.2, notMine]
        · rfl
      obtain ⟨last, more, goes, lastOk, lastPool, moreGone⟩ := ih (ending.next ending.pooled rfl rfl
        ending.checkpointed tables fun slot pair there _ => there) behind
      refine ⟨last, more, fun other sameAllocator sameCurrent sameNext => ?_, lastOk, lastPool,
        moreGone⟩
      rw [freeCheckpointed, if_neg fun wrong => positive wrong.1]
      exact goes other sameAllocator sameCurrent sameNext

end BlockTable

namespace BlockTableWorld

variable {world : BlockTableWorld}

/-- A checkpoint that was skipped leaves the last one as it is. -/
theorem endSkipped_ok (good : Good world) (isSkipped : world.phase = .skipped) :
    ∃ bt, world.bt.noteEndCheckpoint = some bt ∧ bt.freed = world.bt.freed ∧
      Good { world with bt, phase := .idle } := by
  have notIdle : world.phase ≠ .idle := by rw [isSkipped]; decide
  cases found : world.bt.inprogress with
  | none => exact absurd (good.idle.mpr found) notIdle
  | some t =>
    have pooled := good.pooled
    let bt : BlockTable := { world.bt with inprogress := none }
    have inChecked := good.cleanSkipped (Or.inr isSkipped)
    have noNext (slot : Nat) : bt.table .inprogress slot = none := rfl
    refine ⟨bt, ?_, rfl, ⟨pooled.allocator, fun block => ?_, ?_⟩, good.current,
      (fun _ wrong => by cases wrong), good.checkpointed, good.type, good.unstored,
      ⟨fun _ => rfl, fun _ => rfl⟩, fun wrong => absurd rfl wrong,
      (fun _ _ wrong => by cases wrong),
      (fun wrong => by cases wrong), fun wrong => absurd rfl wrong, ?_,
      fun wrong => absurd rfl wrong, ?_⟩
    · rw [BlockTable.noteEndCheckpoint, found]
      simp only [bind_runs]
      rw [if_pos ((good.skipped notIdle).mpr isSkipped)]
    · rw [show bt.allocator = world.bt.allocator from rfl, pooled.blocks]
      constructor
      · rintro ⟨kind, slot, there⟩
        cases kind with
        | current => exact ⟨.current, slot, there⟩
        -- A block of the skipped checkpoint is one of the last checkpoint.
        | inprogress => exact ⟨.checkpointed, slot, inChecked slot block there⟩
        | checkpointed => exact ⟨.checkpointed, slot, there⟩
      · rintro ⟨kind, slot, there⟩
        cases kind with
        | current => exact ⟨.current, slot, there⟩
        | inprogress =>
          rw [noNext] at there
          cases there
        | checkpointed => exact ⟨.checkpointed, slot, there⟩
    · refine @OneSlot.mono _ _ _ world.bt.table bt.table pooled.oneSlot
        fun kind slot block there => ?_
      cases kind with
      | current => exact ⟨.current, there⟩
      | inprogress => cases there
      | checkpointed => exact ⟨.checkpointed, there⟩
    · intro _ clean slot block inCurrent
      exact inChecked slot block (good.cleanBegun notIdle clean slot block inCurrent)
    · rintro (⟨wrong, -⟩ | wrong) <;> cases wrong

/-- A checkpoint that was written becomes the last one. -/
theorem endWritten_ok (good : Good world) (isWritten : world.phase = .written)
    (clear : world.Clear .noteEndCheckpoint) :
    ∃ bt freed, world.bt.noteEndCheckpoint = some bt ∧
      Done world (fun _ _ => False) { world with bt, phase := .idle } freed := by
  -- The old checkpoint is walked over, and what only it has is freed.
  have notIdle : world.phase ≠ .idle := by rw [isWritten]; decide
  cases found : world.bt.inprogress with
  | none => exact absurd (good.idle.mpr found) notIdle
  | some t =>
    have pooled := good.pooled
    obtain ⟨pair, here, positive, start⟩ := good.written isWritten t found
    have ending : BlockTable.Ending world.bt 0 := ⟨pooled, good.current, good.inprogress,
      good.checkpointed, fun slot wrong => absurd wrong (Nat.not_lt_zero slot),
      good.carried notIdle,
      fun slot pair here positive => clear slot pair here positive isWritten⟩
    obtain ⟨allocator, freed, goes, allocatorOk, pool, gone⟩ :=
      BlockTable.freeCheckpointed_ok _ ending List.drop_zero
    have sameNext (slot : Nat) : world.bt.table .inprogress slot = t.blockAt slot := by
      show blockAtOf world.bt.inprogress slot = _
      rw [found]
      rfl
    let bt : BlockTable := { world.bt with
      allocator
      freed := freed ++ world.bt.freed
      checkpointed := { t with type := .checkpointed }
      inprogress := none }
    have ok := good.inprogress t found
    have noNext (slot : Nat) : bt.table .inprogress slot = none := rfl
    have checked (slot : Nat) : bt.table .checkpointed slot = world.bt.table .inprogress slot :=
      (sameNext slot).symm
    have back : ∀ kind slot block, bt.table kind slot = some block →
        world.bt.table .current slot = some block ∨
          world.bt.table .inprogress slot = some block := by
      intro kind slot block there
      cases kind with
      | current => exact Or.inl there
      | inprogress => cases there
      | checkpointed => exact Or.inr ((checked slot).symm.trans there)
    refine ⟨bt, freed, ?_, ⟨⟨allocatorOk, fun block => ?_, ?_⟩, good.current,
      (fun _ wrong => by cases wrong),
      ⟨ok.reserved, ok.short, ok.pairs, ok.unused, ok.kept, ok.freelist⟩,
      good.type, good.unstored, ⟨fun _ => rfl, fun _ => rfl⟩, fun wrong => absurd rfl wrong,
      (fun _ _ wrong => by cases wrong), (fun wrong => by cases wrong),
      fun wrong => absurd rfl wrong,
      ?_, fun wrong => absurd rfl wrong, ?_⟩, rfl, fun block member => ?_⟩
    · have notSkipped : ¬world.bt.checkpointSkipped = true := by
        rw [good.skipped notIdle, isWritten]
        decide
      rw [BlockTable.noteEndCheckpoint, found]
      simp only [bind_runs]
      rw [if_neg notSkipped, here]
      simp only [Option.bind_some]
      rw [invariant_of positive, invariant_of start, goes world.bt rfl rfl rfl]
      rfl
    · rw [show bt.allocator = allocator from rfl, pool]
      constructor
      · rintro ⟨slot, there | there⟩
        · exact ⟨.current, slot, there⟩
        · exact ⟨.checkpointed, slot, (checked slot).trans there⟩
      · rintro ⟨kind, slot, there⟩
        exact ⟨slot, back kind slot block there⟩
    · refine @OneSlot.mono _ _ _ world.bt.table bt.table pooled.oneSlot
        fun kind slot block there => ?_
      rcases back kind slot block there with inCurrent | inNext
      · exact ⟨.current, inCurrent⟩
      · exact ⟨.inprogress, inNext⟩
    · intro _ clean slot block inCurrent
      rw [checked]
      exact good.cleanBegun notIdle clean slot block inCurrent
    · rintro (⟨wrong, -⟩ | wrong) <;> cases wrong
    · obtain ⟨held, unused⟩ := gone block member
      refine ⟨held, fun kind slot there => ?_⟩
      rcases back kind slot block there with inCurrent | inNext
      · exact (unused slot).1 inCurrent
      · exact (unused slot).2 inNext

end BlockTableWorld

open Translation SlotTables AllocatorWorld

/-- The blocks that the pairs of a table have. -/
def savedBlocks (pairs : List BlockTranslationPair) : List BlockPair :=
  (pairs.filter fun pair => 0 < pair.size).map BlockTranslationPair.block

/-- The pairs on disk of a table that was written as a checkpoint. -/
structure SavedOk (smallest : Nat) (freelistHead : Int) (pairs : List BlockTranslationPair) :
    Prop where
  sound : ∀ pair ∈ pairs, PairOk pair
  kept : ∀ pair ∈ pairs.take reservedBlocknums, pair.size ≠ sizeIsFree
  freelist : FreelistOk pairs smallest freelistHead
  placed : ∀ block ∈ savedBlocks pairs,
    Placed blockAllocatorTotalHeaderReserve blockAllocatorAlignment block
  apart : (savedBlocks pairs).Pairwise Apart

/-- The tables of a file that is new, or that is read from disk. -/
inductive BlockTableWorld.Created : BlockTableWorld → Prop where
  | new {bt : BlockTable} {dirty checkpointDirty : Bool} (created : BlockTable.create = some bt) :
    Created { bt, dirty, checkpointDirty, phase := .idle }
  | fromBuffer {bt : BlockTable} {dirty checkpointDirty : Bool}
    {locationOnDisk sizeOnDisk smallest : Nat} {freelistHead : Int}
    {pairs : List BlockTranslationPair} (saved : SavedOk smallest freelistHead pairs)
    (created : BlockTable.createFromBuffer locationOnDisk sizeOnDisk smallest freelistHead pairs =
      some bt) : Created { bt, dirty, checkpointDirty, phase := .idle }

namespace BlockTable

/-- The blocks of a table are gathered. -/
theorem gatherPairs_eq (pairs : List BlockTranslationPair) (ok : ∀ pair ∈ pairs, PairOk pair) :
    gatherPairs pairs = some (savedBlocks pairs) := by
  -- By induction on the pairs.
  induction pairs with
  | nil => rfl
  | cons pair rest ih =>
    have others := ih fun other member => ok other (List.mem_cons_of_mem _ member)
    rw [gatherPairs]
    by_cases positive : 0 < pair.size
    · have offset : pair.u ≠ diskoffUnused := by
        rcases ok pair List.mem_cons_self with free | empty | ⟨-, start⟩
        · exact absurd free (used_of_pos positive)
        · rw [empty] at positive
          cases positive
        · rw [diskoffUnused]
          omega
      rw [if_pos positive, invariant_of offset, others]
      simp [savedBlocks, positive]
    · rw [if_neg positive, others]
      simp [savedBlocks, positive]

/-- A table that is read from disk is in order, and says where it lies itself. -/
theorem translationDeserialize_ok {locationOnDisk sizeOnDisk smallest : Nat} {freelistHead : Int}
    {pairs : List BlockTranslationPair} {t : Translation}
    (saved : SavedOk smallest freelistHead pairs)
    (read : translationDeserialize locationOnDisk sizeOnDisk smallest freelistHead pairs = some t) :
    t.Ok ∧ t.type = .checkpointed ∧ t.blockTranslation = pairs ∧
      t.smallestNeverUsedBlocknum = pairs.length ∧ savedBlocks pairs ≠ [] := by
  unfold translationDeserialize at read
  obtain ⟨-, read⟩ := of_invariant read
  obtain ⟨reserved, read⟩ := of_invariant read
  obtain ⟨length, read⟩ := of_invariant read
  obtain ⟨size, read⟩ := of_invariant read
  obtain ⟨pair, here, read⟩ := of_bind read
  obtain ⟨sized, read⟩ := of_invariant read
  obtain ⟨-, read⟩ := of_invariant read
  obtain rfl := Option.some.inj read
  refine ⟨⟨reserved, Nat.le_of_eq length.symm, fun {b pair} here => ?_,
    fun {b pair} behind here => ?_,
    fun {b pair} early here => ?_, saved.freelist⟩, rfl, rfl, length.symm, ?_⟩
  · exact saved.sound pair (List.mem_of_getElem? here)
  · have inside := (List.getElem?_eq_some_iff.mp here).1
    simp only at behind inside
    omega
  · exact saved.kept pair
      (List.mem_of_getElem? (i := b) (by rw [List.getElem?_take_of_lt early]; exact here))
  · -- The table has a block itself.
    have positive : 0 < pair.size := by
      simp only [calculateSizeOnDisk] at size
      omega
    have member : pair ∈ pairs := List.mem_of_getElem? here
    exact List.ne_nil_of_mem (List.mem_map_of_mem
      (List.mem_filter.mpr ⟨member, decide_eq_true positive⟩))

end BlockTable

namespace BlockTableWorld

/-- The tables are in order when the table in use is a copy of the last checkpoint. -/
theorem good_of_copy {checkpointed current : Translation} {allocator : AllocatorWorld}
    {dirty checkpointDirty : Bool} (ok : checkpointed.Ok) (type : checkpointed.type = .checkpointed)
    (copied : copyTranslation none checkpointed .current = some current)
    (allocatorOk : FileAllocator allocator)
    (pool : ∀ block, block ∈ allocator.blocks ↔ ∃ slot, checkpointed.blockAt slot = some block)
    (oneSlot : ∀ {slot place block}, checkpointed.blockAt slot = some block →
      checkpointed.blockAt place = some block → slot = place) :
    Good { bt := { current, inprogress := none, checkpointed, allocator, checkpointSkipped := false
                   freed := [] }
           dirty, checkpointDirty, phase := .idle } := by
  -- Both tables have the same blocks, and there is no table in progress.
  obtain ⟨copy, copiedToo, copyOk, copyType, -, -, unstored, blocks⟩ :=
    @copyTranslation_ok _ .current ok (Or.inr ⟨type, rfl⟩)
  rw [copied] at copiedToo
  obtain rfl := Option.some.inj copiedToo
  let bt : BlockTable := { current, inprogress := none, checkpointed, allocator
                           checkpointSkipped := false, freed := [] }
  have below {slot : Nat} {block : BlockPair} (there : current.blockAt slot = some block) :
      checkpointed.blockAt slot = some block := by
    rw [blocks] at there
    split at there
    · cases there
    · exact there
  have back : ∀ kind slot block, bt.table kind slot = some block →
      checkpointed.blockAt slot = some block := by
    intro kind slot block there
    cases kind with
    | current => exact below there
    | inprogress => cases there
    | checkpointed => exact there
  refine ⟨⟨allocatorOk, fun block => ?_, fun {table other slot place block} here there =>
      oneSlot (back table slot block here) (back other place block there)⟩, copyOk,
    (fun _ wrong => by cases wrong), ok, copyType, unstored, ⟨fun _ => rfl, fun _ => rfl⟩,
    fun wrong => absurd rfl wrong, (fun _ _ wrong => by cases wrong), (fun wrong => by cases wrong),
    fun wrong => absurd rfl wrong, fun _ _ slot block there => below there,
    fun wrong => absurd rfl wrong, ?_⟩
  · rw [pool]
    constructor
    · intro ⟨slot, there⟩
      exact ⟨.checkpointed, slot, there⟩
    · intro ⟨kind, slot, there⟩
      exact ⟨slot, back kind slot block there⟩
  · rintro (⟨wrong, -⟩ | wrong) <;> cases wrong

/-- A block of a table that was read is the block of one of its pairs. -/
theorem mem_savedBlocks {t : Translation}
    (short : t.smallestNeverUsedBlocknum = t.blockTranslation.length)
    (block : BlockPair) :
    block ∈ savedBlocks t.blockTranslation ↔ ∃ slot, t.blockAt slot = some block := by
  constructor
  · intro member
    obtain ⟨pair, inside, rfl⟩ := List.mem_map.mp member
    obtain ⟨there, positive⟩ := List.mem_filter.mp inside
    obtain ⟨slot, here⟩ := List.mem_iff_getElem?.mp there
    have bound := (List.getElem?_eq_some_iff.mp here).1
    exact ⟨slot, blockAt_of_pos (by omega) here (of_decide_eq_true positive)⟩
  · intro ⟨slot, there⟩
    obtain ⟨pair, -, here, positive, rfl⟩ := of_blockAt there
    exact List.mem_map_of_mem
      (List.mem_filter.mpr ⟨List.mem_of_getElem? here, decide_eq_true positive⟩)

/-- Blocks that lie apart belong to one block number each. -/
theorem oneSlot_of_apart {t : Translation} (apart : (savedBlocks t.blockTranslation).Pairwise Apart)
    {slot place : Nat} {block : BlockPair} (here : t.blockAt slot = some block)
    (there : t.blockAt place = some block) : slot = place := by
  -- A block does not lie apart from itself.
  have pairwise := List.pairwise_filter.mp (List.pairwise_map.mp apart)
  have ordered {slot place : Nat} (here : t.blockAt slot = some block)
      (there : t.blockAt place = some block) : ¬slot < place := by
    intro before
    obtain ⟨pair, -, found, positive, rfl⟩ := of_blockAt here
    obtain ⟨other, -, foundToo, otherPositive, same⟩ := of_blockAt there
    obtain ⟨inside, rfl⟩ := List.getElem?_eq_some_iff.mp found
    obtain ⟨insideToo, rfl⟩ := List.getElem?_eq_some_iff.mp foundToo
    have disjoint := List.pairwise_iff_getElem.mp pairwise slot place inside insideToo before
      (decide_eq_true positive) (decide_eq_true otherPositive)
    rw [same] at disjoint
    have sized : 0 < (t.blockTranslation[slot].block).size := by
      simp only [BlockTranslationPair.block]
      omega
    simp only [Apart, BlockPair.end] at disjoint
    omega
  have first := ordered here there
  have second := ordered there here
  omega

/-- The tables of a file begin in order. -/
theorem Created.good {world : BlockTableWorld} (created : Created world) : Good world := by
  -- A file is new, or its last checkpoint is read from a buffer.
  cases created with
  | @new bt dirty checkpointDirty created =>
    unfold BlockTable.create at created
    obtain ⟨current, copied, created⟩ := of_bind created
    obtain ⟨ba, made, created⟩ := of_bind created
    obtain rfl := Option.some.inj created
    have empty (slot : Nat) (pair : BlockTranslationPair)
        (here :
          (List.replicate reservedBlocknums BlockTranslationPair.unallocated)[slot]? = some pair) :
        pair = .unallocated := (List.mem_replicate.mp (List.mem_of_getElem? here)).2
    refine good_of_copy ⟨Nat.le_refl _, Nat.le_refl _, fun {b pair} here => ?_,
      fun {b pair} behind here => ?_, fun {b pair} _ here => ?_, [], .nil, List.nodup_nil,
      fun _ wrong => (by cases wrong)⟩ rfl copied (AllocatorWorld.good_create (by decide) made)
      (fun block => ?_) fun {slot place block} here => ?_
    · exact Or.inr (Or.inl (empty b pair here))
    · have inside := (List.getElem?_eq_some_iff.mp here).1
      simp only [List.length_replicate] at behind inside
      omega
    · rw [empty b pair here]
      decide
    · refine ⟨fun wrong => (by cases wrong), fun ⟨slot, there⟩ => ?_⟩
      obtain ⟨pair, -, here, positive, -⟩ := of_blockAt there
      rw [empty slot pair here] at positive
      cases positive
    · obtain ⟨pair, -, there, positive, -⟩ := of_blockAt here
      rw [empty slot pair there] at positive
      cases positive
  | @fromBuffer bt dirty checkpointDirty location size smallest head pairs saved created =>
    unfold BlockTable.createFromBuffer at created
    obtain ⟨checkpointed, read, created⟩ := of_bind created
    obtain ⟨current, copied, created⟩ := of_bind created
    obtain ⟨blocks, gathered, created⟩ := of_bind created
    obtain ⟨ba, made, created⟩ := of_bind created
    obtain rfl := Option.some.inj created
    obtain ⟨ok, type, rfl, short, nonempty⟩ := BlockTable.translationDeserialize_ok saved read
    rw [BlockTable.gatherPairs_eq _ saved.sound] at gathered
    obtain rfl := Option.some.inj gathered
    obtain ⟨again, madeToo, allocatorOk⟩ := AllocatorWorld.good_createFromBlockPairs (by decide)
      nonempty saved.placed saved.apart
    rw [made] at madeToo
    obtain rfl := Option.some.inj madeToo
    exact good_of_copy ok type copied allocatorOk (mem_savedBlocks short)
      (oneSlot_of_apart saved.apart)

end BlockTableWorld

end Tokuft
