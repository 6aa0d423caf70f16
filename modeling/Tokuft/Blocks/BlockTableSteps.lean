import Tokuft.Blocks.BlockTableLaws

/-! Whatever clients ask of the tables of a file keeps their blocks and the allocator's alike. -/

namespace Tokuft

open Translation SlotTables

namespace BlockTableWorld

/-- The tables in which an operation for the checkpoint, or not for it, changes a block number. -/
def Changed (forCheckpoint : Bool) (table : TranslationType) : Prop :=
  table = .current ∨ (forCheckpoint = true ∧ table = .inprogress)

instance (forCheckpoint : Bool) : DecidablePred (Changed forCheckpoint) :=
  fun table => inferInstanceAs
    (Decidable (table = .current ∨ (forCheckpoint = true ∧ table = .inprogress)))

/-- The tables of a file are in order, and so are the bits that say what changed. -/
structure Good (world : BlockTableWorld) : Prop where
  pooled : world.bt.Pooled
  current : world.bt.current.Ok
  inprogress : ∀ t ∈ world.bt.inprogress, t.Ok
  checkpointed : world.bt.checkpointed.Ok
  type : world.bt.current.type = .current
  /-- The table in use is not on disk. -/
  unstored : world.bt.current.blockTranslation[reservedBlocknumTranslation]? = some .unallocated
  idle : world.phase = .idle ↔ world.bt.inprogress = none
  skipped : world.phase ≠ .idle → (world.bt.checkpointSkipped = true ↔ world.phase = .skipped)
  unwritten : world.phase ≠ .written → ∀ t ∈ world.bt.inprogress,
    t.blockTranslation[reservedBlocknumTranslation]? = some .unallocated
  written : world.phase = .written → ∀ t ∈ world.bt.inprogress,
    ∃ pair, t.blockTranslation[reservedBlocknumTranslation]? = some pair ∧ 0 < pair.size ∧
      0 < pair.u
  /-- What is in use and was in the last checkpoint is in the next one. -/
  carried : world.phase ≠ .idle → ∀ b block, world.bt.table .current b = some block →
    world.bt.table .checkpointed b = some block → world.bt.table .inprogress b = some block
  cleanIdle : world.phase = .idle → world.dirty = false → ∀ b block,
    world.bt.table .current b = some block → world.bt.table .checkpointed b = some block
  cleanBegun : world.phase ≠ .idle → world.dirty = false → ∀ b block,
    world.bt.table .current b = some block → world.bt.table .inprogress b = some block
  cleanSkipped : (world.phase = .begun ∧ world.checkpointDirty = false) ∨ world.phase = .skipped →
    ∀ b block, world.bt.table .inprogress b = some block →
      world.bt.table .checkpointed b = some block

variable {world : BlockTableWorld} {b : Nat} {forCheckpoint : Bool}

/-- A block number of the tables in use gets another block or loses its own. -/
theorem Good.rewritten {bt : BlockTable} {new : Option BlockPair} (good : Good world)
    (pooled : bt.Pooled) (current : bt.current.Ok) (inprogress : ∀ t ∈ bt.inprogress, t.Ok)
    (checkpointed : bt.checkpointed = world.bt.checkpointed)
    (type : bt.current.type = world.bt.current.type)
    (skippedSame : bt.checkpointSkipped = world.bt.checkpointSkipped)
    (unstored : bt.current.blockTranslation[reservedBlocknumTranslation]? =
      world.bt.current.blockTranslation[reservedBlocknumTranslation]?)
    (missing : bt.inprogress = none ↔ world.bt.inprogress = none)
    (unstoredToo : ∀ t ∈ bt.inprogress, ∃ old ∈ world.bt.inprogress,
      t.blockTranslation[reservedBlocknumTranslation]? =
        old.blockTranslation[reservedBlocknumTranslation]?)
    (tables : bt.table = rewrite world.bt.table (Changed forCheckpoint) b new)
    (fresh : ∀ block, new = some block →
      ¬Referenced (rewrite world.bt.table (Changed forCheckpoint) b none) block)
    (begun : forCheckpoint = true → world.phase = .begun) :
    Good ({ world with bt }.ftSetDirty forCheckpoint) := by
  have phase : ({ world with bt }.ftSetDirty forCheckpoint).phase = world.phase := by
    unfold ftSetDirty
    split <;> rfl
  have table : ({ world with bt }.ftSetDirty forCheckpoint).bt = bt := by
    unfold ftSetDirty
    split <;> rfl
  have notChecked : ¬Changed forCheckpoint .checkpointed := by simp [Changed]
  have checked (place : Nat) :
    bt.table .checkpointed place = world.bt.table .checkpointed place := by
    rw [tables, rewrite, if_neg fun wrong => notChecked wrong.1]
  have elsewhere {place : Nat} (other : place ≠ b) (kind : TranslationType) :
      bt.table kind place = world.bt.table kind place := by
    rw [tables, rewrite, if_neg fun wrong => other wrong.2]
  have here {kind : TranslationType} (changed : Changed forCheckpoint kind) :
    bt.table kind b = new := by
    rw [tables, rewrite, if_pos ⟨changed, rfl⟩]
  have isCurrent : Changed forCheckpoint .current := Or.inl rfl
  refine ⟨by rw [table]; exact pooled, by rw [table]; exact current,
    by rw [table]; exact inprogress,
    by rw [table, checkpointed]; exact good.checkpointed, by rw [table, type]; exact good.type,
    by rw [table, unstored]; exact good.unstored, by rw [table, phase, missing]; exact good.idle,
    by rw [table, phase, skippedSame]; exact good.skipped, ?_, ?_, ?_, ?_, ?_, ?_⟩
  · rw [table, phase]
    intro notWritten t member
    obtain ⟨old, oldMember, same⟩ := unstoredToo t member
    rw [same]
    exact good.unwritten notWritten old oldMember
  · rw [table, phase]
    intro isWritten t member
    obtain ⟨old, oldMember, same⟩ := unstoredToo t member
    rw [same]
    exact good.written isWritten old oldMember
  · rw [table, phase]
    intro notIdle place block inCurrent inChecked
    rw [checked] at inChecked
    by_cases same : place = b
    · -- A new block is in no other table.
      subst same
      rw [here isCurrent] at inCurrent
      refine absurd ⟨.checkpointed, place, ?_⟩ (fresh block inCurrent)
      rw [rewrite, if_neg fun wrong => notChecked wrong.1]
      exact inChecked
    · rw [elsewhere same] at inCurrent ⊢
      exact good.carried notIdle place block inCurrent inChecked
  · rw [table, phase]
    intro isIdle clean
    cases forCheckpoint with
    | true => exact absurd (isIdle.symm.trans (begun rfl)) (by decide)
    | false => cases clean
  · rw [table, phase]
    intro notIdle clean place block inCurrent
    cases forCheckpoint with
    | false => cases clean
    | true =>
      by_cases same : place = b
      · subst same
        rw [here (Or.inr ⟨rfl, rfl⟩)]
        rw [here isCurrent] at inCurrent
        exact inCurrent
      · rw [elsewhere same] at inCurrent ⊢
        exact good.cleanBegun notIdle clean place block inCurrent
  · rw [table, phase]
    intro nothing place block inNext
    cases forCheckpoint with
    | true =>
      rcases nothing with ⟨-, clean⟩ | isSkipped
      · cases clean
      · exact absurd (isSkipped.symm.trans (begun rfl)) (by decide)
    | false =>
      have notNext : ¬Changed false .inprogress := by simp [Changed]
      rw [tables, rewrite, if_neg fun wrong => notNext wrong.1] at inNext
      rw [checked]
      exact good.cleanSkipped nothing place block inNext

/-- Block numbers without a block come and go. -/
theorem Good.renumbered {current : Translation} {dirty : Bool} (good : Good world)
    (ok : current.Ok) (type : current.type = world.bt.current.type)
    (blocks : current.blockAt = world.bt.current.blockAt)
    (unstored : current.blockTranslation[reservedBlocknumTranslation]? =
      world.bt.current.blockTranslation[reservedBlocknumTranslation]?)
    (clean : dirty = false → world.dirty = false) :
    Good { world with bt := { world.bt with current }, dirty } := by
  -- The blocks of the tables are the same as before.
  have same : BlockTable.table { world.bt with current } = world.bt.table := by
    funext kind
    cases kind with
    | current => exact blocks
    | inprogress => rfl
    | checkpointed => rfl
  obtain ⟨allocator, pool, oneSlot⟩ := good.pooled
  refine ⟨⟨allocator, ?_, ?_⟩, ok, good.inprogress, good.checkpointed, type.trans good.type,
    unstored.trans good.unstored, good.idle, good.skipped, good.unwritten, good.written, ?_, ?_, ?_,
    ?_⟩
  · rw [same]
    exact pool
  · rw [same]
    exact oneSlot
  · rw [same]
    exact good.carried
  · rw [same]
    exact fun isIdle isClean => good.cleanIdle isIdle (clean isClean)
  · rw [same]
    exact fun notIdle isClean => good.cleanBegun notIdle (clean isClean)
  · rw [same]
    exact good.cleanSkipped

/-- The limit of fewer blocks is no greater. -/
theorem limitOf_le {reserve : Nat} {blocks others : List BlockPair}
    (fewer : ∀ block ∈ blocks, block ∈ others) :
    AllocatorWorld.limitOf reserve blocks ≤ AllocatorWorld.limitOf reserve others := by
  obtain ⟨-, -, one⟩ := AllocatorWorld.limitOf_spec reserve blocks
  obtain ⟨above, all, -⟩ := AllocatorWorld.limitOf_spec reserve others
  rcases one with same | ⟨block, member, same⟩
  · omega
  · have bound := all block (fewer block member)
    omega

/-- What other tables there are to prevent that a block is freed. -/
theorem kept_iff (good : Good world) {b : Nat} {old : BlockTranslationPair}
    {forCheckpoint : Bool} {next : Option Translation}
    (here : world.bt.current.blockTranslation[b]? = some old)
    (used : old.size ≠ sizeIsFree) (nextOk : ∀ t ∈ next, t.Ok)
    (nextBlock : ∀ block, blockAtOf next b = some block ↔
      forCheckpoint = false ∧ world.bt.table .inprogress b = some block)
    (rightly : 0 < old.size → PreventedRightly next (some world.bt.checkpointed) b old) :
    ((translationPreventsFreeing next b old ||
        translationPreventsFreeing (some world.bt.checkpointed) b old || old.u == diskoffUnused) =
      true) ↔ (if 0 < old.size then some old.block else none) = none ∨
        ∃ table, ¬Changed forCheckpoint table ∧
          world.bt.table table b = if 0 < old.size then some old.block else none := by
  -- Only offsets are compared, which are enough, since no two blocks start at one offset.
  have below := good.current.below here used
  have pairOk := good.current.pairs here
  by_cases positive : 0 < old.size
  · have start : 0 ≤ old.u := by
      rcases pairOk with free | empty | ⟨-, start⟩
      · exact absurd free used
      · rw [empty] at positive
        cases positive
      · exact start
    have notUnused : (old.u == diskoffUnused) = false := by
      simp only [diskoffUnused, beq_eq_false_iff_ne]
      omega
    have pooled := good.pooled
    have held {kind : TranslationType} {block : BlockPair}
        (there : world.bt.table kind b = some block) :
        block ∈ world.bt.allocator.blocks := (pooled.blocks block).mpr ⟨kind, b, there⟩
    have mine : old.block ∈ world.bt.allocator.blocks :=
      held (show world.bt.table .current b = _ from blockAt_of_pos below here positive)
    have checkedOk : ∀ t ∈ some world.bt.checkpointed, t.Ok := fun t member => by
      rw [← Option.some.inj member]
      exact good.checkpointed
    have decides := BlockTable.cannotFree_iff nextOk checkedOk pairOk positive
      (fun block either same => pooled.allocator.eq_of_offset (by
        rcases either with there | there
        · exact held ((nextBlock block).mp there).2
        · exact held (show world.bt.table .checkpointed b = _ from there)) mine same)
      (rightly positive)
    rw [notUnused, Bool.or_false, decides, if_pos positive, nextBlock]
    constructor
    · rintro (⟨notFor, there⟩ | there)
      · exact Or.inr ⟨.inprogress, by simp [Changed, notFor], there⟩
      · exact Or.inr ⟨.checkpointed, by simp [Changed], there⟩
    · rintro (none | ⟨kind, outside, there⟩)
      · cases none
      · cases kind with
        | current => exact absurd (Or.inl rfl) outside
        | inprogress =>
          refine Or.inl ⟨?_, there⟩
          cases forCheckpoint with
          | false => rfl
          | true => exact absurd (Or.inr ⟨rfl, rfl⟩) outside
        | checkpointed => exact Or.inr there
  · have empty : old = .unallocated := by
      rcases pairOk with free | empty | ⟨wrong, -⟩
      · exact absurd free used
      · exact empty
      · exact absurd wrong positive
    have unused : (old.u == diskoffUnused) = true := by
      rw [empty]
      rfl
    rw [unused, if_neg positive]
    simp

/-- The tables in which a block number is changed have the same block for it. -/
theorem changed_same (good : Good world) {old : BlockTranslationPair}
    (here : world.bt.current.blockTranslation[b]? = some old) (used : old.size ≠ sizeIsFree)
    (equal : forCheckpoint = true → ∃ inprogress ∈ world.bt.inprogress,
      inprogress.blockTranslation[b]? = world.bt.current.blockTranslation[b]?)
    (table : TranslationType) (changed : Changed forCheckpoint table) :
    world.bt.table table b = if 0 < old.size then some old.block else none := by
  -- The checkpoint writes the same entry in both tables that it changes.
  rcases changed with rfl | ⟨isFor, rfl⟩
  · exact blockAt_eq (good.current.below here used) here
  · obtain ⟨t, member, same⟩ := equal isFor
    have there := same.trans here
    have found : world.bt.inprogress = some t := member
    show blockAtOf world.bt.inprogress b = _
    rw [found]
    exact blockAt_eq ((good.inprogress t member).below there used) there

/-- What an operation on one block number comes to. -/
structure Done (world : BlockTableWorld) (changed : TranslationType → Nat → Prop)
    (after : BlockTableWorld) (freed : List BlockPair) : Prop where
  good : Good after
  record : after.bt.freed = freed ++ world.bt.freed
  unused : ∀ block ∈ freed, block ∈ world.bt.allocator.blocks ∧
    ∀ table slot, after.bt.table table slot = some block → changed table slot

/-- A block number gets a new block of the allocator, or none when it is empty. -/
theorem allocUnlessEmpty_ok {bt : BlockTable} (ok : FileAllocator bt.allocator) {size : Nat}
    (room : AllocatorWorld.limitOf blockAllocatorTotalHeaderReserve bt.allocator.blocks +
      blockAllocatorAlignment + size < 2 ^ 63) :
    ∃ pair allocator, bt.allocUnlessEmpty size = some (pair, { bt with allocator }) ∧
      PairOk pair ∧ pair.size ≠ sizeIsFree ∧ FileAllocator allocator ∧
      (∀ block, block ∈ allocator.blocks ↔
        (if 0 < pair.size then some pair.block else none) = some block ∨
          block ∈ bt.allocator.blocks) ∧
      ∀ block, (if 0 < pair.size then some pair.block else none) = some block →
        block ∉ bt.allocator.blocks := by
  unfold BlockTable.allocUnlessEmpty
  by_cases positive : 0 < size
  · obtain ⟨offset, ba, granted, okAfter, fresh⟩ := BlockTable.allocBlock_ok ok positive room
    have sized : (0 : Int) < (size : Int) := by omega
    have block : BlockTranslationPair.block { u := offset, size } = { offset, size } := by
      simp [BlockTranslationPair.block]
    refine ⟨{ u := offset, size }, { ba, blocks := { offset, size } :: bt.allocator.blocks }, ?_,
      Or.inr (Or.inr ⟨sized, Int.natCast_nonneg offset⟩), used_of_pos sized, okAfter,
      fun other => ?_, fun other new => ?_⟩
    · rw [if_pos positive, BlockTable.allocBlock, granted]
      rfl
    · rw [if_pos sized, block, List.mem_cons, Option.some.injEq, eq_comm]
    · rw [if_pos sized, block] at new
      rw [← Option.some.inj new]
      exact fresh
  · refine ⟨.unallocated, bt.allocator, if_neg positive, Or.inr (Or.inl rfl), by decide, ok,
      fun other => ?_, fun other new => ?_⟩
    · simp [BlockTranslationPair.unallocated]
    · simp [BlockTranslationPair.unallocated] at new

section

variable (good : Good world)
include good

/-- The table in progress gets the pair too when this is for the checkpoint. -/
theorem setInprogress_ok {bt : BlockTable} {b : Nat} {old pair : BlockTranslationPair}
    {forCheckpoint : Bool} (unchanged : bt.inprogress = world.bt.inprogress)
    (here : world.bt.current.blockTranslation[b]? = some old) (used : old.size ≠ sizeIsFree)
    (pairOk : PairOk pair) (pairUsed : pair.size ≠ sizeIsFree)
    (notTable : b ≠ reservedBlocknumTranslation)
    (equal : forCheckpoint = true → ∃ inprogress ∈ world.bt.inprogress,
      inprogress.blockTranslation[b]? = world.bt.current.blockTranslation[b]?) :
    ∃ inprogress, bt.setInprogress b pair forCheckpoint = some { bt with inprogress } ∧
      (∀ t ∈ inprogress, t.Ok) ∧ (inprogress = none ↔ world.bt.inprogress = none) ∧
      (∀ t ∈ inprogress, ∃ before ∈ world.bt.inprogress,
        t.blockTranslation[reservedBlocknumTranslation]? =
          before.blockTranslation[reservedBlocknumTranslation]?) ∧
      ∀ slot, blockAtOf inprogress slot =
        if Changed forCheckpoint .inprogress ∧ slot = b then
          (if 0 < pair.size then some pair.block else none)
        else world.bt.table .inprogress slot := by
  -- Without a checkpoint the table in progress stays as it is.
  cases forCheckpoint with
  | false =>
    refine ⟨world.bt.inprogress, ?_, good.inprogress, Iff.rfl, fun t member => ⟨t, member, rfl⟩,
      fun slot => ?_⟩
    · rw [← unchanged]
      rfl
    · have notChanged : ¬Changed false .inprogress := by simp [Changed]
      rw [if_neg fun wrong => notChanged wrong.1]
      rfl
  | true =>
    obtain ⟨t, member, same⟩ := equal rfl
    have found : world.bt.inprogress = some t := member
    have there := same.trans here
    have tOk := good.inprogress t member
    have inside := (List.getElem?_eq_some_iff.mp there).1
    refine ⟨some (t.setPair b pair), ?_, fun other otherMember => ?_, by simp [found],
      fun other otherMember => ⟨t, member, ?_⟩, fun slot => ?_⟩
    · rw [BlockTable.setInprogress, if_pos rfl, unchanged, found, bind_of_some, invariant_of inside]
      rfl
    · rw [← Option.some.inj otherMember]
      exact tOk.setPair there used pairOk pairUsed
    · rw [← Option.some.inj otherMember]
      exact List.getElem?_set_ne notTable
    · have isChanged : Changed true .inprogress := Or.inr ⟨rfl, rfl⟩
      show (t.setPair b pair).blockAt slot = _
      rw [blockAt_setPair tOk (tOk.below there used)]
      simp only [isChanged, true_and]
      split
      · rfl
      · show _ = blockAtOf world.bt.inprogress slot
        rw [found]
        rfl

/-- A block number gets another block, and its old one is freed if no table needs it. -/
theorem reallocOnDiskInternal_ok {b size : Nat} {old : BlockTranslationPair} {forCheckpoint : Bool}
    (here : world.bt.current.blockTranslation[b]? = some old) (used : old.size ≠ sizeIsFree)
    (notTable : b ≠ reservedBlocknumTranslation)
    (begun : forCheckpoint = true → world.phase = .begun)
    (equal : forCheckpoint = true → ∃ inprogress ∈ world.bt.inprogress,
      inprogress.blockTranslation[b]? = world.bt.current.blockTranslation[b]?)
    (room : world.Room size)
    (rightly : 0 < old.size → PreventedRightly (if forCheckpoint then none else world.bt.inprogress)
      (some world.bt.checkpointed) b old) :
    ∃ offset bt freed, world.bt.reallocOnDiskInternal b size forCheckpoint = some (offset, bt) ∧
      Done world (fun table slot => Changed forCheckpoint table ∧ slot = b)
        ({ world with bt }.ftSetDirty forCheckpoint) freed := by
  have pooled := good.pooled
  have below := good.current.below here used
  have same := changed_same good here used equal
  have isCurrent : Changed forCheckpoint .current := Or.inl rfl
  have kept := @kept_iff world good b old forCheckpoint
    (if forCheckpoint then none else world.bt.inprogress) here used
    (fun t member => by
      cases forCheckpoint with
      | true => cases member
      | false => exact good.inprogress t member)
    (fun block => by cases forCheckpoint <;> simp [blockAtOf, BlockTable.table]) rightly
  obtain ⟨allocator, freed, released, allocatorOk, pool, gone⟩ :=
    BlockTable.freeUnless_ok pooled same isCurrent rfl kept
  -- What is left is fewer blocks, so the new block fits as before.
  have fewer : ∀ block ∈ allocator.blocks, block ∈ world.bt.allocator.blocks := by
    intro block member
    obtain ⟨kind, slot, there⟩ := (pool block).mp member
    refine (pooled.blocks block).mpr ⟨kind, slot, ?_⟩
    unfold rewrite at there
    split at there
    · cases there
    · exact there
  have room : AllocatorWorld.limitOf blockAllocatorTotalHeaderReserve allocator.blocks +
      blockAllocatorAlignment + size < 2 ^ 63 := by
    have bound := @limitOf_le blockAllocatorTotalHeaderReserve _ _ fewer
    unfold Room at room
    omega
  obtain ⟨pair, allocator', allocated, pairOk, pairUsed, allocatorOk', pool', fresh⟩ :=
    @allocUnlessEmpty_ok { world.bt with allocator, freed := freed ++ world.bt.freed } allocatorOk
      size room
  have freshToo : ∀ block, (if 0 < pair.size then some pair.block else none) = some block →
      ¬Referenced (rewrite world.bt.table (Changed forCheckpoint) b none) block :=
    fun block new referenced => fresh block new ((pool block).mpr referenced)
  have currentOk := good.current.setPair here used pairOk pairUsed
  obtain ⟨inprogress, written, inprogressOk, missing, unstored, nextBlocks⟩ :=
    @setInprogress_ok world good { world.bt with
      current := world.bt.current.setPair b pair
      allocator := allocator'
      freed := freed ++ world.bt.freed } b old pair forCheckpoint rfl here used pairOk pairUsed
      notTable equal
  let bt : BlockTable := { world.bt with
    current := world.bt.current.setPair b pair
    inprogress
    allocator := allocator'
    freed := freed ++ world.bt.freed }
  have tables : bt.table = rewrite world.bt.table (Changed forCheckpoint) b
      (if 0 < pair.size then some pair.block else none) := by
    funext kind slot
    cases kind with
    | current =>
      show (world.bt.current.setPair b pair).blockAt slot = _
      rw [blockAt_setPair good.current below, rewrite]
      simp only [isCurrent, true_and]
      rfl
    | inprogress => exact nextBlocks slot
    | checkpointed =>
      have notChanged : ¬Changed forCheckpoint .checkpointed := by simp [Changed]
      rw [rewrite, if_neg fun wrong => notChanged wrong.1]
      rfl
  have pooledAfter : bt.Pooled := by
    refine ⟨allocatorOk', fun block => ?_, ?_⟩
    · rw [tables, rewrite_new pooled.oneSlot same isCurrent, ← pool]
      exact pool' block
    · rw [tables]
      exact rewrite_oneSlot pooled.oneSlot freshToo
  refine ⟨pair.u, bt, freed, ?_, good.rewritten pooledAfter currentOk inprogressOk rfl rfl rfl
    (List.getElem?_set_ne notTable) missing unstored tables freshToo begun, ?_,
    fun block member => ⟨(gone block member).1, fun kind slot there => ?_⟩⟩
  · have keptSame : (!forCheckpoint && translationPreventsFreeing world.bt.inprogress b old) =
        translationPreventsFreeing (if forCheckpoint then none else world.bt.inprogress) b old := by
      cases forCheckpoint <;> rfl
    rw [BlockTable.reallocOnDiskInternal, here]
    simp only [bind_runs, keptSame, released world.bt rfl, allocated, written]
    rfl
  · unfold ftSetDirty
    split <;> rfl
  · have there : bt.table kind slot = some block := by
      unfold ftSetDirty at there
      split at there <;> exact there
    rw [tables] at there
    exact rewrite_elsewhere (gone block member).2 there

/-- The table in progress loses the block number too when this is for the checkpoint. -/
theorem freeInprogress_ok {bt : BlockTable} {b : Nat} {old : BlockTranslationPair}
    {forCheckpoint : Bool} (unchanged : bt.inprogress = world.bt.inprogress)
    (here : world.bt.current.blockTranslation[b]? = some old) (used : old.size ≠ sizeIsFree)
    (freeable : reservedBlocknums ≤ b)
    (equal : forCheckpoint = true → ∃ inprogress ∈ world.bt.inprogress,
      inprogress.blockTranslation[b]? = world.bt.current.blockTranslation[b]?) :
    ∃ inprogress, bt.freeInprogress b forCheckpoint = some { bt with inprogress } ∧
      (∀ t ∈ inprogress, t.Ok) ∧ (inprogress = none ↔ world.bt.inprogress = none) ∧
      (∀ t ∈ inprogress, ∃ before ∈ world.bt.inprogress,
        t.blockTranslation[reservedBlocknumTranslation]? =
          before.blockTranslation[reservedBlocknumTranslation]?) ∧
      (∀ slot, blockAtOf inprogress slot =
        if Changed forCheckpoint .inprogress ∧ slot = b then none
        else world.bt.table .inprogress slot) ∧
      (forCheckpoint = false → inprogress = world.bt.inprogress) ∧
      (forCheckpoint = true → ∀ offset, linkIsOffset inprogress b offset = true →
        ∃ before ∈ world.bt.inprogress, before.blocknumFreelistHead = offset) := by
  -- Without a checkpoint the table in progress stays as it is.
  cases forCheckpoint with
  | false =>
    refine ⟨world.bt.inprogress, ?_, good.inprogress, Iff.rfl, fun t member => ⟨t, member, rfl⟩,
      fun slot => ?_, fun _ => rfl, fun wrong => by cases wrong⟩
    · rw [← unchanged]
      rfl
    · have notChanged : ¬Changed false .inprogress := by simp [Changed]
      rw [if_neg fun wrong => notChanged wrong.1]
      rfl
  | true =>
    obtain ⟨t, member, same⟩ := equal rfl
    have found : world.bt.inprogress = some t := member
    have there := same.trans here
    have tOk := good.inprogress t member
    have inside := (List.getElem?_eq_some_iff.mp there).1
    obtain ⟨after, freed, afterOk, -, -, shape, blocks⟩ :=
      freeBlocknumInTranslation_ok tOk there used freeable
    refine ⟨some after, ?_, fun other otherMember => ?_, by simp [found],
      fun other otherMember => ⟨t, member, ?_⟩, fun slot => ?_, (fun wrong => by cases wrong),
      fun _ offset linked => ⟨t, member, ?_⟩⟩
    · rw [BlockTable.freeInprogress, if_pos rfl, unchanged, found, bind_of_some, freed]
      rfl
    · rw [← Option.some.inj otherMember]
      exact afterOk
    · rw [← Option.some.inj otherMember, shape]
      exact List.getElem?_set_ne (by
        intro wrong
        rw [wrong] at freeable
        exact absurd freeable (by decide))
    · have isChanged : Changed true .inprogress := Or.inr ⟨rfl, rfl⟩
      show after.blockAt slot = _
      rw [blocks]
      simp only [isChanged, true_and]
      split
      · rfl
      · show _ = blockAtOf world.bt.inprogress slot
        rw [found]
        rfl
    · simp only [linkIsOffset, Option.any_some, shape, List.getElem?_set_self inside,
        Bool.and_eq_true, beq_iff_eq] at linked
      exact linked.2.2

/-- A block number is freed, and its block with it if no table needs that. -/
theorem freeBlocknum_ok {old : BlockTranslationPair}
    (here : world.bt.current.blockTranslation[b]? = some old) (used : old.size ≠ sizeIsFree)
    (freeable : reservedBlocknums ≤ b) (begun : forCheckpoint = true → world.phase = .begun)
    (equal : forCheckpoint = true → ∃ inprogress ∈ world.bt.inprogress,
      inprogress.blockTranslation[b]? = world.bt.current.blockTranslation[b]?)
    (clear : world.Clear (.freeBlocknum b forCheckpoint)) :
    ∃ bt freed, world.bt.freeBlocknum b forCheckpoint = some bt ∧
      Done world (fun _ _ => False) ({ world with bt }.ftSetDirty forCheckpoint) freed := by
  have pooled := good.pooled
  have below := good.current.below here used
  have same := changed_same good here used equal
  have isCurrent : Changed forCheckpoint .current := Or.inl rfl
  obtain ⟨current, freedHere, currentOk, type, -, shape, blocks⟩ :=
    freeBlocknumInTranslation_ok good.current here used freeable
  obtain ⟨inprogress, freedNext, inprogressOk, missing, unstored, nextBlocks, sameNext, linked⟩ :=
    @freeInprogress_ok world good { world.bt with current } b old forCheckpoint rfl here used
      freeable equal
  have rightly : 0 < old.size →
      PreventedRightly inprogress (some world.bt.checkpointed) b old := by
    intro positive
    cases forCheckpoint with
    | false =>
      rw [sameNext rfl]
      exact clear old here positive
    | true =>
      obtain ⟨noLink, heads⟩ := clear old here positive
      refine ⟨fun link => ?_, fun link => ?_⟩
      · obtain ⟨t, member, head⟩ := linked rfl old.u link
        exact heads t member head
      · rw [noLink] at link
        cases link
  have kept := @kept_iff world good b old forCheckpoint inprogress here used inprogressOk
    (fun block => by
      rw [nextBlocks b]
      cases forCheckpoint <;> simp [Changed]) rightly
  obtain ⟨allocator, freed, released, allocatorOk, pool, gone⟩ :=
    BlockTable.freeUnless_ok pooled same isCurrent rfl kept
  let bt : BlockTable :=
    { world.bt with current, inprogress, allocator, freed := freed ++ world.bt.freed }
  have tables : bt.table = rewrite world.bt.table (Changed forCheckpoint) b none := by
    funext kind slot
    cases kind with
    | current =>
      show current.blockAt slot = _
      rw [blocks, rewrite]
      simp only [isCurrent, true_and]
      rfl
    | inprogress => exact nextBlocks slot
    | checkpointed =>
      have notChanged : ¬Changed forCheckpoint .checkpointed := by simp [Changed]
      rw [rewrite, if_neg fun wrong => notChanged wrong.1]
      rfl
  have pooledAfter : bt.Pooled := by
    refine ⟨allocatorOk, fun block => ?_, ?_⟩
    · rw [tables]
      exact pool block
    · rw [tables]
      exact rewrite_oneSlot pooled.oneSlot fun block wrong => by cases wrong
  refine ⟨bt, freed, ?_, good.rewritten pooledAfter currentOk inprogressOk rfl type rfl ?_ missing
    unstored tables (fun block wrong => by cases wrong) begun, ?_,
    fun block member => ⟨(gone block member).1, fun kind slot there => ?_⟩⟩
  · have served := released { world.bt with current, inprogress } rfl
    rw [BlockTable.freeBlocknum, here]
    simp only [bind_runs, freedHere, freedNext]
    rcases good.current.pairs here with free | empty | ⟨positive, start⟩
    · exact absurd free used
    · -- Without a block there is nothing to free.
      have unused : (old.u == diskoffUnused) = true := by rw [empty]; rfl
      have notPositive : ¬0 < old.size := by rw [empty]; decide
      rw [unused, Bool.or_true] at served
      rw [if_neg notPositive, invariant_of empty]
      exact served
    · have notUnused : (old.u == diskoffUnused) = false := by
        simp only [diskoffUnused, beq_eq_false_iff_ne]
        omega
      rw [notUnused, Bool.or_false] at served
      rw [if_pos positive]
      exact served
  · rw [shape]
    refine List.getElem?_set_ne fun wrong => ?_
    rw [wrong] at freeable
    exact absurd freeable (by decide)
  · unfold ftSetDirty
    split <;> rfl
  · have there : bt.table kind slot = some block := by
      unfold ftSetDirty at there
      split at there <;> exact there
    rw [tables] at there
    exact (gone block member).2 ⟨kind, slot, there⟩

/-- A checkpoint begins with what is in use. -/
theorem noteStartCheckpoint_ok (isIdle : world.phase = .idle) :
    ∃ bt, world.bt.noteStartCheckpoint = some bt ∧ bt.freed = world.bt.freed ∧
      Good { bt, dirty := false, checkpointDirty := world.dirty, phase := .begun } := by
  have missing := good.idle.mp isIdle
  obtain ⟨currentOk, type, blocks, stays⟩ := maybeOptimizeTranslation_ok good.current
  obtain ⟨copy, copied, copyOk, -, -, -, unstored, copyBlocks⟩ :=
    @copyTranslation_ok _ .inprogress currentOk (Or.inl ⟨type.trans good.type, rfl⟩)
  have unstoredHere := stays (show BlockTranslationPair.unallocated.size ≠ sizeIsFree by decide)
    good.unstored
  let bt : BlockTable := { world.bt with
    current := maybeOptimizeTranslation world.bt.current
    inprogress := some copy
    checkpointSkipped := false }
  have sameCurrent : bt.table .current = world.bt.table .current := blocks
  -- The table itself has no block in use, so the copy has the same blocks.
  have sameNext : bt.table .inprogress = world.bt.table .current := by
    funext slot
    show copy.blockAt slot = _
    rw [copyBlocks]
    split
    · rename_i isTable
      rw [isTable]
      exact (blockAt_eq (currentOk.below unstoredHere (by decide)) unstoredHere).symm.trans
        (congrFun blocks _)
    · exact congrFun blocks slot
  have noNext (slot : Nat) : world.bt.table .inprogress slot = none := by
    show blockAtOf world.bt.inprogress slot = none
    rw [missing]
    rfl
  have pooled := good.pooled
  have back : ∀ kind slot block, bt.table kind slot = some block →
      ∃ other, world.bt.table other slot = some block := by
    intro kind slot block there
    cases kind with
    | current => exact ⟨.current, by rw [← sameCurrent]; exact there⟩
    | inprogress => exact ⟨.current, by rw [← sameNext]; exact there⟩
    | checkpointed => exact ⟨.checkpointed, there⟩
  refine ⟨bt, ?_, rfl, ⟨pooled.allocator, fun block => ?_, OneSlot.mono pooled.oneSlot back⟩,
    currentOk, ?_,
    good.checkpointed, type.trans good.type, unstoredHere, by simp [bt], by simp [bt], ?_,
    (fun wrong => by cases wrong), ?_, (fun wrong => by cases wrong), ?_, ?_⟩
  · rw [BlockTable.noteStartCheckpoint]
    simp only [missing, copied, bind_runs]
    rfl
  · rw [show bt.allocator = world.bt.allocator from rfl, pooled.blocks]
    constructor
    · intro ⟨kind, slot, there⟩
      cases kind with
      | current => exact ⟨.current, slot, by rw [sameCurrent]; exact there⟩
      | inprogress =>
        rw [noNext] at there
        cases there
      | checkpointed => exact ⟨.checkpointed, slot, there⟩
    · intro ⟨kind, slot, there⟩
      obtain ⟨other, found⟩ := back kind slot block there
      exact ⟨other, slot, found⟩
  · intro t member
    rw [← Option.some.inj member]
    exact copyOk
  · intro _ t member
    rw [← Option.some.inj member]
    exact unstored
  · intro _ slot block inCurrent _
    rw [sameNext, ← sameCurrent]
    exact inCurrent
  · intro _ _ slot block inCurrent
    rw [sameNext, ← sameCurrent]
    exact inCurrent
  · rintro (⟨-, clean⟩ | wrong) slot block inNext
    · rw [sameNext] at inNext
      exact good.cleanIdle isIdle clean slot block inNext
    · cases wrong

/-- The table in progress gets a block for itself. -/
theorem serializeTranslation_ok (begun : world.phase = .begun)
    (room : ∀ inprogress ∈ world.bt.inprogress, world.Room (calculateSizeOnDisk inprogress)) :
    ∃ offset bt, world.bt.serializeTranslation = some (offset, bt) ∧ bt.freed = world.bt.freed ∧
      Good { world with bt, phase := .written } := by
  -- The new block is in no table yet, and only the table in progress gets it.
  have notIdle : world.phase ≠ .idle := by rw [begun]; decide
  cases found : world.bt.inprogress with
  | none => exact absurd (good.idle.mpr found) notIdle
  | some t =>
    have tOk := good.inprogress t found
    have unstored := good.unwritten (by rw [begun]; decide) t found
    have pooled := good.pooled
    obtain ⟨offset, ba, granted, allocatorOk, fresh⟩ := BlockTable.allocBlock_ok pooled.allocator
      (show 0 < calculateSizeOnDisk t by unfold calculateSizeOnDisk; omega) (room t found)
    generalize sized : calculateSizeOnDisk t = size at granted allocatorOk fresh
    have positive : 0 < size := by
      rw [← sized, calculateSizeOnDisk]
      omega
    let pair : BlockTranslationPair := { u := offset, size }
    have pairPositive : 0 < pair.size := by
      show (0 : Int) < size
      omega
    have block : pair.block = { offset, size } := by simp [pair, BlockTranslationPair.block]
    have placed := allocatorOk.placed { offset, size } List.mem_cons_self
    have beyond : 8192 ≤ offset := placed.beyond
    have aligned : offset % 4096 = 0 := placed.aligned
    have start : 0 < pair.u := by
      show (0 : Int) < offset
      omega
    have below := tOk.below unstored (by decide)
    let bt : BlockTable := { world.bt with
      inprogress := some (t.setPair reservedBlocknumTranslation pair)
      allocator := { ba, blocks := { offset, size } :: world.bt.allocator.blocks } }
    have tables : bt.table = rewrite world.bt.table (· = .inprogress) reservedBlocknumTranslation
        (some { offset, size }) := by
      funext kind slot
      cases kind with
      | current => rfl
      | inprogress =>
        show (t.setPair reservedBlocknumTranslation pair).blockAt slot = _
        rw [blockAt_setPair tOk below, if_pos pairPositive, block, rewrite]
        simp only [true_and]
        split
        · rfl
        · show _ = blockAtOf world.bt.inprogress slot
          rw [found]
          rfl
      | checkpointed => rfl
    have same : ∀ kind, kind = TranslationType.inprogress →
        world.bt.table kind reservedBlocknumTranslation = none := by
      intro kind isNext
      rw [isNext]
      show blockAtOf world.bt.inprogress reservedBlocknumTranslation = none
      rw [found]
      exact (blockAt_eq below unstored)
    have emptied (other : BlockPair) : Referenced (rewrite world.bt.table (· = .inprogress)
        reservedBlocknumTranslation none) other ↔ other ∈ world.bt.allocator.blocks := by
      rw [rewrite_referenced pooled.oneSlot same rfl, pooled.blocks]
      simp
    have noTable (other : BlockPair) :
        world.bt.table .current reservedBlocknumTranslation ≠ some other := by
      intro wrong
      have none : world.bt.table .current reservedBlocknumTranslation = none :=
        blockAt_eq (good.current.below good.unstored (by decide)) good.unstored
      rw [none] at wrong
      cases wrong
    have elsewhere {slot : Nat} (notTable : slot ≠ reservedBlocknumTranslation) :
        bt.table .inprogress slot = world.bt.table .inprogress slot := by
      rw [tables, rewrite, if_neg fun wrong => notTable wrong.2]
    refine ⟨offset, bt, ?_, rfl, ⟨allocatorOk, fun other => ?_, ?_⟩, good.current, ?_,
      good.checkpointed, good.type, good.unstored, by simp [bt], ?_,
      (fun wrong => absurd rfl wrong),
      ?_, ?_, (fun wrong => by cases wrong), ?_, ?_⟩
    · rw [BlockTable.serializeTranslation, found]
      simp only [bind_runs, unstored, invariant_of, sized, BlockTable.allocBlock, granted]
      rw [invariant_of (by omega)]
      rfl
    · rw [tables, rewrite_new pooled.oneSlot same rfl, emptied]
      show other ∈ { offset, size } :: world.bt.allocator.blocks ↔ _
      rw [List.mem_cons, Option.some.injEq, eq_comm]
    · rw [tables]
      refine rewrite_oneSlot pooled.oneSlot fun other new referenced => ?_
      rw [← Option.some.inj new] at referenced
      exact fresh ((emptied _).mp referenced)
    · intro other member
      rw [← Option.some.inj member]
      exact tOk.setPair unstored (by decide) (Or.inr (Or.inr ⟨pairPositive, Int.le_of_lt start⟩))
        (used_of_pos pairPositive)
    · intro _
      rw [show bt.checkpointSkipped = world.bt.checkpointSkipped from rfl,
        good.skipped notIdle, begun]
      exact ⟨fun wrong => (by cases wrong), fun wrong => (by cases wrong)⟩
    · intro _ other member
      rw [← Option.some.inj member]
      exact ⟨pair, List.getElem?_set_self (List.getElem?_eq_some_iff.mp unstored).1, pairPositive,
        start⟩
    · intro _ slot other inCurrent inChecked
      by_cases isTable : slot = reservedBlocknumTranslation
      · exact absurd (isTable ▸ inCurrent) (noTable other)
      · rw [elsewhere isTable]
        exact good.carried notIdle slot other inCurrent inChecked
    · intro _ clean slot other inCurrent
      by_cases isTable : slot = reservedBlocknumTranslation
      · exact absurd (isTable ▸ inCurrent) (noTable other)
      · rw [elsewhere isTable]
        exact good.cleanBegun notIdle clean slot other inCurrent
    · rintro (⟨wrong, -⟩ | wrong) <;> cases wrong

/-- A checkpoint of a file that did not change is skipped. -/
theorem noteSkippedCheckpoint_ok (begun : world.phase = .begun)
    (clean : world.checkpointDirty = false) :
    ∃ bt, world.bt.noteSkippedCheckpoint = some bt ∧ bt.freed = world.bt.freed ∧
      Good { world with bt, phase := .skipped } := by
  -- No block moves: only the note that the checkpoint was skipped is new.
  have notIdle : world.phase ≠ .idle := by rw [begun]; decide
  have present : world.bt.inprogress.isSome = true := by
    cases found : world.bt.inprogress with
    | none => exact absurd (good.idle.mpr found) notIdle
    | some t => rfl
  obtain ⟨allocator, pool, oneSlot⟩ := good.pooled
  refine ⟨{ world.bt with checkpointSkipped := true }, ?_, rfl, ⟨allocator, pool, oneSlot⟩,
    good.current, good.inprogress, good.checkpointed, good.type, good.unstored, ?_, fun _ => ?_,
    fun _ => good.unwritten (by rw [begun]; decide), (fun wrong => by cases wrong),
    fun _ => good.carried notIdle, (fun wrong => by cases wrong), fun _ => good.cleanBegun notIdle,
    fun _ => good.cleanSkipped (Or.inl ⟨begun, clean⟩)⟩
  · rw [BlockTable.noteSkippedCheckpoint, invariant_of present]
    rfl
  · refine ⟨fun wrong => (by cases wrong), fun missing => ?_⟩
    have missing : world.bt.inprogress = none := missing
    rw [missing] at present
    cases present
  · exact ⟨fun _ => rfl, fun _ => rfl⟩

end

end BlockTableWorld

end Tokuft
