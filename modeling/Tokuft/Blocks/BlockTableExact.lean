import Tokuft.Blocks.CheckpointEnds

/-! Over every run the blocks that are allocated are the blocks that the tables of a file need. -/

namespace Tokuft

open Translation SlotTables

/-- The tables of a file. -/
def BlockTable.tables (bt : BlockTable) : List Translation :=
  bt.current :: bt.checkpointed :: bt.inprogress.toList

/-- Some table says that a block is in use. -/
def BlockTable.Needs (bt : BlockTable) (pair : BlockTranslationPair) : Prop :=
  0 < pair.size ∧ ∃ t ∈ bt.tables, pair ∈ t.blockTranslation

instance (bt : BlockTable) (pair : BlockTranslationPair) : Decidable (bt.Needs pair) :=
  inferInstanceAs (Decidable (_ < _ ∧ _))

namespace BlockTableWorld

/-- The entries of the tables that an event gives another block. -/
def Rewrites : BlockTableEvent → TranslationType → Nat → Prop
  | .reallocOnDisk b _ forCheckpoint, table, slot => Changed forCheckpoint table ∧ slot = b
  | .reallocDescriptorOnDisk _, table, slot =>
    Changed false table ∧ slot = reservedBlocknumDescriptor
  | _, _, _ => False

/-- What the tables of a file promise in a state that a run leads to. -/
structure Exact (world : BlockTableWorld) : Prop where
  /-- The holes of the allocator are what the allocated blocks leave. -/
  allocator : AllocatorWorld.Exact blockAllocatorTotalHeaderReserve blockAllocatorAlignment
    world.bt.allocator
  blocks : ∀ pair : BlockTranslationPair, (∃ block ∈ world.bt.allocator.blocks,
    pair = { u := block.offset, size := block.size }) ↔ world.bt.Needs pair
  once : world.bt.allocator.blocks.Nodup
  /-- No assertion stops what may be asked. -/
  serves : ∀ event, world.Allowed event → world.Clear event →
    ∃ after, world.next event = some after
  /-- A freed block was allocated, and only an entry with a new block may have the same block. -/
  frees : ∀ event after, ClearStep world event after →
    ∃ freed, after.bt.freed = freed ++ world.bt.freed ∧
      ∀ block ∈ freed, block ∈ world.bt.allocator.blocks ∧
        ∀ table slot, after.bt.table table slot = some block → Rewrites event table slot

variable {world : BlockTableWorld} {event : BlockTableEvent}

/-- The descriptor always has an entry that is in use. -/
theorem Good.descriptor (good : Good world) :
    ∃ old, world.bt.current.blockTranslation[reservedBlocknumDescriptor]? = some old ∧
      old.size ≠ sizeIsFree := by
  have reserved : 3 ≤ world.bt.current.smallestNeverUsedBlocknum := good.current.reserved
  obtain ⟨old, here⟩ := good.current.get (show reservedBlocknumDescriptor < _ by
    show 2 < _
    omega)
  exact ⟨old, here, good.current.kept (by decide) here⟩

/-- A reserved block number is not free, so it has no link. -/
theorem noLink_of_reserved {t : Option Translation} (ok : ∀ found ∈ t, found.Ok) {b : Nat}
    (early : b < reservedBlocknums) (offset : Int) : linkIsOffset t b offset = false := by
  -- The slot of a reserved number holds an offset, or nothing yet.
  cases t with
  | none => rfl
  | some t =>
    cases here : t.blockTranslation[b]? with
    | none => simp [linkIsOffset, here]
    | some pair => simp [linkIsOffset, here, (ok t rfl).kept early here]

/-- What is done without a block is good and frees nothing. -/
theorem Good.done {after : BlockTableWorld} (good : Good after)
    (same : after.bt.freed = world.bt.freed) (changed : TranslationType → Nat → Prop) :
    Done world changed after [] :=
  ⟨good, same, fun block wrong => by cases wrong⟩

/-- Whatever may be asked is done, and keeps the tables in order. -/
theorem next_ok (good : Good world) (allowed : world.Allowed event) (clear : world.Clear event) :
    ∃ after freed, world.next event = some after ∧ Done world (Rewrites event) after freed := by
  -- One case for each request, by the law of the function that serves it.
  cases event with
  | allocateBlocknum =>
    obtain ⟨b, current, given, ok, type, blocks, same⟩ := allocateBlocknum_ok good.current
    have goodAfter := @Good.renumbered world current true good ok type blocks (same _ (by decide))
      fun wrong => by cases wrong
    refine ⟨_, [], ?_, @Good.done world _ goodAfter rfl _⟩
    rw [next, BlockTable.allocateBlocknum, given]
    rfl
  | reallocOnDisk b size forCheckpoint =>
    obtain ⟨freeable, ⟨⟨old, here, used⟩, equal⟩, room⟩ := allowed
    obtain ⟨offset, bt, freed, served, done⟩ := reallocOnDiskInternal_ok good here used (by
        intro wrong
        rw [wrong] at freeable
        exact absurd freeable (by decide))
      (fun isFor => (equal isFor).1) (fun isFor => (equal isFor).2) room (clear old here)
    refine ⟨_, freed, ?_, done⟩
    have valid : world.bt.current.isValidFreeableBlocknum b = true := by
      simp [isValidFreeableBlocknum, freeable, good.current.below here used]
    rw [next, BlockTable.reallocOnDisk, invariant_of valid]
    simp only [Option.bind_eq_bind, Option.bind_some, served]
    rfl
  | reallocDescriptorOnDisk size =>
    obtain ⟨old, here, used⟩ := good.descriptor
    have rightly : 0 < old.size → PreventedRightly world.bt.inprogress (some world.bt.checkpointed)
        reservedBlocknumDescriptor old := by
      intro _
      unfold PreventedRightly
      rw [noLink_of_reserved good.inprogress (by decide),
        noLink_of_reserved (fun t member => Option.some.inj member ▸ good.checkpointed) (by decide)]
      exact ⟨fun wrong => (by cases wrong), fun wrong => (by cases wrong)⟩
    obtain ⟨offset, bt, freed, served, done⟩ := @reallocOnDiskInternal_ok world good
      reservedBlocknumDescriptor size old false here used (by decide) (fun wrong => by cases wrong)
      (fun wrong => by cases wrong) allowed rightly
    refine ⟨_, freed, ?_, done⟩
    rw [next, BlockTable.reallocDescriptorOnDisk, served]
    rfl
  | freeBlocknum b forCheckpoint =>
    obtain ⟨freeable, ⟨old, here, used⟩, equal⟩ := allowed
    obtain ⟨bt, freed, served, done⟩ := freeBlocknum_ok good here used freeable
      (fun isFor => (equal isFor).1) (fun isFor => (equal isFor).2) clear
    refine ⟨_, freed, ?_, done⟩
    rw [next, served]
    rfl
  | freeUnusedBlocknums root =>
    obtain ⟨current, given, ok, type, -, blocks, same⟩ := freeUnusedBlocknums_ok good.current root
      world.bt.current.smallestNeverUsedBlocknum (Nat.le_refl _)
    have goodAfter := good.renumbered ok type blocks (same _ (Or.inr (by decide)))
      fun clean => clean
    refine ⟨_, [], ?_, @Good.done world _ goodAfter rfl _⟩
    rw [next, BlockTable.freeUnusedBlocknums, given]
    rfl
  | noteStartCheckpoint =>
    obtain ⟨bt, started, same, goodAfter⟩ := noteStartCheckpoint_ok good allowed
    exact ⟨_, [], by rw [next, started]; rfl, goodAfter.done same _⟩
  | serializeTranslation =>
    obtain ⟨offset, bt, serialized, same, goodAfter⟩ :=
      serializeTranslation_ok good allowed.1 allowed.2
    exact ⟨_, [], by rw [next, serialized]; rfl, goodAfter.done same _⟩
  | noteSkippedCheckpoint =>
    obtain ⟨bt, skipped, same, goodAfter⟩ := noteSkippedCheckpoint_ok good allowed.1 allowed.2
    exact ⟨_, [], by rw [next, skipped]; rfl, goodAfter.done same _⟩
  | noteEndCheckpoint =>
    rcases allowed with isWritten | isSkipped
    · obtain ⟨bt, freed, ended, done⟩ := endWritten_ok good isWritten clear
      exact ⟨_, freed, by rw [next, ended]; rfl, done⟩
    · obtain ⟨bt, ended, same, goodAfter⟩ := endSkipped_ok good isSkipped
      exact ⟨_, [], by rw [next, ended]; rfl, goodAfter.done same _⟩

/-- Every table of a file is in order. -/
theorem Good.table_ok (good : Good world) {t : Translation} (member : t ∈ world.bt.tables) :
    t.Ok := by
  rcases List.mem_cons.mp member with rfl | member
  · exact good.current
  · rcases List.mem_cons.mp member with rfl | member
    · exact good.checkpointed
    · exact good.inprogress t (Option.mem_toList.mp member)

/-- A block that is in use is the block of an entry of one of the tables. -/
theorem referenced_iff {block : BlockPair} :
    Referenced world.bt.table block ↔
      ∃ t ∈ world.bt.tables, ∃ slot, t.blockAt slot = some block := by
  -- One case for each of the three tables.
  constructor
  · intro ⟨kind, slot, there⟩
    cases kind with
    | current => exact ⟨_, List.mem_cons_self, slot, there⟩
    | inprogress =>
      obtain ⟨t, found, here⟩ := of_bind there
      refine ⟨t, ?_, slot, here⟩
      simp [BlockTable.tables, found]
    | checkpointed => exact ⟨_, List.mem_cons_of_mem _ List.mem_cons_self, slot, there⟩
  · intro ⟨t, member, slot, there⟩
    rcases List.mem_cons.mp member with rfl | member
    · exact ⟨.current, slot, there⟩
    · rcases List.mem_cons.mp member with rfl | member
      · exact ⟨.checkpointed, slot, there⟩
      · refine ⟨.inprogress, slot, ?_⟩
        show blockAtOf world.bt.inprogress slot = _
        rw [Option.mem_toList.mp member]
        exact there

/-- Tables in order keep their promises. -/
theorem Good.exact (good : Good world) : Exact world := by
  -- The blocks given out are those of the entries, by the invariant of the pool.
  have pooled := good.pooled
  refine ⟨pooled.allocator.exact (by decide) (by decide), fun pair => ?_, pooled.allocator.nodup,
    fun event allowed clear => ?_, fun event after step => ?_⟩
  · constructor
    · rintro ⟨block, member, rfl⟩
      obtain ⟨t, inside, slot, there⟩ :=
        referenced_iff.mp ((pooled.blocks block).mp member)
      obtain ⟨pair, -, here, positive, rfl⟩ := of_blockAt there
      rw [← ((good.table_ok inside).pairs here).eq_of_pos positive]
      exact ⟨positive, t, inside, List.mem_of_getElem? here⟩
    · intro ⟨positive, t, inside, member⟩
      have ok := good.table_ok inside
      obtain ⟨slot, here⟩ := List.mem_iff_getElem?.mp member
      have found := blockAt_of_pos (ok.below here (used_of_pos positive)) here positive
      exact ⟨pair.block,
        (pooled.blocks pair.block).mpr (referenced_iff.mpr ⟨t, inside, slot, found⟩),
        (ok.pairs here).eq_of_pos positive⟩
  · obtain ⟨after, -, served, -⟩ := next_ok good allowed clear
    exact ⟨after, served⟩
  · obtain ⟨clear, allowed, served⟩ := step
    obtain ⟨other, freed, servedToo, done⟩ := next_ok good allowed clear
    rw [served] at servedToo
    obtain rfl := Option.some.inj servedToo
    exact ⟨freed, done.record, done.unused⟩

variable {start : BlockTableWorld} {events : List BlockTableEvent}

/-- The tables stay in order along every run that takes no link for an offset. -/
theorem Created.run_good (created : Created start) (run : Runs ClearStep start events world) :
    Good world := by
  -- By induction on the run: every step leaves the tables in order.
  apply run.invariant created.good
  intro before event after good step
  obtain ⟨clear, allowed, served⟩ := step
  obtain ⟨other, freed, servedToo, done⟩ := next_ok good allowed clear
  rw [served] at servedToo
  obtain rfl := Option.some.inj servedToo
  exact done.good

/-- The allocated blocks are those of the tables after every run that takes no
link for an offset. -/
theorem blockTable_exact (created : Created start) (run : Runs ClearStep start events world) :
    Exact world := (created.run_good run).exact

/-- Let the tables do what may be asked, when it takes no link for an offset. -/
def nextClear (world : BlockTableWorld) (event : BlockTableEvent) : Option BlockTableWorld := do
  invariant (world.Clear event)
  invariant (world.Allowed event)
  world.next event

/-- Let the tables do what may be asked. -/
def nextAllowed (world : BlockTableWorld) (event : BlockTableEvent) : Option BlockTableWorld := do
  invariant (world.Allowed event)
  world.next event

/-- What may be asked and is done clearly is a clear step. -/
theorem of_nextClear {world : BlockTableWorld} {after : BlockTableWorld}
    (done : world.nextClear event = some after) : ClearStep world event after := by
  obtain ⟨clear, done⟩ := of_invariant done
  exact ⟨clear, of_invariant done⟩

/-- What may be asked and is done is a step. -/
theorem of_nextAllowed {world : BlockTableWorld} {after : BlockTableWorld}
    (done : world.nextAllowed event = some after) : Step world event after :=
  of_invariant done

/-- A block of a new file is written again, once for a checkpoint and once after it. -/
theorem blockTable_exact_checkpoint : ∃ bt world, BlockTable.create = some bt ∧
    [BlockTableEvent.allocateBlocknum, .reallocOnDisk 3 100 false, .noteStartCheckpoint,
      .reallocOnDisk 3 200 true, .reallocOnDisk 3 300 false, .serializeTranslation,
      .noteEndCheckpoint, .freeBlocknum 3 false, .noteStartCheckpoint, .serializeTranslation,
      .noteEndCheckpoint].foldlM nextClear
        { bt, dirty := false, checkpointDirty := false, phase := .idle } = some world ∧
      world.bt.allocator.blocks = [⟨12288, 68⟩] ∧
      world.bt.freed = [⟨8192, 200⟩, ⟨16384, 84⟩, ⟨12288, 300⟩, ⟨8192, 100⟩] ∧ Exact world := by
  have served : ((BlockTable.create.bind fun bt =>
      [BlockTableEvent.allocateBlocknum, .reallocOnDisk 3 100 false, .noteStartCheckpoint,
        .reallocOnDisk 3 200 true, .reallocOnDisk 3 300 false, .serializeTranslation,
        .noteEndCheckpoint, .freeBlocknum 3 false, .noteStartCheckpoint, .serializeTranslation,
        .noteEndCheckpoint].foldlM nextClear
          { bt, dirty := false, checkpointDirty := false, phase := .idle }).map fun world =>
      (world.bt.allocator.blocks, world.bt.freed)) =
      some ([⟨12288, 68⟩], [⟨8192, 200⟩, ⟨16384, 84⟩, ⟨12288, 300⟩, ⟨8192, 100⟩]) := by
    decide +kernel
  obtain ⟨world, reached, both⟩ := Option.map_eq_some_iff.mp served
  obtain ⟨blocks, freed⟩ := Prod.mk.inj both
  obtain ⟨bt, created, folded⟩ := of_bind reached
  exact ⟨bt, world, created, folded, blocks, freed,
    blockTable_exact (.new created) ((Runs.of_foldlM folded).mono of_nextClear)⟩

/-- The pairs of a file with 8194 block numbers, of which all but 5 and 8192 have no block. -/
def filePairs (pair last : BlockTranslationPair) : List BlockTranslationPair :=
  [.unallocated, ⟨143360, 131124⟩, .unallocated, .unallocated, .unallocated, pair] ++
    List.replicate 8186 .unallocated ++ [last, .unallocated]

/-- The pairs of the file make sense when the two that are given do. -/
theorem filePairs_sound {pair last : BlockTranslationPair} (pairOk : PairOk pair)
    (lastOk : PairOk last) : ∀ other ∈ filePairs pair last, PairOk other := by
  intro other member
  simp only [filePairs, List.mem_append, List.mem_cons, List.mem_replicate,
    List.not_mem_nil] at member
  have empty : PairOk .unallocated := Or.inr (Or.inl rfl)
  rcases member with ((rfl | rfl | rfl | rfl | rfl | rfl | wrong) | ⟨-, rfl⟩) | rfl | rfl | wrong
  all_goals first | assumption | cases wrong | exact Or.inr (Or.inr (by decide))

/-- The file may be read when the two block numbers are free and linked to each other. -/
theorem filePairs_linked : SavedOk 8194 5 (filePairs (.free 8192) (.free freelistNull)) := by
  have blocks : savedBlocks (filePairs (.free 8192) (.free freelistNull)) = [⟨143360, 131124⟩] := by
    decide +kernel
  refine ⟨filePairs_sound (Or.inl rfl) (Or.inl rfl), by decide +kernel,
    ⟨[5, 8192], ?_, by decide, by decide⟩, ?_, ?_⟩
  · exact @Chain.cons _ 5 8192 [8192] (by decide +kernel) (.cons (by decide +kernel) .nil)
  · rw [blocks]
    intro block member
    rw [List.mem_singleton.mp member]
    exact ⟨by decide, by decide, by decide, by decide⟩
  · rw [blocks]
    exact List.pairwise_singleton _ _

/-- The file may be read when one of them has the first block of the file. -/
theorem filePairs_first : SavedOk 8194 (-1) (filePairs ⟨8192, 100⟩ .unallocated) := by
  have blocks : savedBlocks (filePairs ⟨8192, 100⟩ .unallocated) =
      [⟨143360, 131124⟩, ⟨8192, 100⟩] := by
    decide +kernel
  refine ⟨filePairs_sound (Or.inr (Or.inr (by decide))) (Or.inr (Or.inl rfl)), by decide +kernel,
    ⟨[], .nil, by decide, by decide⟩, ?_, ?_⟩
  · rw [blocks]
    intro block member
    rcases List.mem_cons.mp member with rfl | member
    · exact ⟨by decide, by decide, by decide, by decide⟩
    · rw [List.mem_singleton.mp member]
      exact ⟨by decide, by decide, by decide, by decide⟩
  · rw [blocks]
    exact List.pairwise_pair.mpr (Or.inr (by decide))

/-- A block may stay allocated though no table needs it, and the end of a checkpoint may stop. -/
theorem blockTable_leaks_and_stops :
    (∃ bt world, BlockTable.createFromBuffer 143360 131124 8194 5
        (filePairs (.free 8192) (.free freelistNull)) = some bt ∧
      Created { bt, dirty := false, checkpointDirty := false, phase := .idle } ∧
      Runs Step { bt, dirty := false, checkpointDirty := false, phase := .idle }
        [.allocateBlocknum, .reallocOnDisk 5 100 false, .reallocOnDisk 5 100 false] world ∧
      ⟨8192, 100⟩ ∈ world.bt.allocator.blocks ∧ ¬world.bt.Needs ⟨8192, 100⟩) ∧
    ∃ bt world, BlockTable.createFromBuffer 143360 131124 8194 (-1)
        (filePairs ⟨8192, 100⟩ .unallocated) = some bt ∧
      Created { bt, dirty := false, checkpointDirty := false, phase := .idle } ∧
      Runs Step { bt, dirty := false, checkpointDirty := false, phase := .idle }
        [.reallocOnDisk 5 100 false, .noteStartCheckpoint, .serializeTranslation,
          .freeBlocknum 8192 false, .freeBlocknum 5 false] world ∧
      world.Allowed .noteEndCheckpoint ∧ (world.next .noteEndCheckpoint).isNone = true := by
  constructor
  · have served : (((BlockTable.createFromBuffer 143360 131124 8194 5
        (filePairs (.free 8192) (.free freelistNull))).bind fun bt =>
        [BlockTableEvent.allocateBlocknum, .reallocOnDisk 5 100 false,
          .reallocOnDisk 5 100 false].foldlM nextAllowed
            { bt, dirty := false, checkpointDirty := false, phase := .idle }).map fun world =>
        decide (⟨8192, 100⟩ ∈ world.bt.allocator.blocks ∧ ¬world.bt.Needs ⟨8192, 100⟩)) =
        some true := by
      decide +kernel
    obtain ⟨world, reached, leaked⟩ := Option.map_eq_some_iff.mp served
    obtain ⟨bt, created, folded⟩ := of_bind reached
    exact ⟨bt, world, created, .fromBuffer filePairs_linked created,
      (Runs.of_foldlM folded).mono of_nextAllowed, of_decide_eq_true leaked⟩
  · have served : (((BlockTable.createFromBuffer 143360 131124 8194 (-1)
        (filePairs ⟨8192, 100⟩ .unallocated)).bind fun bt =>
        [BlockTableEvent.reallocOnDisk 5 100 false, .noteStartCheckpoint, .serializeTranslation,
          .freeBlocknum 8192 false, .freeBlocknum 5 false].foldlM nextAllowed
            { bt, dirty := false, checkpointDirty := false, phase := .idle }).map fun world =>
        decide (world.Allowed .noteEndCheckpoint ∧
          (world.next .noteEndCheckpoint).isNone = true)) = some true := by
      decide +kernel
    obtain ⟨world, reached, stopped⟩ := Option.map_eq_some_iff.mp served
    obtain ⟨bt, created, folded⟩ := of_bind reached
    exact ⟨bt, world, created, .fromBuffer filePairs_first created,
      (Runs.of_foldlM folded).mono of_nextAllowed, of_decide_eq_true stopped⟩

end BlockTableWorld

end Tokuft
