import Tokuft.Blocks.BlockTableExact

/-! The report on the fragmentation of a file counts every allocated block once. -/

namespace Tokuft

open Translation

/-- The header in front of the blocks is there twice. -/
def blockAllocatorHeaderReserve : Nat := 4096

/-- What is told about the bytes of a file. -/
structure Fragmentation where
  fileSizeBytes : Nat
  dataBytes : Nat
  dataBlocks : Nat
  checkpointBytesAdditional : Nat
  checkpointBlocksAdditional : Nat
  unusedBytes : Nat
  unusedBlocks : Nat
  largestUnusedBlock : Nat
  deriving DecidableEq, Repr

namespace Fragmentation

/-- Count the room of a hole from its first aligned offset on, in 64-bit words. -/
def visUnusedCollector (alignment : Nat) (report : Fragmentation) (hole : MhsRbTree.Hole) :
    Option Fragmentation := do
  let answerOffset := MhsRbTree.align alignment hole.offset
  let freeSpace ← MhsRbTree.ouSub hole.end answerOffset
  if 0 < freeSpace then
    return {
      report with
      unusedBytes := (report.unusedBytes + freeSpace) % 2 ^ 64
      unusedBlocks := report.unusedBlocks + 1
      largestUnusedBlock := max report.largestUnusedBlock freeSpace }
  else return report

end Fragmentation

/-- Tell about the holes, once the blocks that are counted are those in use. -/
def BlockAllocator.unusedStatistics (ba : BlockAllocator) (report : Fragmentation) :
    Option Fragmentation := do
  invariant (ba.nBytesInUse = report.dataBytes + report.checkpointBytesAdditional)
  (MhsRbTree.inorder ba.tree).foldlM (Fragmentation.visUnusedCollector ba.alignment)
    { report with unusedBytes := 0, unusedBlocks := 0, largestUnusedBlock := 0 }

/-- Whether a table has a block at the same offset for a block number. -/
def Translation.sharesBlock (t : Translation) (i : Nat) (pair : BlockTranslationPair) : Bool :=
  t.blockTranslation[i]?.any fun other => decide (0 < other.size) && other.u == pair.u

namespace BlockTable

/-- Add the pairs of a table that are counted, from an index on, to the bytes and the blocks. -/
def countPairs (counted : Nat → BlockTranslationPair → Bool) :
    Nat → List BlockTranslationPair → Nat × Nat → Nat × Nat
  | _, [], counts => counts
  | i, pair :: rest, (bytes, blocks) =>
    countPairs counted (i + 1) rest
      (if counted i pair then (bytes + pair.size.toNat, blocks + 1) else (bytes, blocks))

/-- Count the bytes of the blocks in use, and those that only checkpoints use. -/
def countBlocks (bt : BlockTable) (fileSizeBytes : Nat) : Fragmentation :=
  let data := countPairs (fun _ pair => 0 < pair.size) 0 bt.current.blockTranslation
    (blockAllocatorHeaderReserve, 1)
  let checkpointed := countPairs
    (fun i pair => 0 < pair.size && !bt.current.sharesBlock i pair)
    0 bt.checkpointed.blockTranslation (blockAllocatorHeaderReserve, 1)
  let additional := countPairs
    (fun i pair => 0 < pair.size && !bt.current.sharesBlock i pair &&
      !bt.checkpointed.sharesBlock i pair)
    0 ((bt.inprogress.map Translation.blockTranslation).getD []) checkpointed
  { fileSizeBytes
    dataBytes := data.1
    dataBlocks := data.2
    checkpointBytesAdditional := additional.1
    checkpointBlocksAdditional := additional.2
    unusedBytes := 0
    unusedBlocks := 0
    largestUnusedBlock := 0 }

/-- Report on the blocks in use and on the holes. -/
def getFragmentation (bt : BlockTable) (fileSizeBytes : Nat) : Option Fragmentation :=
  bt.allocator.ba.unusedStatistics (bt.countBlocks fileSizeBytes)

/-- The blocks that are counted, from an index on. -/
def countedBlocks (counted : Nat → BlockTranslationPair → Bool) :
    Nat → List BlockTranslationPair → List BlockPair
  | _, [] => []
  | i, pair :: rest =>
    if counted i pair then pair.block :: countedBlocks counted (i + 1) rest
    else countedBlocks counted (i + 1) rest

/-- Counting adds the bytes and the number of the counted blocks. -/
theorem countPairs_eq (counted : Nat → BlockTranslationPair → Bool) (i : Nat)
    (pairs : List BlockTranslationPair) (counts : Nat × Nat) :
    countPairs counted i pairs counts =
      (counts.1 + AllocatorWorld.bytesOf (countedBlocks counted i pairs),
        counts.2 + (countedBlocks counted i pairs).length) := by
  -- By induction on the pairs, with the counts as accumulator.
  induction pairs generalizing i counts with
  | nil => rfl
  | cons pair rest ih =>
    obtain ⟨bytes, blocks⟩ := counts
    rw [countPairs, ih, countedBlocks]
    split
    · simp only [AllocatorWorld.bytesOf, List.map_cons, List.sum_cons, List.length_cons,
        BlockTranslationPair.block, Prod.mk.injEq]
      omega
    · rfl

section

variable {counted : Nat → BlockTranslationPair → Bool} {i : Nat} {pairs : List BlockTranslationPair}

/-- A block is counted when a pair with it is. -/
theorem mem_countedBlocks {block : BlockPair} :
    block ∈ countedBlocks counted i pairs ↔
      ∃ slot pair, pairs[slot]? = some pair ∧ counted (i + slot) pair = true ∧
        pair.block = block := by
  -- By induction on the pairs.
  induction pairs generalizing i with
  | nil => simp [countedBlocks]
  | cons first rest ih =>
    rw [countedBlocks]
    constructor
    · intro member
      split at member
      · rename_i here
        obtain rfl | member := List.mem_cons.mp member
        · exact ⟨0, first, rfl, here, rfl⟩
        · obtain ⟨slot, pair, there, isCounted, same⟩ := ih.mp member
          exact ⟨slot + 1, pair, there, by rwa [Nat.add_right_comm] at isCounted, same⟩
      · obtain ⟨slot, pair, there, isCounted, same⟩ := ih.mp member
        exact ⟨slot + 1, pair, there, by rwa [Nat.add_right_comm] at isCounted, same⟩
    · intro ⟨slot, pair, there, isCounted, same⟩
      cases slot with
      | zero =>
        cases there
        rw [Nat.add_zero] at isCounted
        rw [if_pos isCounted, same]
        exact List.mem_cons_self
      | succ slot =>
        have later : block ∈ countedBlocks counted (i + 1) rest :=
          ih.mpr ⟨slot, pair, there, by rwa [Nat.add_right_comm], same⟩
        split
        · exact List.mem_cons_of_mem _ later
        · exact later

/-- Blocks are counted once when the pairs with a block that are counted are one pair. -/
theorem nodup_countedBlocks
    (oneSlot : ∀ {slot place : Nat} {pair other : BlockTranslationPair},
      pairs[slot]? = some pair → pairs[place]? = some other → counted (i + slot) pair = true →
      counted (i + place) other = true → pair.block = other.block → slot = place) :
    (countedBlocks counted i pairs).Nodup := by
  induction pairs generalizing i with
  | nil => exact List.nodup_nil
  | cons first rest ih =>
    have others : (countedBlocks counted (i + 1) rest).Nodup := by
      apply ih
      intro slot place pair other here there isCounted alsoCounted same
      have equal := @oneSlot (slot + 1) (place + 1) pair other here there
        (by rwa [← Nat.add_assoc, Nat.add_right_comm])
          (by rwa [← Nat.add_assoc, Nat.add_right_comm])
        same
      omega
    rw [countedBlocks]
    split
    · -- The first block is the block of no other pair.
      rename_i isCounted
      refine List.nodup_cons.mpr ⟨fun member => ?_, others⟩
      obtain ⟨slot, pair, there, alsoCounted, same⟩ := mem_countedBlocks.mp member
      have equal := @oneSlot 0 (slot + 1) first pair rfl there isCounted
        (by rwa [← Nat.add_assoc, Nat.add_right_comm]) same.symm
      omega
    · exact others

end

end BlockTable

open Translation SlotTables
open MhsRbTree (mhsMaxVal inorder)

namespace AllocatorWorld

variable {reserve alignment : Nat} {world : AllocatorWorld}

/-- A hole ends at infinity or where a block starts, which is aligned. -/
theorem Good.hole_end (good : Good reserve alignment world) {hole : MhsRbTree.Hole}
    (member : hole ∈ inorder world.ba.tree) :
    hole.end = mhsMaxVal ∨ hole.end % alignment = 0 := by
  have nonempty := good.tree.nonempty member
  have start := hole.finite nonempty
  have bound := hole.end_le start
  by_cases infinite : hole.end = mhsMaxVal
  · exact .inl infinite
  · -- The point behind the hole is in a block, and the last point of the hole is not.
    have maximal : Spans.IsMaximal (Spans.covered (MhsRbTree.spans world.ba.tree)) hole.span :=
      (good.tree.separated.mem_iff_isMaximal).mp (List.mem_map_of_mem member)
    rw [good.covered_eq] at maximal
    have last : hole.end - 1 ∈ unallocated reserve world.blocks :=
      maximal.inside ⟨show hole.offset ≤ _ by omega, show _ < hole.end by omega⟩
    have held : ∃ pair ∈ world.blocks, pair.offset ≤ hole.end ∧ hole.end < pair.end := by
      by_contra none
      have free : hole.end ∈ unallocated reserve world.blocks := by
        have low := last.1
        exact ⟨by omega, by omega, fun pair held both => none ⟨pair, held, both⟩⟩
      have longer : Set.Ico hole.offset (hole.end + 1) ⊆ unallocated reserve world.blocks := by
        intro point inside
        have before : point < hole.end + 1 := inside.2
        by_cases same : point = hole.end
        · rw [same]
          exact free
        · exact maximal.inside ⟨inside.1, show point < hole.end by omega⟩
      have same : hole.end + 1 = hole.end :=
        (maximal.greatest hole.offset (hole.end + 1) (Nat.le_refl _) (Nat.le_succ _) longer).2
      omega
    obtain ⟨pair, inside, from_, behind⟩ := held
    have apart := last.2.2 pair inside
    have starts : pair.offset = hole.end := by omega
    exact .inr (starts ▸ (good.placed pair inside).aligned)

/-- Rounding up stays below an aligned number that is greater. -/
theorem align_le {offset last : Nat} (multiple : alignment ∣ 2 ^ 64) (positive : 0 < alignment)
    (aligned : last % alignment = 0) (before : offset < last) (bound : last < 2 ^ 64) :
    MhsRbTree.align alignment offset ≤ last := by
  -- Both are multiples of the alignment, and nothing wraps below the greater one.
  obtain ⟨count, rfl⟩ := Nat.dvd_of_mod_eq_zero aligned
  obtain ⟨whole, all⟩ := multiple
  have room : count < whole := by
    rw [all] at bound
    exact Nat.lt_of_mul_lt_mul_left bound
  have top : alignment * count + alignment ≤ 2 ^ 64 := by
    rw [all, ← Nat.mul_succ]
    exact Nat.mul_le_mul_left alignment room
  rw [MhsRbTree.align, Nat.mod_eq_of_lt (by omega), Nat.mul_comm alignment count]
  apply Nat.mul_le_mul_right
  rw [Nat.mul_comm] at before
  rw [Nat.div_le_iff_le_mul_add_pred positive]
  rw [Nat.mul_comm count] at before
  omega

section

variable (good : Good reserve alignment world) (multiple : alignment ∣ 2 ^ 64)
  (above : 1 < alignment)
include good multiple above

/-- No hole stops the report. -/
theorem Good.visUnused {hole : MhsRbTree.Hole} (member : hole ∈ inorder world.ba.tree)
    (report : Fragmentation) :
    ∃ after, Fragmentation.visUnusedCollector alignment report hole = some after ∧
      after.dataBytes = report.dataBytes ∧
      after.checkpointBytesAdditional = report.checkpointBytesAdditional := by
  have answered : ∃ free, MhsRbTree.ouSub hole.end (MhsRbTree.align alignment hole.offset) =
      some free := by
    have finite : MhsRbTree.align alignment hole.offset ≠ mhsMaxVal := by
      -- The greatest number is not aligned.
      intro wrong
      obtain ⟨whole, all⟩ := multiple
      have divides : alignment ∣ mhsMaxVal := by
        rw [← wrong, MhsRbTree.align]
        exact Nat.dvd_mul_left _ _
      have one : alignment ∣ 1 := by
        have difference := Nat.dvd_sub (show alignment ∣ 2 ^ 64 from ⟨whole, all⟩) divides
        exact difference
      exact absurd (Nat.dvd_one.mp one) (by omega)
    rw [MhsRbTree.ouSub, invariant_of finite]
    by_cases infinite : hole.end = mhsMaxVal
    · exact ⟨hole.end, by simp [infinite]⟩
    · have nonempty := good.tree.nonempty member
      have bound := hole.end_le (hole.finite nonempty)
      have aligned := (good.hole_end member).resolve_left infinite
      have below := align_le multiple (by omega) aligned nonempty (by
        rw [mhsMaxVal] at bound
        omega)
      exact ⟨hole.end - MhsRbTree.align alignment hole.offset, by simp [infinite, below]⟩
  obtain ⟨free, answered⟩ := answered
  rw [Fragmentation.visUnusedCollector]
  simp only [answered, bind_runs]
  split
  · exact ⟨_, rfl, rfl, rfl⟩
  · exact ⟨_, rfl, rfl, rfl⟩

/-- When the blocks that are counted are those in use, the report is made. -/
theorem Good.unusedStatistics {report : Fragmentation}
    (counted : world.ba.nBytesInUse = report.dataBytes + report.checkpointBytesAdditional) :
    ∃ after, world.ba.unusedStatistics report = some after ∧
      after.dataBytes = report.dataBytes ∧
      after.checkpointBytesAdditional = report.checkpointBytesAdditional := by
  -- Every hole is counted in turn.
  have general : ∀ (holes : List MhsRbTree.Hole) (report : Fragmentation),
      (∀ hole ∈ holes, hole ∈ inorder world.ba.tree) →
      ∃ after, holes.foldlM (Fragmentation.visUnusedCollector alignment) report = some after ∧
        after.dataBytes = report.dataBytes ∧
        after.checkpointBytesAdditional = report.checkpointBytesAdditional := by
    intro holes
    induction holes with
    | nil =>
      intro report _
      exact ⟨report, rfl, rfl, rfl⟩
    | cons hole rest ih =>
      intro report members
      obtain ⟨next, visited, data, additional⟩ :=
        good.visUnused multiple above (members hole List.mem_cons_self) report
      obtain ⟨after, others, dataAfter, additionalAfter⟩ :=
        ih next fun other member => members other (List.mem_cons_of_mem _ member)
      refine ⟨after, ?_, dataAfter.trans data, additionalAfter.trans additional⟩
      rw [List.foldlM_cons, visited]
      exact others
  rw [BlockAllocator.unusedStatistics, invariant_of counted, good.aligned]
  exact general _ { report with unusedBytes := 0, unusedBlocks := 0, largestUnusedBlock := 0 }
    fun _ member => member

end

end AllocatorWorld

namespace BlockTableWorld

variable {world : BlockTableWorld} {t other : Translation}

/-- A table that shares the offset of a block has the block. -/
theorem Good.sharesBlock_iff (good : Good world) (member : t ∈ world.bt.tables)
    (otherMember : other ∈ world.bt.tables) {slot : Nat} {pair : BlockTranslationPair}
    (here : t.blockTranslation[slot]? = some pair) (positive : 0 < pair.size) :
    other.sharesBlock slot pair = true ↔ other.blockAt slot = some pair.block := by
  have ok := good.table_ok member
  have otherOk := good.table_ok otherMember
  have held : pair.block ∈ world.bt.allocator.blocks :=
    (good.pooled.blocks _).mpr (referenced_iff.mpr ⟨t, member, slot,
      blockAt_of_pos (ok.below here (used_of_pos positive)) here positive⟩)
  rw [Translation.sharesBlock, Option.any_eq_true]
  constructor
  · intro ⟨found, there, same⟩
    simp only [Bool.and_eq_true, decide_eq_true_eq, beq_iff_eq] at same
    obtain ⟨foundPositive, offset⟩ := same
    have below := otherOk.below there (used_of_pos foundPositive)
    have block := blockAt_of_pos below there foundPositive
    -- Blocks with the same offset are the same.
    have heldToo : found.block ∈ world.bt.allocator.blocks :=
      (good.pooled.blocks _).mpr (referenced_iff.mpr ⟨other, otherMember, slot, block⟩)
    have equal := good.pooled.allocator.eq_of_offset heldToo held
      (by simp only [BlockTranslationPair.block, offset])
    rw [block, equal]
  · intro found
    obtain ⟨other, below, there, otherPositive, same⟩ := of_blockAt found
    refine ⟨other, there, ?_⟩
    have pairEq := (ok.pairs here).eq_of_pos positive
    have otherEq := (otherOk.pairs there).eq_of_pos otherPositive
    have equal : other = pair := otherEq.trans (by rw [same]; exact pairEq.symm)
    simp only [Bool.and_eq_true, decide_eq_true_eq, beq_iff_eq]
    exact ⟨otherPositive, by rw [equal]⟩

/-- The blocks of a table that some others do not share. -/
def ownBlocks (t : Translation) (others : List Translation) : List BlockPair :=
  BlockTable.countedBlocks
    (fun i pair => decide (0 < pair.size) && others.all fun other => !other.sharesBlock i pair)
    0 t.blockTranslation

variable {others : List Translation} {block : BlockPair}

section

variable (good : Good world)
include good

/-- They are those that the table has where none of the others does. -/
theorem Good.mem_ownBlocks (member : t ∈ world.bt.tables)
    (members : ∀ other ∈ others, other ∈ world.bt.tables) : block ∈ ownBlocks t others ↔
      ∃ slot, t.blockAt slot = some block ∧ ∀ other ∈ others, other.blockAt slot ≠ some block := by
  -- The loop compares the pairs of one block number in the tables.
  rw [ownBlocks, BlockTable.mem_countedBlocks]
  constructor
  · intro ⟨slot, pair, here, counted, same⟩
    simp only [Nat.zero_add, Bool.and_eq_true, decide_eq_true_eq, List.all_eq_true,
      Bool.not_eq_true'] at counted
    obtain ⟨positive, alone⟩ := counted
    have below := (good.table_ok member).below here (used_of_pos positive)
    refine ⟨slot, by rw [blockAt_of_pos below here positive, same], fun other inside found => ?_⟩
    have shares := (good.sharesBlock_iff member (members other inside) here positive).mpr
      (by rw [found, same])
    rw [alone other inside] at shares
    cases shares
  · intro ⟨slot, found, alone⟩
    obtain ⟨pair, below, here, positive, same⟩ := of_blockAt found
    refine ⟨slot, pair, here, ?_, same⟩
    simp only [Nat.zero_add, Bool.and_eq_true, decide_eq_true_eq, List.all_eq_true,
      Bool.not_eq_true']
    refine ⟨positive, fun other inside => ?_⟩
    by_contra shares
    rw [Bool.not_eq_false] at shares
    have elsewhere := (good.sharesBlock_iff member (members other inside) here positive).mp shares
    exact alone other inside (by rw [elsewhere, same])

/-- A block belongs to one block number in all tables. -/
theorem Good.slot_eq (member : t ∈ world.bt.tables) (otherMember : other ∈ world.bt.tables)
    {slot place : Nat} (here : t.blockAt slot = some block)
    (there : other.blockAt place = some block) :
    slot = place := by
  -- The tables share the blocks of the allocator, each of which has one slot.
  have kind : ∀ t ∈ world.bt.tables, ∃ kind, ∀ slot block, t.blockAt slot = some block →
      world.bt.table kind slot = some block := by
    intro t member
    obtain rfl | member := List.mem_cons.mp member
    · exact ⟨.current, fun slot block found => found⟩
    · obtain rfl | member := List.mem_cons.mp member
      · exact ⟨.checkpointed, fun slot block found => found⟩
      · refine ⟨.inprogress, fun slot block found => ?_⟩
        show blockAtOf world.bt.inprogress slot = _
        rw [Option.mem_toList.mp member]
        exact found
  obtain ⟨first, isFirst⟩ := kind t member
  obtain ⟨second, isSecond⟩ := kind other otherMember
  exact good.pooled.oneSlot (isFirst slot block here) (isSecond place block there)

/-- A table has each of its own blocks once. -/
theorem Good.nodup_ownBlocks (others : List Translation) (member : t ∈ world.bt.tables) :
    (ownBlocks t others).Nodup := by
  -- Two slots of one table have different blocks.
  apply BlockTable.nodup_countedBlocks
  intro slot place pair other here there counted alsoCounted same
  rw [Bool.and_eq_true, decide_eq_true_eq] at counted alsoCounted
  have ok := good.table_ok member
  have first := blockAt_of_pos (ok.below here (used_of_pos counted.1)) here counted.1
  have second := blockAt_of_pos (ok.below there (used_of_pos alsoCounted.1)) there alsoCounted.1
  exact good.slot_eq member member first (by rw [second, same])

/-- Blocks that a table does not share with another one are none of the other's. -/
theorem Good.disjoint_ownBlocks {more : List Translation} (member : t ∈ world.bt.tables)
    (otherMember : other ∈ world.bt.tables) (members : ∀ other ∈ others, other ∈ world.bt.tables)
    (moreMembers : ∀ other ∈ more, other ∈ world.bt.tables) (shares : other ∈ others)
    (own : block ∈ ownBlocks t others) : block ∉ ownBlocks other more := by
  -- A block in both would have one slot, at which the tables share it.
  intro alsoOwn
  obtain ⟨slot, here, alone⟩ := (good.mem_ownBlocks member members).mp own
  obtain ⟨place, there, _⟩ := (good.mem_ownBlocks otherMember moreMembers).mp alsoOwn
  have same := good.slot_eq member otherMember here there
  subst same
  exact alone other shares there

end

/-- The blocks that a table is reported with. -/
theorem countPairs_own (counts : Nat × Nat) {counted : Nat → BlockTranslationPair → Bool}
    (same : ∀ i pair, counted i pair =
      (decide (0 < pair.size) && others.all fun other => !other.sharesBlock i pair)) :
    (BlockTable.countPairs counted 0 t.blockTranslation counts).1 =
      counts.1 + AllocatorWorld.bytesOf (ownBlocks t others) := by
  have equal : counted = fun i pair =>
      decide (0 < pair.size) && others.all fun other => !other.sharesBlock i pair :=
    funext fun i => funext fun pair => same i pair
  rw [BlockTable.countPairs_eq, equal]
  rfl

/-- Every table with some that come before it has its own blocks, and together they have all. -/
theorem Good.perm_ownBlocks (good : Good world) :
    (ownBlocks world.bt.current [] ++
      (ownBlocks world.bt.checkpointed [world.bt.current] ++
        world.bt.inprogress.toList.flatMap fun t =>
          ownBlocks t [world.bt.current, world.bt.checkpointed])).Perm
      world.bt.allocator.blocks := by
  have isCurrent : world.bt.current ∈ world.bt.tables := List.mem_cons_self
  have isCheckpointed : world.bt.checkpointed ∈ world.bt.tables :=
    List.mem_cons_of_mem _ List.mem_cons_self
  have isInprogress : ∀ t ∈ world.bt.inprogress, t ∈ world.bt.tables := fun t found =>
    List.mem_cons_of_mem _ (List.mem_cons_of_mem _ (Option.mem_toList.mpr found))
  have noOther : ∀ other ∈ ([] : List Translation), other ∈ world.bt.tables :=
    fun _ wrong => by cases wrong
  have first : ∀ other ∈ [world.bt.current], other ∈ world.bt.tables := fun other inside => by
    rw [List.mem_singleton.mp inside]
    exact isCurrent
  have both : ∀ other ∈ [world.bt.current, world.bt.checkpointed], other ∈ world.bt.tables := by
    intro other inside
    obtain rfl | inside := List.mem_cons.mp inside
    · exact isCurrent
    · rw [List.mem_singleton.mp inside]
      exact isCheckpointed
  refine (List.perm_ext_iff_of_nodup ?_ good.pooled.allocator.nodup).mpr fun block => ?_
  · -- No block is counted twice: the later tables leave out what the earlier ones have.
    have rest : (ownBlocks world.bt.checkpointed [world.bt.current] ++
        world.bt.inprogress.toList.flatMap fun t =>
          ownBlocks t [world.bt.current, world.bt.checkpointed]).Nodup := by
      cases found : world.bt.inprogress with
      | none => simpa using good.nodup_ownBlocks [world.bt.current] isCheckpointed
      | some t =>
        have member := isInprogress t found
        simp only [Option.toList_some, List.flatMap_cons, List.flatMap_nil, List.append_nil]
        refine List.nodup_append.mpr ⟨good.nodup_ownBlocks _ isCheckpointed,
          good.nodup_ownBlocks _ member, fun block own other alsoOwn same => ?_⟩
        subst same
        exact good.disjoint_ownBlocks member isCheckpointed both first (by simp) alsoOwn own
    refine List.nodup_append.mpr ⟨good.nodup_ownBlocks _ isCurrent, rest,
      fun block own other alsoOwn same => ?_⟩
    subst same
    obtain inCheckpointed | inInprogress := List.mem_append.mp alsoOwn
    · exact good.disjoint_ownBlocks isCheckpointed isCurrent first noOther (by simp)
        inCheckpointed own
    · obtain ⟨t, found, alsoOwn⟩ := List.mem_flatMap.mp inInprogress
      exact good.disjoint_ownBlocks (isInprogress t (Option.mem_toList.mp found)) isCurrent both
        noOther (by simp) alsoOwn own
  · rw [good.pooled.blocks, referenced_iff, List.mem_append, List.mem_append, List.mem_flatMap]
    constructor
    · rintro (own | own | ⟨t, found, own⟩)
      · obtain ⟨slot, here, _⟩ := (good.mem_ownBlocks isCurrent noOther).mp own
        exact ⟨_, isCurrent, slot, here⟩
      · obtain ⟨slot, here, _⟩ := (good.mem_ownBlocks isCheckpointed first).mp own
        exact ⟨_, isCheckpointed, slot, here⟩
      · have member := isInprogress t (Option.mem_toList.mp found)
        obtain ⟨slot, here, _⟩ := (good.mem_ownBlocks member both).mp own
        exact ⟨t, member, slot, here⟩
    · intro ⟨t, member, slot, here⟩
      -- The first of the tables that has the block counts it.
      by_cases inCurrent : world.bt.current.blockAt slot = some block
      · exact .inl ((good.mem_ownBlocks isCurrent noOther).mpr
          ⟨slot, inCurrent, fun _ wrong => by cases wrong⟩)
      · by_cases inCheckpointed : world.bt.checkpointed.blockAt slot = some block
        · refine .inr (.inl ((good.mem_ownBlocks isCheckpointed first).mpr
            ⟨slot, inCheckpointed, fun other inside => ?_⟩))
          rw [List.mem_singleton.mp inside]
          exact inCurrent
        · obtain rfl | member := List.mem_cons.mp member
          · exact absurd here inCurrent
          · obtain rfl | found := List.mem_cons.mp member
            · exact absurd here inCheckpointed
            · refine .inr (.inr ⟨t, found, (good.mem_ownBlocks
                (isInprogress t (Option.mem_toList.mp found)) both).mpr
                ⟨slot, here, fun other inside => ?_⟩⟩)
              obtain rfl | inside := List.mem_cons.mp inside
              · exact inCurrent
              · rw [List.mem_singleton.mp inside]
                exact inCheckpointed

/-- In a state where the tables are in order the blocks that are counted are those in use. -/
theorem Good.countBlocks (good : Good world) (fileSizeBytes : Nat) :
    world.bt.allocator.ba.nBytesInUse = (world.bt.countBlocks fileSizeBytes).dataBytes +
      (world.bt.countBlocks fileSizeBytes).checkpointBytesAdditional := by
  have total : AllocatorWorld.bytesOf (ownBlocks world.bt.current []) +
      (AllocatorWorld.bytesOf (ownBlocks world.bt.checkpointed [world.bt.current]) +
        AllocatorWorld.bytesOf (world.bt.inprogress.toList.flatMap fun t =>
          ownBlocks t [world.bt.current, world.bt.checkpointed])) =
      AllocatorWorld.bytesOf world.bt.allocator.blocks := by
    have sums := (good.perm_ownBlocks.map BlockPair.size).sum_nat
    simpa only [AllocatorWorld.bytesOf, List.map_append, List.sum_append] using sums
  have inUse := good.pooled.allocator.bytes
  rw [← total] at inUse
  unfold BlockTable.countBlocks
  extract_lets data checkpointed additional
  have isData : data.1 = blockAllocatorHeaderReserve +
      AllocatorWorld.bytesOf (ownBlocks world.bt.current []) :=
    countPairs_own _ fun i pair => by simp
  have isCheckpointed : checkpointed.1 = blockAllocatorHeaderReserve +
      AllocatorWorld.bytesOf (ownBlocks world.bt.checkpointed [world.bt.current]) :=
    countPairs_own _ fun i pair => by simp
  have isAdditional : additional.1 = checkpointed.1 +
      AllocatorWorld.bytesOf (world.bt.inprogress.toList.flatMap fun t =>
        ownBlocks t [world.bt.current, world.bt.checkpointed]) := by
    show (BlockTable.countPairs _ 0 ((world.bt.inprogress.map _).getD []) _).1 = _
    cases found : world.bt.inprogress with
    | none => rfl
    | some t =>
      simp only [Option.map_some, Option.getD_some, Option.toList_some, List.flatMap_cons,
        List.flatMap_nil, List.append_nil]
      exact countPairs_own _ fun i pair => by simp [Bool.and_assoc]
  -- The two headers are the reserve of the allocator.
  show world.bt.allocator.ba.nBytesInUse = data.1 + additional.1
  rw [inUse, isAdditional, isData, isCheckpointed]
  simp only [blockAllocatorTotalHeaderReserve, blockAllocatorHeaderReserve]
  omega

variable {start : BlockTableWorld} {events : List BlockTableEvent}

/-- After every run that takes no link for an offset the report is made, and the bytes it counts
are those that the allocator has in use. -/
theorem fragmentation_exact (created : Created start) (run : Runs ClearStep start events world)
    (fileSizeBytes : Nat) : ∃ report, world.bt.getFragmentation fileSizeBytes = some report ∧
      report.dataBytes + report.checkpointBytesAdditional =
        world.bt.allocator.ba.nBytesInUse := by
  have good := created.run_good run
  have counted := good.countBlocks fileSizeBytes
  obtain ⟨report, made, data, additional⟩ :=
    good.pooled.allocator.unusedStatistics (by decide) (by decide) counted
  exact ⟨report, made, by rw [data, additional, counted]⟩

/-- A file is reported on while a checkpoint is written, with blocks of all three tables. -/
theorem fragmentation_exact_begun : ∃ bt world, BlockTable.create = some bt ∧
    [BlockTableEvent.allocateBlocknum, .reallocOnDisk 3 100 false, .noteStartCheckpoint,
      .serializeTranslation, .noteEndCheckpoint, .reallocOnDisk 3 200 false, .noteStartCheckpoint,
      .reallocOnDisk 3 300 true, .reallocOnDisk 3 400 false].foldlM nextClear
        { bt, dirty := false, checkpointDirty := false, phase := .idle } = some world ∧
      (world.bt.getFragmentation 32768).map (fun report =>
        (report.dataBytes, report.checkpointBytesAdditional)) = some (4496, 4580) ∧
      ∃ report, world.bt.getFragmentation 32768 = some report ∧
        report.dataBytes + report.checkpointBytesAdditional =
          world.bt.allocator.ba.nBytesInUse := by
  have served : ((BlockTable.create.bind fun bt =>
      [BlockTableEvent.allocateBlocknum, .reallocOnDisk 3 100 false, .noteStartCheckpoint,
        .serializeTranslation, .noteEndCheckpoint, .reallocOnDisk 3 200 false,
        .noteStartCheckpoint, .reallocOnDisk 3 300 true, .reallocOnDisk 3 400 false].foldlM
          nextClear { bt, dirty := false, checkpointDirty := false, phase := .idle }).map
      fun world => (world.bt.getFragmentation 32768).map fun report =>
        (report.dataBytes, report.checkpointBytesAdditional)) = some (some (4496, 4580)) := by
    decide +kernel
  obtain ⟨world, reached, reported⟩ := Option.map_eq_some_iff.mp served
  obtain ⟨bt, created, folded⟩ := of_bind reached
  exact ⟨bt, world, created, folded, reported,
    fragmentation_exact (.new created) ((Runs.of_foldlM folded).mono of_nextClear) 32768⟩

/-- A block that no table needs stays allocated, and the report stops at what it counted. -/
theorem fragmentation_stops : ∃ bt world, BlockTable.createFromBuffer 143360 131124 8194 5
      (filePairs (.free 8192) (.free freelistNull)) = some bt ∧
    Created { bt, dirty := false, checkpointDirty := false, phase := .idle } ∧
    Runs Step { bt, dirty := false, checkpointDirty := false, phase := .idle }
      [.allocateBlocknum, .reallocOnDisk 5 100 false, .reallocOnDisk 5 100 false] world ∧
    world.bt.allocator.ba.nBytesInUse ≠ (world.bt.countBlocks 0).dataBytes +
      (world.bt.countBlocks 0).checkpointBytesAdditional ∧
    world.bt.getFragmentation 0 = none := by
  have served : (((BlockTable.createFromBuffer 143360 131124 8194 5
      (filePairs (.free 8192) (.free freelistNull))).bind fun bt =>
      [BlockTableEvent.allocateBlocknum, .reallocOnDisk 5 100 false,
        .reallocOnDisk 5 100 false].foldlM nextAllowed
          { bt, dirty := false, checkpointDirty := false, phase := .idle }).map fun world =>
      decide (world.bt.allocator.ba.nBytesInUse ≠ (world.bt.countBlocks 0).dataBytes +
        (world.bt.countBlocks 0).checkpointBytesAdditional ∧
        world.bt.getFragmentation 0 = none)) = some true := by
    decide +kernel
  obtain ⟨world, reached, stopped⟩ := Option.map_eq_some_iff.mp served
  obtain ⟨bt, created, folded⟩ := of_bind reached
  obtain ⟨differs, none⟩ := of_decide_eq_true stopped
  exact ⟨bt, world, created, .fromBuffer filePairs_linked created,
    (Runs.of_foldlM folded).mono of_nextAllowed, differs, none⟩

end BlockTableWorld

end Tokuft
