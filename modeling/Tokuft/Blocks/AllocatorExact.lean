import Tokuft.Blocks.BlockAllocatorLaws
import Tokuft.Library.Runs

/-! After every run the holes, the counts, and the limit of an allocator are exact. -/

namespace Tokuft

open MhsRbTree (mhsMaxVal Tree Hole inorder spans)

open Spans

namespace AllocatorWorld

variable {reserve alignment : Nat} {ba : BlockAllocator}

/-- A new allocator without blocks has all the room behind the reserve. -/
theorem good_create (finite : reserve < mhsMaxVal)
    (created : BlockAllocator.create reserve alignment = some ba) :
    Good reserve alignment { ba, blocks := [] } := by
  -- The single hole is all that is behind the reserve.
  obtain ⟨tree, inserted, ok, points⟩ := insertHole_ok (good_nil alignment) finite finite
    (MhsRbTree.ouAdd_infinite_right reserve) fun point _ _ inside => (by
      obtain ⟨span, member, -⟩ := inside
      cases member)
  unfold BlockAllocator.create BlockAllocator.createInternal at created
  by_cases allowed : 512 ≤ alignment ∧ alignment % 512 = 0
  · rw [invariant_of allowed] at created
    simp only [bind_runs, inserted, Option.some.injEq] at created
    subst created
    refine ⟨rfl, rfl, ok, fun point => ?_, fun pair member => (by cases member), .nil, rfl, rfl⟩
    rw [points]
    constructor
    · rintro (inside | inside)
      · obtain ⟨span, member, -⟩ := inside
        cases member
      · exact ⟨inside.1, inside.2, fun pair member => by cases member⟩
    · exact fun free => Or.inr ⟨free.1, free.2.1⟩
  · simp [invariant, allowed] at created

/-- The room in front of the first block is put into an empty tree. -/
theorem insertFrontHole_ok {first : BlockPair} (empty : ba.tree = .nil)
    (beyond : ba.reserveAtBeginning ≤ first.offset) (finite : first.offset < mhsMaxVal) :
    ∃ tree, ba.insertFrontHole first = some tree ∧ MhsRbTree.Good ba.alignment tree ∧
      ∀ point, point ∈ covered (spans tree) ↔
        ba.reserveAtBeginning ≤ point ∧ point < first.offset := by
  -- There is no hole yet.
  have none (point : Nat) : point ∉ covered (spans .nil) := by
    intro ⟨span, member, _⟩
    cases member
  unfold BlockAllocator.insertFrontHole
  rw [empty]
  by_cases room : ba.reserveAtBeginning < first.offset
  · have sum : MhsRbTree.ouAdd ba.reserveAtBeginning (first.offset - ba.reserveAtBeginning) =
        some first.offset := by
      rw [MhsRbTree.ouAdd_of_le (by omega)]
      congr 1
      omega
    obtain ⟨tree, inserted, ok, points⟩ := insertHole_ok (good_nil ba.alignment) (by omega) room sum
      fun point _ _ => none point
    exact ⟨tree, by rw [if_pos room]; exact inserted, ok, fun point => by simp [points, none]⟩
  · refine ⟨.nil, if_neg room, good_nil ba.alignment, fun point => ?_⟩
    have outside : ¬(ba.reserveAtBeginning ≤ point ∧ point < first.offset) := by omega
    simp [none, outside]

/-- A new allocator takes any disjoint blocks, and has all the room between and behind them. -/
theorem good_createFromBlockPairs {pairs : List BlockPair} (allowed : 512 ≤ alignment ∧
      alignment % 512 = 0) (nonempty : pairs ≠ [])
    (placed : ∀ pair ∈ pairs, Placed reserve alignment pair) (apart : pairs.Pairwise Apart) :
    ∃ ba, BlockAllocator.createFromBlockPairs reserve alignment pairs = some ba ∧
      Good reserve alignment { ba, blocks := pairs } := by
  -- The blocks are sorted, and each leaves the hole up to the next one.
  have perm := List.perm_insertionSort ByOffset pairs
  have ordered := inOrder_insertionSort placed apart
  have placedSorted : ∀ pair ∈ pairs.insertionSort ByOffset, Placed reserve alignment pair :=
    fun pair member => placed pair (perm.mem_iff.mp member)
  unfold BlockAllocator.createFromBlockPairs BlockAllocator.createInternal
  rw [invariant_of allowed]
  simp only [bind_runs]
  rw [show (pairs.insertionSort fun pair other => pair.offset ≤ other.offset) =
    pairs.insertionSort ByOffset from rfl]
  generalize pairs.insertionSort ByOffset = sorted at perm ordered placedSorted
  cases sorted with
  | nil => exact absurd perm.symm.eq_nil nonempty
  | cons first rest =>
    have here := placedSorted first List.mem_cons_self
    have finite := here.finite
    have beyond := here.beyond
    simp only [BlockPair.end] at finite
    let ba : BlockAllocator := { reserveAtBeginning := reserve, alignment, nBlocks := pairs.length
                                 nBytesInUse := reserve, tree := .nil }
    obtain ⟨tree, inserted, ok, points⟩ := @insertFrontHole_ok ba first rfl beyond (by omega)
    obtain ⟨result, counted, reserved, aligned, count, bytes, okToo, pointsToo⟩ :=
      @insertBlocks_ok reserve { ba with tree } first rest rfl ok placedSorted ordered
        (fun point inside => ((points point).mp inside).2)
    refine ⟨result, by
      simp only [ba] at inserted counted
      simp only [inserted, Option.bind_some]
      exact counted, reserved,
      aligned, okToo, fun point => ?_, placed, apart, count, ?_⟩
    · rw [pointsToo, points]
      rw [← unallocated_perm perm]
      constructor
      · rintro (front | behind)
        · exact mem_unallocated_of_lt placedSorted ordered front.1 front.2
        · exact behind.2
      · intro free
        rcases Nat.lt_or_ge point first.offset with before | behind
        · exact Or.inl ⟨free.1, before⟩
        · exact Or.inr ⟨behind, free⟩
    · rw [bytes]
      exact congrArg (reserve + ·) (perm.map BlockPair.size).sum_nat

/-- A block that is allocated is new. -/
theorem good_alloc {ba' : BlockAllocator} {blocks : List BlockPair} {size offset : Nat}
    (positive : 0 < alignment) (good : Good reserve alignment { ba, blocks })
    (granted : ba.allocBlock size = some (offset, ba')) :
    Good reserve alignment { ba := ba', blocks := { offset, size } :: blocks } ∧
      MhsRbTree.Removed alignment ba.tree size offset ba'.tree := by
  have sameAlignment : ba.alignment = alignment := good.aligned
  unfold BlockAllocator.allocBlock at granted
  by_cases sized : 0 < size
  · rw [invariant_of sized] at granted
    simp only [bind_runs] at granted
    obtain ⟨⟨start, tree⟩, cut, same⟩ := of_bind granted
    obtain ⟨rfl, rfl⟩ := Prod.mk.inj (Option.some.inj same)
    rw [sameAlignment] at cut
    have removed := MhsRbTree.remove_ok good.tree sized positive cut
    refine ⟨?_, removed⟩
    -- The points of the block were free, so it lies beyond the reserve and apart from the others.
    have free (point : Nat) (after : start ≤ point) (before : point < start + size) :
        point ∈ unallocated reserve blocks := by
      obtain ⟨hole, member, holeStarts, holeEnds⟩ := removed.held
      refine (good.points point).mp ⟨hole.span, List.mem_map_of_mem member, ?_, ?_⟩
      · show hole.offset ≤ point
        omega
      · show point < hole.end
        omega
    have block : Placed reserve alignment { offset := start, size } :=
      ⟨sized, (free start (Nat.le_refl _) (by omega)).1, removed.aligned, removed.finite⟩
    refine ⟨good.reserved, good.aligned, removed.good, fun point => ?_, ?_, ?_, ?_, ?_⟩
    · rw [removed.points, good.points, mem_unallocated_cons]
      exact and_comm
    · intro pair member
      rcases List.mem_cons.mp member with rfl | member
      · exact block
      · exact good.placed pair member
    · refine List.pairwise_cons.mpr ⟨fun other member => ?_, good.apart⟩
      by_contra overlap
      have otherPositive := (good.placed other member).positive
      simp only [Apart, BlockPair.end] at overlap
      refine (free (max start other.offset) (Nat.le_max_left _ _) (by omega)).2.2 other member ?_
      simp only [BlockPair.end]
      omega
    · have count : ba.nBlocks = blocks.length := good.count
      simp [count]
    · have bytes := good.bytes
      simp only [bytesOf, List.map_cons, List.sum_cons] at bytes ⊢
      omega
  · simp [invariant, sized] at granted

/-- A block that is freed leaves its room. -/
theorem good_free {blocks : List BlockPair} {pair : BlockPair}
    (good : Good reserve alignment { ba, blocks }) (held : pair ∈ blocks) :
    ∃ ba', ba.freeBlock pair = some ba' ∧
      Good reserve alignment { ba := ba', blocks := blocks.erase pair } := by
  -- The new hole may touch those around it, which it is then joined with.
  have sameAlignment : ba.alignment = alignment := good.aligned
  have here := good.placed pair held
  have perm := List.perm_cons_erase held
  have finite := here.finite
  have positive := here.positive
  simp only [BlockPair.end] at finite
  have sum : MhsRbTree.ouAdd pair.offset pair.size = some pair.end :=
    MhsRbTree.ouAdd_of_le (by omega)
  obtain ⟨tree, inserted, ok, points⟩ := insertHole_ok good.tree
    (by omega) (show pair.offset < pair.end by simp only [BlockPair.end]; omega) sum
    (fun point after before inside => ((good.points point).mp inside).2.2 pair held ⟨after, before⟩)
  have apart := (perm.pairwise_iff fun disjoint => Apart.symm disjoint).mp good.apart
  rw [← sameAlignment] at inserted
  refine ⟨{ ba with nBytesInUse := ba.nBytesInUse - pair.size, nBlocks := ba.nBlocks - 1, tree },
    by rw [BlockAllocator.freeBlock, inserted]; rfl, good.reserved,
    good.aligned, ok, fun point => ?_, ?_, apart.of_cons, ?_, ?_⟩
  · have split : point ∈ unallocated reserve blocks ↔
        ¬(pair.offset ≤ point ∧ point < pair.end) ∧
          point ∈ unallocated reserve (blocks.erase pair) := by
      rw [← mem_unallocated_cons, unallocated_perm perm]
    rw [points, good.points, split]
    constructor
    · rintro (outside | inside)
      · exact outside.2
      · refine ⟨Nat.le_trans here.beyond inside.1, ?_, fun other member both => ?_⟩
        · simp only [BlockPair.end] at inside
          omega
        · have disjoint := List.rel_of_pairwise_cons apart member
          simp only [Apart] at disjoint
          omega
    · intro free
      by_cases inside : pair.offset ≤ point ∧ point < pair.end
      · exact Or.inr inside
      · exact Or.inl ⟨inside, free⟩
  · exact fun other member => good.placed other (List.mem_of_mem_erase member)
  · have count := good.count
    have length := perm.length_eq
    simp only [List.length_cons] at count length ⊢
    omega
  · have bytes := good.bytes
    have total := (perm.map BlockPair.size).sum_nat
    simp only [bytesOf, List.map_cons, List.sum_cons] at bytes total ⊢
    omega

end AllocatorWorld

open MhsRbTree (mhsMaxVal Tree Hole inorder spans)

open Spans

/-- The rightmost node of a tree has its last hole. -/
theorem MhsRbTree.maxNode_ok {tree : Tree} (nonempty : tree ≠ .nil) :
    ∃ node, maxNode tree = some node ∧ (inorder tree).getLast? = some node.hole := by
  -- By induction on the tree along its right side.
  induction tree with
  | nil => exact absurd rfl nonempty
  | node data left right _ ih =>
    cases right with
    | nil => exact ⟨data, rfl, by simp [inorder]⟩
    | node other near far =>
      obtain ⟨node, last, same⟩ := ih (by simp)
      refine ⟨node, last, ?_⟩
      rw [inorder, List.getLast?_append, List.getLast?_cons, same]
      simp

namespace AllocatorWorld

variable {reserve alignment : Nat} {world : AllocatorWorld}

/-- What the tree holds are the free points. -/
theorem Good.covered_eq (good : Good reserve alignment world) :
    covered (spans world.ba.tree) = unallocated reserve world.blocks :=
  Set.ext good.points

/-- Everything behind the last block is free, and nothing in front of its end. -/
theorem isMaximal_limitOf {blocks : List BlockPair} (finite : reserve < mhsMaxVal)
    (placed : ∀ pair ∈ blocks, Placed reserve alignment pair) :
    IsMaximal (unallocated reserve blocks) (limitOf reserve blocks, mhsMaxVal) := by
  obtain ⟨above, all, one⟩ := limitOf_spec reserve blocks
  have bound : limitOf reserve blocks < mhsMaxVal := by
    rcases one with same | ⟨pair, member, same⟩
    · omega
    · have ends := (placed pair member).finite
      omega
  refine ⟨bound, fun point inside => ?_, fun start last before after inside => ⟨?_, ?_⟩⟩
  · have low : limitOf reserve blocks ≤ point := inside.1
    refine ⟨by omega, inside.2, fun pair member both => ?_⟩
    have ends := all pair member
    omega
  · -- The point in front of the limit is reserved or in the last block.
    by_contra different
    have behind : mhsMaxVal ≤ last := after
    have earlier : start < limitOf reserve blocks := Nat.lt_of_le_of_ne before different
    have free : limitOf reserve blocks - 1 ∈ unallocated reserve blocks :=
      inside ⟨by omega, by omega⟩
    rcases one with same | ⟨pair, member, same⟩
    · have low := free.1
      omega
    · have positive := (placed pair member).positive
      refine free.2.2 pair member ?_
      simp only [BlockPair.end] at same ⊢
      omega
  · by_contra different
    have later : mhsMaxVal < last := Nat.lt_of_le_of_ne after (Ne.symm different)
    have low : start ≤ limitOf reserve blocks := before
    have free : mhsMaxVal ∈ unallocated reserve blocks := inside ⟨by omega, later⟩
    exact absurd free.2.1 (Nat.lt_irrefl _)

/-- The last hole starts at the limit and has no end. -/
theorem Good.limit (good : Good reserve alignment world) (finite : reserve < mhsMaxVal) :
    world.ba.allocatedLimit = some (limitOf reserve world.blocks) ∧
      ∃ hole ∈ inorder world.ba.tree,
        hole.offset = limitOf reserve world.blocks ∧ hole.end = mhsMaxVal := by
  have maximal := isMaximal_limitOf finite good.placed
  rw [← good.covered_eq, ← good.tree.separated.mem_iff_isMaximal] at maximal
  obtain ⟨hole, member, same⟩ := List.mem_map.mp maximal
  obtain ⟨start, last⟩ := Prod.mk.inj same
  refine ⟨?_, hole, member, start, last⟩
  have nonempty : world.ba.tree ≠ .nil := by
    intro empty
    rw [empty] at member
    cases member
  obtain ⟨node, found, final⟩ := MhsRbTree.maxNode_ok nonempty
  obtain ⟨others, split⟩ := List.getLast?_eq_some_iff.mp final
  have finalMember : node.hole ∈ inorder world.ba.tree := by
    rw [split]
    exact List.mem_append_right _ (List.mem_singleton.mpr rfl)
  have isLast : hole = node.hole := by
    -- Another hole would start behind infinity.
    have early := node.hole.finite (good.tree.nonempty finalMember)
    have apart := List.pairwise_map.mp good.tree.separated.apart
    rw [split] at apart member
    rcases List.mem_append.mp member with here | there
    · have order : hole.end < node.hole.offset :=
        (List.pairwise_append.mp apart).2.2 hole here node.hole (List.mem_singleton.mpr rfl)
      omega
    · exact List.mem_singleton.mp there
  rw [BlockAllocator.allocatedLimit, found, Option.map_some, ← isLast, start]

/-- What an allocator promises in a state that a run leads to. -/
structure Exact (reserve alignment : Nat) (world : AllocatorWorld) : Prop where
  holes : ∀ span, span ∈ spans world.ba.tree ↔ IsMaximal (unallocated reserve world.blocks) span
  firstFit : ∀ size offset ba', world.ba.allocBlock size = some (offset, ba') →
    offset % alignment = 0 ∧
      (∃ hole ∈ inorder world.ba.tree, hole.offset ≤ offset ∧ offset + size ≤ hole.end) ∧
      ∀ hole ∈ inorder world.ba.tree, ∀ other, other % alignment = 0 → hole.offset ≤ other →
        other + size ≤ hole.end → offset ≤ other
  allocates : ∀ size, 0 < size → limitOf reserve world.blocks + alignment + size ≤ mhsMaxVal →
    ∃ offset ba', world.ba.allocBlock size = some (offset, ba')
  frees : ∀ pair ∈ world.blocks, ∃ ba', world.ba.freeBlock pair = some ba'
  disjoint : world.blocks.Pairwise Apart
  placed : ∀ pair ∈ world.blocks, pair.offset % alignment = 0 ∧ reserve ≤ pair.offset
  count : world.ba.nBlocks = world.blocks.length
  bytes : world.ba.nBytesInUse = reserve + bytesOf world.blocks
  limit : world.ba.allocatedLimit = some (limitOf reserve world.blocks)
  rebuilt : ∀ pairs, pairs ≠ [] → pairs.Perm world.blocks →
    ∃ ba', BlockAllocator.createFromBlockPairs reserve alignment pairs = some ba' ∧
      spans ba'.tree = spans world.ba.tree

/-- A good allocator keeps its promises. -/
theorem Good.exact (good : Good reserve alignment world)
    (allowed : 512 ≤ alignment ∧ alignment % 512 = 0) (finite : reserve < mhsMaxVal) :
    Exact reserve alignment world := by
  -- The holes are the maximal spans that no block holds.
  have sameAlignment := good.aligned
  have positive : 0 < alignment := by omega
  obtain ⟨limit, last, member, start, ends⟩ := good.limit finite
  refine ⟨fun span => ?_, fun size offset ba' granted => ?_, fun size sized room => ?_,
    fun pair held => ?_, good.apart, fun pair held => ?_, good.count, good.bytes, limit,
    fun pairs nonempty perm => ?_⟩
  · rw [good.tree.separated.mem_iff_isMaximal, good.covered_eq]
  · obtain ⟨-, removed⟩ := good_alloc positive good granted
    exact ⟨removed.aligned, removed.held, removed.lowest⟩
  · obtain ⟨offset, tree, removed⟩ :=
      MhsRbTree.remove_total good.tree sized positive member ends (by omega)
    refine ⟨offset, { world.ba with
      nBytesInUse := world.ba.nBytesInUse + size, nBlocks := world.ba.nBlocks + 1, tree }, ?_⟩
    rw [← sameAlignment] at removed
    rw [BlockAllocator.allocBlock, invariant_of sized, bind_of_some, removed]
    rfl
  · obtain ⟨ba', freed, -⟩ := good_free good held
    exact ⟨ba', freed⟩
  · exact ⟨(good.placed pair held).aligned, (good.placed pair held).beyond⟩
  · obtain ⟨ba', created, goodToo⟩ := good_createFromBlockPairs allowed nonempty
      (fun pair held => good.placed pair (perm.mem_iff.mp held))
      ((perm.pairwise_iff fun disjoint => Apart.symm disjoint).mpr good.apart)
    refine ⟨ba', created, goodToo.tree.separated.eq_of_covered good.tree.separated ?_⟩
    rw [goodToo.covered_eq, good.covered_eq, unallocated_perm perm]

/-- Only an allocator with a proper alignment is created, and its reserve is finite. -/
theorem Created.good (created : Created reserve alignment world) :
    (512 ≤ alignment ∧ alignment % 512 = 0) ∧ reserve < mhsMaxVal ∧
      Good reserve alignment world := by
  -- Only a proper alignment passes the check at creation.
  have checked {rest : BlockAllocator → Option BlockAllocator} {ba : BlockAllocator}
      (made : (BlockAllocator.createInternal reserve alignment).bind rest = some ba) :
      512 ≤ alignment ∧ alignment % 512 = 0 := by
    by_contra notAllowed
    simp [BlockAllocator.createInternal, invariant, notAllowed] at made
  cases created with
  | empty finite created => exact ⟨checked created, finite, good_create finite created⟩
  | @fromPairs ba pairs nonempty placed apart created =>
    have allowed := checked created
    obtain ⟨again, createdToo, good⟩ := good_createFromBlockPairs allowed nonempty placed apart
    rw [created] at createdToo
    obtain rfl := Option.some.inj createdToo
    refine ⟨allowed, ?_, good⟩
    obtain ⟨pair, member⟩ := List.exists_mem_of_ne_nil pairs nonempty
    have here := placed pair member
    have beyond := here.beyond
    have finite := here.finite
    simp only [BlockPair.end] at finite
    omega

/-- An allocator is good after every run. -/
theorem Created.run_good {start : AllocatorWorld} {events : List AllocatorEvent}
    (created : Created reserve alignment start) (run : Runs Step start events world) :
    Good reserve alignment world := by
  -- By induction on the run, with one case for each operation.
  obtain ⟨allowed, -, good⟩ := created.good
  refine run.invariant good ?_
  intro before event after goodBefore step
  cases event with
  | alloc size =>
    obtain ⟨⟨offset, ba'⟩, granted, same⟩ := of_bind step
    obtain rfl := Option.some.inj same
    exact (good_alloc (by omega) goodBefore granted).1
  | free pair =>
    by_cases held : pair ∈ before.blocks
    · rw [Step, next, if_pos held] at step
      obtain ⟨ba', freed, same⟩ := of_bind step
      obtain rfl := Option.some.inj same
      obtain ⟨again, freedToo, goodAfter⟩ := good_free goodBefore held
      rw [freed] at freedToo
      obtain rfl := Option.some.inj freedToo
      exact goodAfter
    · rw [Step, next, if_neg held] at step
      cases step

/-- The holes of an allocator are the free parts of its file after every run, and it fits first. -/
theorem blockAllocator_exact {start world : AllocatorWorld} {events : List AllocatorEvent}
    (created : Created reserve alignment start) (run : Runs Step start events world) :
    Exact reserve alignment world := by
  obtain ⟨allowed, finite, -⟩ := created.good
  exact (created.run_good run).exact allowed finite

/-- A small block fits in front of a larger one, where a block was freed. -/
theorem blockAllocator_exact_reuse : ∃ start world, BlockAllocator.create 8192 4096 = some start ∧
    [AllocatorEvent.alloc 100, .alloc 5000, .free ⟨8192, 100⟩, .alloc 4097, .alloc 4096].foldlM
      next { ba := start, blocks := [] } = some world ∧
    world.blocks = [⟨8192, 4096⟩, ⟨20480, 4097⟩, ⟨12288, 5000⟩] ∧ Exact 8192 4096 world := by
  have served : (((BlockAllocator.create 8192 4096).bind fun start =>
      [AllocatorEvent.alloc 100, .alloc 5000, .free ⟨8192, 100⟩, .alloc 4097, .alloc 4096].foldlM
        next { ba := start, blocks := [] }).map AllocatorWorld.blocks) =
      some [⟨8192, 4096⟩, ⟨20480, 4097⟩, ⟨12288, 5000⟩] := by decide
  obtain ⟨world, reached, blocks⟩ := Option.map_eq_some_iff.mp served
  obtain ⟨start, created, folded⟩ := of_bind reached
  exact ⟨start, world, created, folded, blocks,
    blockAllocator_exact (.empty (by decide) created) (Runs.of_foldlM folded)⟩

end AllocatorWorld

end Tokuft
