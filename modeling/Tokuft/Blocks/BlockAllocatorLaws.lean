import Tokuft.Blocks.BlockAllocator
import Tokuft.Blocks.MhsCut

/-! The holes of an allocator are the free parts of its file. -/

namespace Tokuft

open MhsRbTree (mhsMaxVal Tree Hole inorder spans)

open Spans

namespace AllocatorWorld

/-- The points of a file that no block uses. -/
def unallocated (reserve : Nat) (blocks : List BlockPair) : Set Nat :=
  { point | reserve ≤ point ∧ point < mhsMaxVal ∧
    ∀ pair ∈ blocks, ¬(pair.offset ≤ point ∧ point < pair.end) }

/-- The end of the last block, or of the reserve when there is none behind it. -/
def limitOf (reserve : Nat) (blocks : List BlockPair) : Nat :=
  blocks.foldr (fun pair limit => max pair.end limit) reserve

/-- The bytes of all blocks. -/
def bytesOf (blocks : List BlockPair) : Nat := (blocks.map BlockPair.size).sum

/-- The tree of an allocator holds exactly the free points, and its counts are true. -/
structure Good (reserve alignment : Nat) (world : AllocatorWorld) : Prop where
  reserved : world.ba.reserveAtBeginning = reserve
  aligned : world.ba.alignment = alignment
  tree : MhsRbTree.Good alignment world.ba.tree
  points : ∀ point, point ∈ covered (spans world.ba.tree) ↔ point ∈ unallocated reserve world.blocks
  placed : ∀ pair ∈ world.blocks, Placed reserve alignment pair
  apart : world.blocks.Pairwise Apart
  count : world.ba.nBlocks = world.blocks.length
  bytes : world.ba.nBytesInUse = reserve + bytesOf world.blocks

variable {alignment : Nat}

/-- Blocks lie apart whichever is named first. -/
theorem Apart.symm {pair other : BlockPair} (apart : Apart pair other) : Apart other pair :=
  Or.symm apart

/-- The limit is at or after the reserve and the end of every block, and it is one of these. -/
theorem limitOf_spec (reserve : Nat) (blocks : List BlockPair) :
    reserve ≤ limitOf reserve blocks ∧ (∀ pair ∈ blocks, pair.end ≤ limitOf reserve blocks) ∧
      (limitOf reserve blocks = reserve ∨ ∃ pair ∈ blocks, limitOf reserve blocks = pair.end) := by
  -- By induction on the blocks.
  induction blocks with
  | nil => exact ⟨Nat.le_refl _, fun pair member => (by cases member), Or.inl rfl⟩
  | cons first rest ih =>
    obtain ⟨above, all, one⟩ := ih
    have shape : limitOf reserve (first :: rest) = max first.end (limitOf reserve rest) := rfl
    refine ⟨by omega, fun pair member => ?_, ?_⟩
    · rcases List.mem_cons.mp member with rfl | member
      · omega
      · have bound := all pair member
        omega
    · rcases Nat.le_total first.end (limitOf reserve rest) with below | above
      · rw [shape, Nat.max_eq_right below]
        exact one.imp id fun ⟨pair, member, same⟩ => ⟨pair, List.mem_cons_of_mem _ member, same⟩
      · rw [shape, Nat.max_eq_left above]
        exact Or.inr ⟨first, List.mem_cons_self, rfl⟩

/-- A hole is put into a tree that holds none of its points. -/
theorem insertHole_ok {offset size last : Nat} {tree : Tree} (good : MhsRbTree.Good alignment tree)
    (finite : offset < mhsMaxVal) (nonempty : offset < last)
    (added : MhsRbTree.ouAdd offset size = some last)
    (room : ∀ point, offset ≤ point → point < last → point ∉ covered (spans tree)) :
    ∃ result, BlockAllocator.insertHole alignment tree offset size = some result ∧
      MhsRbTree.Good alignment result ∧ ∀ point, point ∈ covered (spans result) ↔
        point ∈ covered (spans tree) ∨ (offset ≤ point ∧ point < last) := by
  obtain ⟨hole, made, starts, -, ends⟩ := Hole.make_of_add added
  subst starts ends
  have apart : ∀ other ∈ inorder tree, other.end ≤ hole.offset ∨ hole.end ≤ other.offset := by
    intro other member
    have some := good.nonempty member
    by_contra neither
    -- Both holes would hold the greater of their starts.
    refine room (max hole.offset other.offset) (Nat.le_max_left _ _) (by omega)
      ⟨other.span, List.mem_map_of_mem member, Nat.le_max_right _ _, ?_⟩
    show max hole.offset other.offset < other.end
    omega
  obtain ⟨result, inserted, ok, holds⟩ := MhsRbTree.insert_good good finite nonempty apart
  refine ⟨result, ?_, ok, holds⟩
  rw [BlockAllocator.insertHole, made]
  exact inserted

/-- An empty tree holds nothing. -/
theorem good_nil (alignment : Nat) : MhsRbTree.Good alignment MhsRbTree.Tree.nil :=
  ⟨⟨trivial, 0, .nil⟩, ⟨fun span member => (by cases member), List.Pairwise.nil⟩⟩

/-- The free part behind a block reaches up to the next block, or to infinity. -/
theorem freeSizeAfter_ok {freeOffset : Nat} {rest : List BlockPair}
    (finite : freeOffset < mhsMaxVal)
    (after : ∀ next ∈ rest.head?, freeOffset ≤ next.offset ∧ next.offset < mhsMaxVal) :
    ∃ size, BlockAllocator.freeSizeAfter freeOffset rest = some size ∧
      MhsRbTree.ouAdd freeOffset size =
        some ((rest.head?.map BlockPair.offset).getD mhsMaxVal) := by
  cases rest with
  | nil => exact ⟨mhsMaxVal, rfl, by simp⟩
  | cons next others =>
    obtain ⟨apart, bound⟩ := after next rfl
    obtain ⟨size, subtracted, sum⟩ := MhsRbTree.ouSub_add finite apart (Nat.le_of_lt bound)
    refine ⟨size, ?_, sum⟩
    have notBoth : ¬(freeOffset = mhsMaxVal ∧ next.offset = mhsMaxVal) := by omega
    simp [BlockAllocator.freeSizeAfter, MhsRbTree.ouLe, notBoth, apart, subtracted]

/-- The free part behind a block is put into the tree, if it is not empty. -/
theorem insertFreeHole_ok {ba : BlockAllocator} {freeOffset freeSize last : Nat}
    (good : MhsRbTree.Good ba.alignment ba.tree) (finite : freeOffset < mhsMaxVal)
    (added : MhsRbTree.ouAdd freeOffset freeSize = some last)
    (room : ∀ point, freeOffset ≤ point → point < last → point ∉ covered (spans ba.tree)) :
    ∃ result, BlockAllocator.insertFreeHole ba freeOffset freeSize = some result ∧
      MhsRbTree.Good ba.alignment result ∧ ∀ point, point ∈ covered (spans result) ↔
        point ∈ covered (spans ba.tree) ∨ (freeOffset ≤ point ∧ point < last) := by
  -- An empty part is left out, and holds no point.
  unfold BlockAllocator.insertFreeHole
  by_cases empty : freeSize = 0
  · have same : last = freeOffset := by
      rw [empty, MhsRbTree.ouAdd_of_le (by omega)] at added
      exact (Option.some.inj added).symm
    refine ⟨ba.tree, by rw [if_pos empty], good, fun point => ?_⟩
    rw [same]
    have none : ¬(freeOffset ≤ point ∧ point < freeOffset) := by omega
    simp [none]
  · have nonempty : freeOffset < last := by
      rcases MhsRbTree.ouAdd_inv added with infinite | sum <;> omega
    rw [if_neg empty]
    exact insertHole_ok good finite nonempty added room

/-- Blocks in order, each behind the one before it. -/
abbrev InOrder (pairs : List BlockPair) : Prop :=
  pairs.Pairwise fun pair other => pair.end ≤ other.offset

variable {reserve : Nat}

/-- A block is counted, and the free part up to the next one is put into the tree. -/
theorem insertBlocks_cons {ba : BlockAllocator} {pair : BlockPair} {rest : List BlockPair}
    (reserved : ba.reserveAtBeginning = reserve) (good : MhsRbTree.Good ba.alignment ba.tree)
    (placed : ∀ block ∈ pair :: rest, Placed reserve ba.alignment block)
    (ordered : InOrder (pair :: rest))
    (early : ∀ point ∈ covered (spans ba.tree), point < pair.offset) :
    ∃ tree, ba.insertBlocks (pair :: rest) = BlockAllocator.insertBlocks
          { ba with nBytesInUse := ba.nBytesInUse + pair.size, tree } rest ∧
      MhsRbTree.Good ba.alignment tree ∧ ∀ point, point ∈ covered (spans tree) ↔
        point ∈ covered (spans ba.tree) ∨
          (pair.end ≤ point ∧ point < (rest.head?.map BlockPair.offset).getD mhsMaxVal) := by
  -- The block ends before the next one starts, and nothing wraps.
  have here := placed pair List.mem_cons_self
  have ends := here.finite
  have word : (pair.offset + pair.size) % 2 ^ 64 = pair.end := by
    refine Nat.mod_eq_of_lt ?_
    simp only [BlockPair.end, mhsMaxVal] at ends
    omega
  have next : ∀ block ∈ rest.head?, pair.end ≤ block.offset ∧ block.offset < mhsMaxVal := by
    intro block head
    have member := List.mem_of_mem_head? head
    have bound := (placed block (List.mem_cons_of_mem _ member)).finite
    simp only [BlockPair.end] at bound
    exact ⟨List.rel_of_pairwise_cons ordered member, by omega⟩
  obtain ⟨size, sized, sum⟩ := freeSizeAfter_ok ends next
  obtain ⟨tree, inserted, ok, points⟩ := insertFreeHole_ok good ends sum (by
    intro point after _ inside
    have before := early point inside
    simp only [BlockPair.end] at after
    omega)
  refine ⟨tree, ?_, ok, points⟩
  rw [BlockAllocator.insertBlocks, reserved, invariant_of here.positive, invariant_of here.beyond,
    invariant_of here.aligned, word]
  simp only [bind_runs, sized, inserted]

/-- A point is free when it is neither in the first block nor in the others. -/
theorem mem_unallocated_cons {reserve point : Nat} {pair : BlockPair} {rest : List BlockPair} :
    point ∈ unallocated reserve (pair :: rest) ↔
      ¬(pair.offset ≤ point ∧ point < pair.end) ∧ point ∈ unallocated reserve rest := by
  simp only [unallocated, Set.mem_ofPred_eq, List.forall_mem_cons]
  tauto

/-- Which points are free does not depend on the order of the blocks. -/
theorem unallocated_perm {pairs others : List BlockPair} (perm : pairs.Perm others) :
    unallocated reserve pairs = unallocated reserve others := by
  ext point
  simp only [unallocated, Set.mem_ofPred_eq]
  refine and_congr_right fun _ => and_congr_right fun _ => ?_
  exact ⟨fun free pair member => free pair (perm.mem_iff.mpr member),
    fun free pair member => free pair (perm.mem_iff.mp member)⟩

/-- A point in front of blocks in order is free. -/
theorem mem_unallocated_of_lt {point : Nat} {next : BlockPair} {others : List BlockPair}
    (placed : ∀ block ∈ next :: others, Placed reserve alignment block)
    (ordered : InOrder (next :: others)) (above : reserve ≤ point) (before : point < next.offset) :
    point ∈ unallocated reserve (next :: others) := by
  -- All blocks behind the first start after its end.
  have bound := (placed next List.mem_cons_self).finite
  simp only [BlockPair.end] at bound
  refine ⟨above, by omega, fun block member inside => ?_⟩
  rcases List.mem_cons.mp member with rfl | member
  · omega
  · have order := List.rel_of_pairwise_cons ordered member
    simp only [BlockPair.end] at order
    omega

/-- Behind each of the blocks in order, the free part up to the next one is put into the tree. -/
theorem insertBlocks_ok {reserve : Nat} {ba : BlockAllocator} {pair : BlockPair}
    {rest : List BlockPair} (reserved : ba.reserveAtBeginning = reserve)
    (good : MhsRbTree.Good ba.alignment ba.tree)
    (placed : ∀ block ∈ pair :: rest, Placed reserve ba.alignment block)
    (ordered : InOrder (pair :: rest))
    (early : ∀ point ∈ covered (spans ba.tree), point < pair.offset) :
    ∃ result, ba.insertBlocks (pair :: rest) = some result ∧
      result.reserveAtBeginning = reserve ∧ result.alignment = ba.alignment ∧
      result.nBlocks = ba.nBlocks ∧
      result.nBytesInUse = ba.nBytesInUse + bytesOf (pair :: rest) ∧
      MhsRbTree.Good ba.alignment result.tree ∧ ∀ point, point ∈ covered (spans result.tree) ↔
        point ∈ covered (spans ba.tree) ∨
          (pair.offset ≤ point ∧ point ∈ unallocated reserve (pair :: rest)) := by
  induction rest generalizing ba pair with
  | nil =>
    obtain ⟨tree, same, ok, points⟩ := insertBlocks_cons reserved good placed ordered early
    have here := placed pair List.mem_cons_self
    have beyond := here.beyond
    refine ⟨_, same, reserved, rfl, rfl, by simp [bytesOf], ok, fun point => ?_⟩
    rw [points, mem_unallocated_cons]
    simp only [List.head?_nil, Option.map_none, Option.getD_none]
    refine or_congr_right ⟨fun inside => ⟨?_, ?_, ?_⟩, fun ⟨after, outside, free⟩ => ?_⟩
    · simp only [BlockPair.end] at inside
      omega
    · omega
    · simp only [BlockPair.end] at inside
      exact ⟨by omega, inside.2, fun block member => by cases member⟩
    · exact ⟨by omega, free.2.1⟩
  | cons next others ih =>
    obtain ⟨tree, same, ok, points⟩ := insertBlocks_cons reserved good placed ordered early
    simp only [List.head?_cons, Option.map_some, Option.getD_some] at points
    have here := placed pair List.mem_cons_self
    have beyond := here.beyond
    have rest : ∀ block ∈ next :: others, Placed reserve ba.alignment block :=
      fun block member => placed block (List.mem_cons_of_mem _ member)
    have apart : pair.end ≤ next.offset := List.rel_of_pairwise_cons ordered List.mem_cons_self
    have starts : pair.offset ≤ pair.end := Nat.le_add_right _ _
    obtain ⟨result, inserted, reservedToo, alignedToo, count, bytes, okToo, pointsToo⟩ :=
      @ih { ba with nBytesInUse := ba.nBytesInUse + pair.size, tree } next reserved ok rest
        ordered.of_cons (fun point inside => by
          rcases (points point).mp inside with old | new
          · have before := early point old
            omega
          · exact new.2)
    refine ⟨result, by rw [same, inserted], reservedToo, alignedToo, count, ?_, okToo,
      fun point => ?_⟩
    · rw [bytes]
      simp only [bytesOf, List.map_cons, List.sum_cons]
      omega
    · rw [pointsToo, points, @mem_unallocated_cons reserve point pair, or_assoc]
      refine or_congr_right ⟨?_, fun ⟨after, outside, free⟩ => ?_⟩
      · rintro (between | behind)
        · refine ⟨by omega, by omega, ?_⟩
          exact mem_unallocated_of_lt rest ordered.of_cons (by omega) between.2
        · exact ⟨by omega, by omega, behind.2⟩
      · -- A point behind the block lies in front of the next one or not.
        rcases Nat.lt_or_ge point next.offset with before | behind
        · exact Or.inl ⟨by omega, before⟩
        · exact Or.inr ⟨behind, free⟩

/-- The order in which the blocks are sorted. -/
abbrev ByOffset (pair other : BlockPair) : Prop := pair.offset ≤ other.offset

/-- Disjoint blocks that are sorted by their offsets lie behind each other. -/
theorem inOrder_insertionSort {pairs : List BlockPair}
    (placed : ∀ pair ∈ pairs, Placed reserve alignment pair) (apart : pairs.Pairwise Apart) :
    InOrder (pairs.insertionSort ByOffset) := by
  -- Of two disjoint blocks the one with the smaller offset ends first.
  have total : Std.Total ByOffset := ⟨fun pair other => Nat.le_total pair.offset other.offset⟩
  have trans : IsTrans BlockPair ByOffset := ⟨fun _ _ _ => Nat.le_trans⟩
  have perm := List.perm_insertionSort ByOffset pairs
  have sorted := List.pairwise_insertionSort ByOffset pairs
  have disjoint := (perm.pairwise_iff fun disjoint => Apart.symm disjoint).mpr apart
  refine (sorted.and disjoint).imp_of_mem fun {first second} here there both => ?_
  have order : first.offset ≤ second.offset := both.1
  have positive := (placed second (perm.mem_iff.mp there)).positive
  rcases both.2 with before | after
  · exact before
  · simp only [BlockPair.end] at after
    omega

end AllocatorWorld

end Tokuft
