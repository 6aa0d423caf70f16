import Tokuft.Blocks.AllocatorExact
import Tokuft.Blocks.MhsNeighbours
import Tokuft.Library.Gaps

/-! The blocks of a file by their number, read off the holes between them. -/

namespace Tokuft

open MhsRbTree (mhsMaxVal Tree Hole Place inorder spans minPlace successor successor_ok minPlace_ok)

open Spans

namespace BlockAllocator

/-- Walk from a node to the next one a number of times, and keep the last two nodes. -/
def walkHoles : Nat → Option Place × Option Place → Option (Option Place × Option Place)
  | 0, nodes => some nodes
  | steps + 1, (_, x) => do
    -- The source reads the node without asking whether there is one.
    let node ← x
    walkHoles steps (some node, successor node)

/--
The block with a number in the order of the offsets, where the reserve has number zero.

The inner result is absent when the number is too big.
-/
def nthBlockInLayoutOrder (ba : BlockAllocator) (b : Nat) : Option (Option BlockPair) :=
  if b = 0 then some (some { offset := 0, size := ba.reserveAtBeginning })
  else if ba.nBlocks < b then some none
  else do
    let (y, x) ← walkHoles b (none, minPlace ba.tree [])
    let x ← x
    let y ← y
    -- The block is what lies between two holes.
    let last ← MhsRbTree.ouAdd y.node.hole.offset y.node.hole.size
    let size ← MhsRbTree.ouSub x.node.hole.offset last
    some (some { offset := last, size := size })

end BlockAllocator

/-- The node of a tree that is at a place in the order of the holes, or none behind the last. -/
def IsAt (tree : Tree) (k : Nat) : Option Place → Prop
  | none => k = (inorder tree).length
  | some x => x.root = tree ∧ x.earlier.length = k

namespace IsAt

variable {tree : Tree} {k : Nat}

/-- The node at a place has the hole of that place. -/
theorem getElem? {x : Place} (at_k : IsAt tree k (some x)) :
    (inorder tree)[k]? = some x.node.hole := by
  obtain ⟨rfl, rfl⟩ := at_k
  rw [MhsRbTree.inorder_root, List.getElem?_append_right (Nat.le_refl _), Nat.sub_self]
  rfl

/-- The walk starts at the first hole. -/
theorem minPlace (nonempty : tree ≠ .nil) : IsAt tree 0 (minPlace tree []) := by
  obtain ⟨y, found, same, first, -⟩ := minPlace_ok nonempty []
  rw [found]
  exact ⟨same, by rw [first]; rfl⟩

/-- The walk goes from each place to the next. -/
theorem successor {x : Place} (at_k : IsAt tree k (some x)) :
    IsAt tree (k + 1) (successor x) := by
  obtain ⟨rfl, rfl⟩ := at_k
  rcases successor_ok x with ⟨none, last⟩ | ⟨y, found, same, first, -⟩
  · rw [none]
    show _ = (inorder x.root).length
    rw [MhsRbTree.inorder_root, last]
    simp
  · rw [found]
    exact ⟨same, by rw [first, List.length_append, List.length_singleton]⟩

/-- After some steps the walk has the nodes of two places, unless it ran out of holes. -/
theorem walkHoles {steps : Nat} {y x : Option Place} (at_k : IsAt tree k x)
    (within : k + (steps + 1) ≤ (inorder tree).length) :
    ∃ y' x', BlockAllocator.walkHoles (steps + 1) (y, x) = some (some y', x') ∧
      IsAt tree (k + steps) (some y') ∧ IsAt tree (k + (steps + 1)) x' := by
  -- By induction on the steps.
  induction steps generalizing k y x with
  | zero =>
    cases x with
    | none =>
      have last : k = (inorder tree).length := at_k
      omega
    | some x => exact ⟨x, _, rfl, at_k, at_k.successor⟩
  | succ steps ih =>
    cases x with
    | none =>
      have last : k = (inorder tree).length := at_k
      omega
    | some x =>
      obtain ⟨y', x', walks, before, after⟩ := ih (y := some x) at_k.successor (by omega)
      refine ⟨y', x', walks, ?_, ?_⟩
      · rw [show k + (steps + 1) = k + 1 + steps by omega]
        exact before
      · rw [show k + (steps + 1 + 1) = k + 1 + (steps + 1) by omega]
        exact after

/-- The walk reads a missing node once it ran out of holes. -/
theorem walkHoles_none {steps : Nat} {y x : Option Place} (at_k : IsAt tree k x)
    (beyond : (inorder tree).length < k + steps) :
    BlockAllocator.walkHoles steps (y, x) = none := by
  -- By induction on the steps.
  induction steps generalizing k y x with
  | zero =>
    cases x with
    | none =>
      have last : k = (inorder tree).length := at_k
      omega
    | some x =>
      have inside := (List.getElem?_eq_some_iff.mp at_k.getElem?).1
      omega
  | succ steps ih =>
    cases x with
    | none => rfl
    | some x => exact ih (y := some x) at_k.successor (by omega)

end IsAt

/-- Between two holes that lie apart the block is what they leave, and there is no other answer. -/
theorem nthBlock_eq {alignment : Nat} {ba : BlockAllocator}
    (good : MhsRbTree.Good alignment ba.tree)
    (nonempty : ba.tree ≠ .nil) {i : Nat} (counted : i < ba.nBlocks) :
    ba.nthBlockInLayoutOrder (i + 1) =
      (spans ba.tree)[i]?.bind fun early => (spans ba.tree)[i + 1]?.map fun late =>
        some { offset := early.2, size := late.1 - early.2 } := by
  have start := IsAt.minPlace nonempty
  rw [BlockAllocator.nthBlockInLayoutOrder, if_neg (Nat.succ_ne_zero i),
    if_neg (Nat.not_lt.mpr counted)]
  by_cases within : i + 1 ≤ (inorder ba.tree).length
  · obtain ⟨y, x, walks, before, after⟩ :=
      start.walkHoles (y := none) (by rw [Nat.zero_add]; exact within)
    rw [walks]
    rw [Nat.zero_add] at before after
    have early : (spans ba.tree)[i]? = some y.node.hole.span := by
      rw [spans, List.getElem?_map, before.getElem?]
      rfl
    cases x with
    | none =>
      -- Nothing is behind the last hole.
      have last : i + 1 = (inorder ba.tree).length := after
      have absent : (spans ba.tree)[i + 1]? = none := by
        rw [spans, List.getElem?_map, last, List.getElem?_eq_none (Nat.le_refl _)]
        rfl
      rw [early, absent]
      rfl
    | some x =>
      have late : (spans ba.tree)[i + 1]? = some x.node.hole.span := by
        rw [spans, List.getElem?_map, after.getElem?]
        rfl
      have apart : y.node.hole.end < x.node.hole.offset := by
        obtain ⟨first, isFirst⟩ := List.getElem?_eq_some_iff.mp early
        obtain ⟨second, isSecond⟩ := List.getElem?_eq_some_iff.mp late
        have rel := List.pairwise_iff_getElem.mp good.separated.apart i (i + 1) first second
          (Nat.lt_succ_self i)
        rw [isFirst, isSecond] at rel
        exact rel
      have finite : x.node.hole.offset < mhsMaxVal :=
        x.node.hole.finite (good.nonempty (List.mem_of_getElem? after.getElem?))
      have sum := y.node.hole.add_eq
      have difference : MhsRbTree.ouSub x.node.hole.offset y.node.hole.end =
          some (x.node.hole.offset - y.node.hole.end) := by
        unfold MhsRbTree.ouSub
        rw [invariant_of (by omega), bind_of_some, if_neg (by omega), invariant_of (by omega)]
        rfl
      rw [early, late]
      simp only [bind_runs]
      rw [sum, Option.bind_some, difference]
      rfl
  · rw [start.walkHoles_none (show _ < _ + (i + 1) by omega)]
    have absent : (spans ba.tree)[i]? = none := by
      rw [spans, List.getElem?_map, List.getElem?_eq_none (by omega)]
      rfl
    rw [absent]
    rfl

namespace AllocatorWorld

variable {reserve alignment : Nat}

/-- The blocks in the order of their offsets. -/
def byOffset (blocks : List BlockPair) : List BlockPair := blocks.insertionSort ByOffset

/-- The points of a block. -/
def blockSpan (pair : BlockPair) : Nat × Nat := (pair.offset, pair.end)

/-- Sorted blocks are a line from the reserve on. -/
theorem inLine_of_inOrder {pairs : List BlockPair} {start : Nat} (finite : start < mhsMaxVal)
    (ordered : InOrder pairs) (placed : ∀ pair ∈ pairs, start ≤ pair.offset ∧ 0 < pair.size ∧
      pair.end < mhsMaxVal) : InLine start mhsMaxVal (pairs.map blockSpan) := by
  -- By induction on the blocks.
  induction pairs generalizing start with
  | nil => exact finite
  | cons first rest ih =>
    obtain ⟨low, positive, ends⟩ := placed first List.mem_cons_self
    have behind (pair : BlockPair) (member : pair ∈ rest) : first.end ≤ pair.offset :=
      List.rel_of_pairwise_cons ordered member
    refine ⟨low, ?_, ih ends ordered.of_cons fun pair member => ⟨behind pair member, ?_⟩⟩
    · show first.offset < first.offset + first.size
      omega
    · exact (placed pair (List.mem_cons_of_mem _ member)).2

/-- The holes are the gaps that the sorted blocks leave. -/
theorem Good.spans_eq {world : AllocatorWorld} (good : Good reserve alignment world)
    (finite : reserve < mhsMaxVal) :
    InLine reserve mhsMaxVal ((byOffset world.blocks).map blockSpan) ∧
      spans world.ba.tree = gaps reserve mhsMaxVal ((byOffset world.blocks).map blockSpan) := by
  -- Both hold the same points, and both lie apart.
  have perm : (byOffset world.blocks).Perm world.blocks := List.perm_insertionSort _ _
  have inLine : InLine reserve mhsMaxVal ((byOffset world.blocks).map blockSpan) := by
    apply inLine_of_inOrder finite (inOrder_insertionSort good.placed good.apart)
    intro pair member
    have place := good.placed pair (perm.mem_iff.mp member)
    exact ⟨place.beyond, place.positive, place.finite⟩
  refine ⟨inLine, good.tree.separated.eq_of_covered inLine.separated_gaps.1 ?_⟩
  rw [good.covered_eq]
  ext point
  rw [inLine.covered_gaps]
  simp only [unallocated, Set.mem_ofPred_eq, covered, List.mem_map]
  constructor
  · rintro ⟨beyond, below, outside⟩
    refine ⟨⟨beyond, below⟩, ?_⟩
    rintro ⟨span, ⟨pair, member, rfl⟩, inside⟩
    exact outside pair (perm.mem_iff.mp member) inside
  · rintro ⟨⟨beyond, below⟩, outside⟩
    refine ⟨beyond, below, fun pair member inside => ?_⟩
    exact outside ⟨blockSpan pair, ⟨pair, perm.mem_iff.mpr member, rfl⟩, inside⟩

/-- No block is at the reserve, and none of the first blocks touches the one behind it. -/
def LayoutLoose (reserve : Nat) (blocks : List BlockPair) (b : Nat) : Prop :=
  (∀ pair ∈ blocks, reserve ≠ pair.offset) ∧
    ∀ pair ∈ (byOffset blocks).take b, ∀ other ∈ blocks, pair.end ≠ other.offset

/-- The blocks are loose when their spans are. -/
theorem layoutLoose_iff {blocks : List BlockPair} {i : Nat} :
    LayoutLoose reserve blocks (i + 1) ↔
      Loose reserve ((byOffset blocks).map blockSpan) i := by
  have perm : (byOffset blocks).Perm blocks := List.perm_insertionSort _ _
  unfold LayoutLoose Loose
  rw [← List.map_take]
  simp only [List.mem_map, forall_exists_index, and_imp, forall_apply_eq_imp_iff₂, blockSpan,
    perm.mem_iff]

/-- The block with a number is found exactly when the blocks up to it are loose. -/
theorem nthBlockInLayoutOrder_iff {start world : AllocatorWorld} {events : List AllocatorEvent}
    (created : Created reserve alignment start) (run : Runs Step start events world) {b : Nat}
    (positive : 1 ≤ b) :
    world.ba.nthBlockInLayoutOrder b = some ((byOffset world.blocks)[b - 1]?) ↔
      (b ≤ world.blocks.length → LayoutLoose reserve world.blocks b) := by
  obtain ⟨-, finite, -⟩ := created.good
  have good := created.run_good run
  obtain ⟨inLine, holes⟩ := good.spans_eq finite
  have length : (byOffset world.blocks).length = world.blocks.length :=
    (List.perm_insertionSort _ _).length_eq
  have count := good.count
  obtain ⟨i, rfl⟩ := Nat.exists_eq_succ_of_ne_zero (Nat.ne_of_gt positive)
  by_cases counted : i < world.blocks.length
  · obtain ⟨-, last, member, -⟩ := good.limit finite
    have nonempty : world.ba.tree ≠ .nil := by
      intro empty
      rw [empty] at member
      cases member
    have isBlock : (byOffset world.blocks)[i]? = some (byOffset world.blocks)[i] :=
      List.getElem?_eq_getElem (by omega)
    have isSpan : ((byOffset world.blocks).map blockSpan)[i]? =
        some (blockSpan (byOffset world.blocks)[i]) := by
      rw [List.getElem?_map, isBlock]
      rfl
    have positive := (good.placed (byOffset world.blocks)[i]
      ((List.perm_insertionSort _ _).mem_iff.mp
      (List.getElem_mem _))).positive
    rw [Nat.succ_sub_one, isBlock, nthBlock_eq good.tree nonempty (by omega), holes,
      layoutLoose_iff, ← inLine.around_iff isSpan]
    constructor
    · intro answer _
      obtain ⟨early, isEarly, rest⟩ := of_bind answer
      obtain ⟨late, isLate, same⟩ := Option.map_eq_some_iff.mp rest
      have block := Option.some.inj same
      have offset := congrArg BlockPair.offset block
      have size := congrArg BlockPair.size block
      refine ⟨early, late, isEarly, isLate, offset, ?_⟩
      simp only at offset size
      show late.1 = _ + _
      omega
    · intro around
      obtain ⟨early, late, isEarly, isLate, offset, last⟩ := around counted
      rw [isEarly, isLate, Option.bind_some, Option.map_some, offset, last]
      simp [blockSpan, BlockPair.end]
  · -- A number that is too big is told apart by the count.
    rw [BlockAllocator.nthBlockInLayoutOrder, if_neg (Nat.succ_ne_zero i), if_pos (by omega),
      List.getElem?_eq_none (by omega)]
    exact iff_of_true rfl fun small => absurd small (by omega)

/-- With the first block freed, the other one is loose and is found as the first. -/
theorem nthBlockInLayoutOrder_after_free : ∃ start world,
    BlockAllocator.create 8192 4096 = some start ∧
    [AllocatorEvent.alloc 100, .alloc 5000, .free ⟨8192, 100⟩].foldlM
      next { ba := start, blocks := [] } = some world ∧
    (world.ba.nthBlockInLayoutOrder 1 = some ((byOffset world.blocks)[1 - 1]?) ↔
      (1 ≤ world.blocks.length → LayoutLoose 8192 world.blocks 1)) := by
  have served : (((BlockAllocator.create 8192 4096).bind fun start =>
      [AllocatorEvent.alloc 100, .alloc 5000, .free ⟨8192, 100⟩].foldlM
        next { ba := start, blocks := [] }).map AllocatorWorld.blocks) =
      some [⟨12288, 5000⟩] := by decide
  obtain ⟨world, reached, -⟩ := Option.map_eq_some_iff.mp served
  obtain ⟨start, created, folded⟩ := of_bind reached
  exact ⟨start, world, created, folded,
    nthBlockInLayoutOrder_iff (.empty (by decide) created) (Runs.of_foldlM folded) (by decide)⟩

/-- The first block of a new file is at the reserve, and asking for it reads a missing hole. -/
theorem nthBlockInLayoutOrder_at_reserve :
    ((BlockAllocator.create 8192 4096).bind fun start =>
      [AllocatorEvent.alloc 100].foldlM next { ba := start, blocks := [] }).map
        (fun world => (world.blocks, world.ba.nthBlockInLayoutOrder 1)) =
      some ([⟨8192, 100⟩], none) := by
  decide

end AllocatorWorld

end Tokuft
