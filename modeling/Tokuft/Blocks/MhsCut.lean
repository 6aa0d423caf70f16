import Tokuft.Blocks.MhsHoles

/-! A block is cut out of the first hole that has room for it. -/

namespace Tokuft

namespace MhsRbTree

open Spans

variable {alignment : Nat} {hole : Hole} {size value other offset : Nat}

/-- What is left behind a number of what ends at another one. -/
theorem ouSub_add {low high : Nat} (finite : low < mhsMaxVal) (within : low ≤ high)
    (bound : high ≤ mhsMaxVal) :
    ∃ size, ouSub high low = some size ∧ ouAdd low size = some high := by
  -- Infinity stays infinity.
  have notInfinite : low ≠ mhsMaxVal := by omega
  by_cases infinite : high = mhsMaxVal
  · exact ⟨mhsMaxVal, by simp [ouSub, infinite, invariant, notInfinite], by simp [infinite]⟩
  · refine ⟨high - low, by simp [ouSub, infinite, invariant, notInfinite, within], ?_⟩
    rw [ouAdd_of_le (by omega)]
    congr 1
    omega

/-- What is left of a hole behind a part in front. -/
theorem ouSubAssign_front (finite : hole.offset + size < mhsMaxVal)
    (within : hole.offset + size ≤ hole.end) :
    ∃ rest, ouSubAssign hole.size size = some rest ∧
      ouAdd (hole.offset + size) rest = some hole.end := by
  -- A hole without end has no end afterwards either.
  have starts : hole.offset < mhsMaxVal := by omega
  have notInfinite : size ≠ mhsMaxVal := by omega
  rcases hole.end_cases starts with ⟨infinite, last⟩ | ⟨notWhole, last, fits⟩
  · exact ⟨mhsMaxVal, by simp [ouSubAssign, infinite], by simp [last]⟩
  · have enough : size ≤ hole.size := by omega
    refine ⟨hole.size - size, ?_, ?_⟩
    · simp [ouSubAssign, ouSub, notWhole, notInfinite, invariant, enough]
    · rw [ouAdd_of_le (by omega), last]
      congr 1
      omega

/-- What is left of a hole before a part at its end. -/
theorem ouSubAssign_back {start : Nat} (after : hole.offset ≤ start)
    (finite : start + size < mhsMaxVal) (ends : start + size = hole.end) :
    ∃ rest, ouSubAssign hole.size size = some rest ∧ ouAdd hole.offset rest = some start := by
  -- The end is finite here, so that the hole has an end.
  have starts : hole.offset < mhsMaxVal := by omega
  have notInfinite : size ≠ mhsMaxVal := by omega
  rcases hole.end_cases starts with ⟨infinite, last⟩ | ⟨notWhole, last, fits⟩
  · omega
  · have enough : size ≤ hole.size := by omega
    refine ⟨hole.size - size, ?_, ?_⟩
    · simp [ouSubAssign, ouSub, notWhole, notInfinite, invariant, enough]
    · rw [ouAdd_of_le (by omega)]
      congr 1
      omega

/-- The points of the holes at, before, and after a node. -/
theorem spans_plug (node : Node) (left right : Tree) (path : Path) :
    spans (plug (.node node left right) path) =
      (before path ++ inorder left).map Hole.span ++
        node.hole.span :: (inorder right ++ after path).map Hole.span := by
  rw [spans, inorder_plug]
  simp [inorder]

/-- A part is cut out of a hole that starts and ends around it. -/
theorem removeFrom_ok {node : Node} {left right : Tree} {path : Path}
    (good : Good alignment (plug (.node node left right) path)) (positive : 0 < size)
    (starts : node.hole.offset ≤ align alignment node.hole.offset)
    (within : align alignment node.hole.offset + size ≤ node.hole.end)
    (finite : align alignment node.hole.offset + size < mhsMaxVal) :
    ∃ tree, removeFrom alignment node left right path size =
        some (align alignment node.hole.offset, tree) ∧ Good alignment tree ∧
      ∀ point, point ∈ covered (spans tree) ↔
        point ∈ covered (spans (plug (.node node left right) path)) ∧
          ¬(align alignment node.hole.offset ≤ point ∧
            point < align alignment node.hole.offset + size) := by
  have place := valid_plug.mp good.valid
  have separated := good.separated
  have early : node.hole.offset < mhsMaxVal := by omega
  have bound := node.hole.end_le early
  have added := @ouAdd_of_le (align alignment node.hole.offset) size (by omega)
  have inside : ouLe (align alignment node.hole.offset + size) node.hole.end = some true := by
    have notBoth : ¬(align alignment node.hole.offset + size = mhsMaxVal ∧
        node.hole.end = mhsMaxVal) := by omega
    simp [ouLe, invariant, notBoth, within]
  rw [spans_plug] at separated ⊢
  unfold removeFrom
  simp only [added, node.hole.add_eq, inside, bind_runs, invariant_of]
  by_cases same : align alignment node.hole.offset = node.hole.offset
  · -- The part is at the front, and what is left behind it may be empty.
    rw [same] at within finite ⊢
    obtain ⟨rest, subtracted, sum⟩ := ouSubAssign_front finite within
    obtain ⟨hole, made, start, -, last⟩ := Hole.make_of_add sum
    have front : ouAdd node.hole.offset size = some (node.hole.offset + size) :=
      ouAdd_of_le (by omega)
    obtain ⟨tree, kept, valid, shape⟩ := keepNonempty_ok (setHole_ok hole place) (by
      rw [start]
      exact finite)
    simp only [front, subtracted, made, Option.bind_some, if_true]
    rw [kept]
    obtain ⟨result, holds⟩ := separated.carve (le_refl node.hole.offset)
      (Nat.lt_add_of_pos_right positive) within
    have empty : piece node.hole.offset node.hole.offset = [] := if_neg (lt_irrefl _)
    rw [empty, List.nil_append] at result holds
    simp only [start, last, before_recalculateMhs, after_recalculateMhs] at shape
    refine ⟨tree, rfl, ⟨valid, by rw [shape]; exact result⟩, fun point => ?_⟩
    rw [shape]
    exact holds point
  · have apart : node.hole.offset < align alignment node.hole.offset := by omega
    have front : piece node.hole.offset (align alignment node.hole.offset) =
        [(node.hole.offset, align alignment node.hole.offset)] := if_pos apart
    rw [if_neg same]
    by_cases ends : align alignment node.hole.offset + size = node.hole.end
    · -- The part is at the end, and what is left in front of it stays in the node.
      obtain ⟨rest, subtracted, sum⟩ := ouSubAssign_back starts finite ends
      obtain ⟨hole, made, start, -, last⟩ := Hole.make_of_add sum
      simp only [if_pos ends, subtracted, made, Option.bind_some]
      obtain ⟨result, holds⟩ := separated.carve starts (Nat.lt_add_of_pos_right positive) within
      have empty : piece (align alignment node.hole.offset + size) node.hole.end = [] :=
        if_neg (by omega)
      rw [front, empty, List.append_nil, List.append_assoc, List.singleton_append] at result holds
      have shape := spans_plug { node with hole } left right
        (recalculateMhs alignment (mhsOf alignment { node with hole }) path)
      simp only [before_recalculateMhs, after_recalculateMhs, Hole.span, start, last] at shape
      refine ⟨_, rfl, ⟨valid_plug.mpr (setHole_ok hole place), ?_⟩, fun point => ?_⟩
      · rw [shape]
        exact result
      · rw [shape]
        exact holds point
    · -- The part is in the middle, and what is left behind it is put in as a new hole.
      obtain ⟨rest, subtracted, sum⟩ := ouSub_add early starts (by omega)
      obtain ⟨hole, made, start, -, last⟩ := Hole.make_of_add sum
      obtain ⟨behind, subtractedBehind, sumBehind⟩ := ouSub_add finite within bound
      obtain ⟨pair, madePair, startPair, -, lastPair⟩ := Hole.make_of_add sumBehind
      simp only [if_neg ends, subtracted, made, subtractedBehind, madePair, Option.bind_some]
      obtain ⟨result, holds⟩ := separated.carve starts
        (show align alignment node.hole.offset < node.hole.end by omega) (le_refl node.hole.end)
      have empty : piece node.hole.end node.hole.end = [] := if_neg (lt_irrefl _)
      rw [front, empty, List.append_nil, List.append_assoc, List.singleton_append] at result holds
      have shape := spans_plug { node with hole } left right
        (recalculateMhs alignment (mhsOf alignment { node with hole }) path)
      simp only [before_recalculateMhs, after_recalculateMhs, Hole.span, start, last] at shape
      have shrunk : Good alignment (plug (.node { node with hole } left right)
          (recalculateMhs alignment (mhsOf alignment { node with hole }) path)) :=
        ⟨valid_plug.mpr (setHole_ok hole place), by rw [shape]; exact result⟩
      have room : ∀ other ∈ inorder (plug (.node { node with hole } left right)
          (recalculateMhs alignment (mhsOf alignment { node with hole }) path)),
          other.end ≤ pair.offset ∨ pair.end ≤ other.offset := by
        intro other member
        have spanned : other.span ∈ spans (plug (.node { node with hole } left right)
          (recalculateMhs alignment (mhsOf alignment { node with hole }) path)) :=
          List.mem_map_of_mem member
        obtain ⟨earlier, later⟩ := separated.around
        rw [shape] at spanned
        rcases List.mem_append.mp spanned with here | there
        · have apart : other.end < node.hole.offset := earlier _ here
          omega
        · rcases List.mem_cons.mp there with same | there
          · have ends : other.end = align alignment node.hole.offset := congrArg Prod.snd same
            omega
          · have apart : node.hole.end < other.offset := later _ there
            omega
      obtain ⟨tree, inserted, ok, holdsBehind⟩ := insert_good shrunk (by omega)
        (show pair.offset < pair.end by omega) room
      refine ⟨tree, by rw [inserted]; rfl, ok, fun point => ?_⟩
      have whole : node.hole.offset ≤ point ∧ point < node.hole.end → point ∈ covered
          ((before path ++ inorder left).map Hole.span ++
            node.hole.span :: (inorder right ++ after path).map Hole.span) := fun inside =>
        covered_append.mpr (Or.inr (covered_cons.mpr (Or.inl inside)))
      rw [holdsBehind, shape, holds, startPair, lastPair]
      constructor
      · rintro (⟨inside, outside⟩ | inside)
        · exact ⟨inside, by omega⟩
        · exact ⟨whole (by omega), by omega⟩
      · rintro ⟨inside, outside⟩
        by_cases far : align alignment node.hole.offset ≤ point ∧ point < node.hole.end
        · exact Or.inr (by omega)
        · exact Or.inl ⟨inside, far⟩

/-- A sum that is not infinite is the sum of its parts. -/
theorem ouAdd_inv {sum : Nat} (added : ouAdd value other = some sum) :
    sum = mhsMaxVal ∨ sum = value + other := by
  unfold ouAdd at added
  split at added
  · exact Or.inl (Option.some.inj added).symm
  · by_cases fits : other ≤ mhsMaxVal - value
    · exact Or.inr (by simpa [fits, eq_comm] using added)
    · simp [invariant, fits] at added

/-- Numbers that are found in order are not both infinite. -/
theorem ouLe_inv (compared : ouLe value other = some true) :
    ¬(value = mhsMaxVal ∧ other = mhsMaxVal) ∧ value ≤ other := by
  unfold ouLe at compared
  by_cases both : value = mhsMaxVal ∧ other = mhsMaxVal
  · simp [invariant, both] at compared
  · refine ⟨both, ?_⟩
    simp only [invariant_of both, bind_runs] at compared
    exact of_decide_eq_true (Option.some.inj compared)

/-- What is taken from a number that is not infinite is no more than it. -/
theorem ouSub_inv {rest : Nat} (subtracted : ouSub value other = some rest) :
    value = mhsMaxVal ∨ other ≤ value := by
  unfold ouSub at subtracted
  by_cases infinite : value = mhsMaxVal
  · exact Or.inl infinite
  · by_cases within : other ≤ value
    · exact Or.inr within
    · simp [infinite, invariant, within] at subtracted

/-- A part is only cut out of a hole that starts and ends around it. -/
theorem removeFrom_inv {node : Node} {left right : Tree} {path : Path} {tree : Tree}
    (early : node.hole.offset < mhsMaxVal)
    (removed : removeFrom alignment node left right path size = some (offset, tree)) :
    offset = align alignment node.hole.offset ∧ node.hole.offset ≤ offset ∧
      offset + size ≤ node.hole.end ∧ offset + size < mhsMaxVal := by
  have bound := node.hole.end_le early
  unfold removeFrom at removed
  simp only [node.hole.add_eq, bind_runs] at removed
  obtain ⟨last, added, removed⟩ := of_bind removed
  obtain ⟨inside, compared, removed⟩ := of_bind removed
  obtain ⟨_, held, removed⟩ := of_bind removed
  rw [invariant_eq_some.mp held] at compared
  obtain ⟨notBoth, within⟩ := ouLe_inv compared
  have sum : last = align alignment node.hole.offset + size := by
    rcases ouAdd_inv added with infinite | sum
    · omega
    · exact sum
  by_cases same : align alignment node.hole.offset = node.hole.offset
  · simp only [if_pos same, Option.bind_eq_some_iff] at removed
    obtain ⟨_, -, _, -, _, -, _, -, result⟩ := removed
    obtain ⟨rfl, -⟩ := Prod.mk.inj (Option.some.inj result)
    omega
  · rw [if_neg same] at removed
    by_cases ends : last = node.hole.end
    · simp only [if_pos ends, Option.bind_eq_some_iff] at removed
      obtain ⟨rest, subtracted, _, -, result⟩ := removed
      obtain ⟨rfl, -⟩ := Prod.mk.inj (Option.some.inj result)
      -- The hole holds the part, so the part cannot start before it.
      rcases node.hole.end_cases early with ⟨-, infinite⟩ | ⟨notWhole, whole, -⟩
      · omega
      · rw [ouSubAssign, if_neg notWhole] at subtracted
        rcases ouSub_inv subtracted with infinite | enough <;> omega
    · simp only [if_neg ends, Option.bind_eq_some_iff] at removed
      obtain ⟨front, subtracted, _, -, _, -, _, -, _, -, result⟩ := removed
      obtain ⟨rfl, -⟩ := Prod.mk.inj (Option.some.inj result)
      rcases ouSub_inv subtracted with infinite | starts <;> omega

/-- An offset is rounded up unless that wraps around the end of the numbers. -/
theorem le_align (positive : 0 < alignment) (fits : offset + alignment ≤ 2 ^ 64) :
    offset ≤ align alignment offset := by
  rw [align, Nat.mod_eq_of_lt (by omega)]
  have split := Nat.div_add_mod (offset + alignment - 1) alignment
  have part := Nat.mod_lt (offset + alignment - 1) positive
  rw [Nat.mul_comm] at split
  omega

/-- A rounded offset is the lowest aligned one from there on. -/
theorem align_least (offset : Nat) (positive : 0 < alignment) :
    align alignment offset % alignment = 0 ∧ align alignment offset < offset + alignment ∧
      ∀ other, other % alignment = 0 → offset ≤ other → align alignment offset ≤ other := by
  have below : align alignment offset < offset + alignment := by
    have most : align alignment offset ≤ (offset + alignment - 1) % 2 ^ 64 :=
      Nat.div_mul_le_self _ _
    have reduced := Nat.mod_le (offset + alignment - 1) (2 ^ 64)
    omega
  refine ⟨Nat.mul_mod_left _ _, below, fun other aligned after => ?_⟩
  obtain ⟨count, rfl⟩ := Nat.dvd_of_mod_eq_zero aligned
  rw [align] at below ⊢
  rw [Nat.mul_comm alignment count] at after ⊢
  -- A lower multiple would lie below the offset.
  by_contra lower
  have fewer : count + 1 ≤ (offset + alignment - 1) % 2 ^ 64 / alignment := by
    by_contra more
    have atMost : (offset + alignment - 1) % 2 ^ 64 / alignment ≤ count := by omega
    exact lower (Nat.mul_le_mul_right alignment atMost)
  have step := Nat.mul_le_mul_right alignment fewer
  rw [Nat.add_mul] at step
  omega

/-- What the removal of a block does to the holes, and where the block lies. -/
structure Removed (alignment : Nat) (root : Tree) (size offset : Nat) (tree : Tree) : Prop where
  good : Good alignment tree
  points : ∀ point, point ∈ covered (spans tree) ↔
    point ∈ covered (spans root) ∧ ¬(offset ≤ point ∧ point < offset + size)
  aligned : offset % alignment = 0
  finite : offset + size < mhsMaxVal
  held : ∃ hole ∈ inorder root, hole.offset ≤ offset ∧ offset + size ≤ hole.end
  lowest : ∀ hole ∈ inorder root, ∀ other, other % alignment = 0 → hole.offset ≤ other →
    other + size ≤ hole.end → offset ≤ other

/-- A hole that ends behind a rounded offset has room for what fits between. -/
theorem le_effectiveSize (finite : size ≤ mhsMaxVal)
    (within : align alignment hole.offset + size ≤ hole.end) :
    size ≤ effectiveSize alignment hole := by
  have notBelow : ¬hole.end < align alignment hole.offset := by omega
  rw [effectiveSize]
  simp only [if_neg notBelow]
  split <;> omega

/-- A block is cut out at the lowest aligned offset that a hole holds it at. -/
theorem remove_ok {root tree : Tree} (good : Good alignment root)
    (positive : 0 < size) (alignmentPositive : 0 < alignment)
    (removed : remove alignment root size = some (offset, tree)) :
    Removed alignment root size offset tree := by
  rcases searchFirstFitBySize_ok good.valid.labelled positive with ⟨missing, -⟩ |
    ⟨node, left, right, path, searched, same, fits, none⟩
  · rw [remove, missing] at removed
    cases removed
  · rw [remove, searched, bind_of_some] at removed
    have removed : removeFrom alignment node left right path size = some (offset, tree) := removed
    subst same
    have holes : inorder (plug (.node node left right) path) =
        (before path ++ inorder left) ++ node.hole :: (inorder right ++ after path) := by
      rw [inorder_plug]
      simp [inorder]
    have member : node.hole ∈ inorder (plug (.node node left right) path) := by
      rw [holes]
      exact List.mem_append_right _ List.mem_cons_self
    have early := node.hole.finite (good.nonempty member)
    obtain ⟨rfl, starts, within, finite⟩ := removeFrom_inv early removed
    obtain ⟨result, again, ok, points⟩ := removeFrom_ok good positive starts within finite
    rw [again] at removed
    obtain ⟨-, rfl⟩ := Prod.mk.inj (Option.some.inj removed)
    obtain ⟨aligned, -, least⟩ := align_least node.hole.offset alignmentPositive
    refine ⟨ok, points, aligned, finite, ⟨node.hole, member, starts, within⟩, ?_⟩
    intro hole inside other otherAligned after fitsOther
    have sorted := good.sorted
    rw [holes] at inside sorted
    obtain ⟨-, later, -⟩ := List.pairwise_append.mp sorted
    rcases List.mem_append.mp inside with here | there
    · -- A hole in front has no room from its first aligned offset on.
      obtain ⟨-, -, holeLeast⟩ := align_least hole.offset alignmentPositive
      have lower := holeLeast other otherAligned after
      have short := none hole here
      have room := le_effectiveSize (show size ≤ mhsMaxVal by omega)
        (show align alignment hole.offset + size ≤ hole.end by omega)
      omega
    · rcases List.mem_cons.mp there with rfl | there
      · exact least other otherAligned after
      · have order := List.rel_of_pairwise_cons later there
        exact least other otherAligned (by omega)

section

variable {root : Tree} (good : Good alignment root) (positive : 0 < size)
  (alignmentPositive : 0 < alignment)
include good positive alignmentPositive

/-- A block is cut out when a hole holds it at its first aligned offset. -/
theorem remove_fits (width : alignment < 2 ^ 64) {roomy : Hole} (member : roomy ∈ inorder root)
    (starts : roomy.offset ≤ align alignment roomy.offset)
    (within : align alignment roomy.offset + size ≤ roomy.end)
    (finite : align alignment roomy.offset + size < mhsMaxVal) :
    ∃ offset tree, remove alignment root size = some (offset, tree) := by
  have enough : size ≤ effectiveSize alignment roomy := le_effectiveSize (by omega) within
  -- An offset that wraps around when it is rounded is rounded to zero.
  have notWrapped : roomy.offset + alignment ≤ 2 ^ 64 := by
    by_contra wraps
    have rounded : (roomy.offset + alignment - 1) % 2 ^ 64 < alignment := by
      simp only [mhsMaxVal] at finite
      omega
    rw [align, Nat.div_eq_of_lt rounded] at starts
    omega
  rcases searchFirstFitBySize_ok good.valid.labelled positive with ⟨-, none⟩ |
    ⟨node, left, right, path, searched, same, fits, none⟩
  · have short := none roomy member
    omega
  · subst same
    have holes : inorder (plug (.node node left right) path) =
        (before path ++ inorder left) ++ node.hole :: (inorder right ++ after path) := by
      rw [inorder_plug]
      simp [inorder]
    have separated := good.separated
    rw [spans_plug] at separated
    rw [holes] at member
    have cut : node.hole.offset ≤ roomy.offset ∧
        align alignment node.hole.offset + size ≤ node.hole.end ∧
        align alignment node.hole.offset + size < mhsMaxVal := by
      rcases List.mem_append.mp member with here | there
      · have short := none roomy here
        omega
      · rcases List.mem_cons.mp there with rfl | there
        · exact ⟨Nat.le_refl _, within, finite⟩
        · -- A hole in front of another one ends before infinity.
          have apart : node.hole.end < roomy.offset :=
            separated.around.2 _ (List.mem_map_of_mem there)
          have nonempty : node.hole.offset < node.hole.end :=
            separated.nonempty node.hole.span (by simp)
          unfold effectiveSize at fits
          simp only [if_neg (show node.hole.end ≠ mhsMaxVal by omega)] at fits
          split at fits <;> omega
    obtain ⟨tree, removed, -, -⟩ := removeFrom_ok good positive
      (le_align alignmentPositive (by omega)) cut.2.1 cut.2.2
    exact ⟨_, tree, by rw [remove, searched]; exact removed⟩

/-- A block is cut out when there is room for it behind the last hole. -/
theorem remove_total {limit : Hole} (member : limit ∈ inorder root)
    (infinite : limit.end = mhsMaxVal) (room : limit.offset + alignment + size ≤ mhsMaxVal) :
    ∃ offset tree, remove alignment root size = some (offset, tree) := by
  -- The last hole has room, so that the search finds one that has.
  obtain ⟨-, below, -⟩ := align_least limit.offset alignmentPositive
  have width : limit.offset + alignment < 2 ^ 64 := by
    simp only [mhsMaxVal] at room
    omega
  exact remove_fits good positive alignmentPositive (by omega) member
    (le_align alignmentPositive (by omega)) (by omega) (by omega)

end

end MhsRbTree

end Tokuft
