import Tokuft.Blocks.MhsMerge
import Tokuft.Library.Spans

/-! The tree of holes tells the free points of the file; its search finds the first with room. -/

namespace Tokuft

namespace MhsRbTree

open Spans

variable {alignment : Nat}

/-- The points of a hole. -/
def Hole.span (hole : Hole) : Nat × Nat := (hole.offset, hole.end)

/-- The points of the holes of a tree in order. -/
def spans (tree : Tree) : List (Nat × Nat) := (inorder tree).map Hole.span

/-- A kept tree whose holes are nonempty and lie apart from each other. -/
structure Good (alignment : Nat) (tree : Tree) : Prop where
  valid : Valid alignment tree
  separated : Separated (spans tree)

variable {tree : Tree}

/-- A hole ends at infinity or before. -/
theorem Hole.end_le (hole : Hole) (finite : hole.offset < mhsMaxVal) : hole.end ≤ mhsMaxVal := by
  rcases hole.end_cases finite with ⟨-, last⟩ | ⟨-, last, fits⟩ <;> omega

/-- A nonempty hole starts below infinity. -/
theorem Hole.finite (hole : Hole) (nonempty : hole.offset < hole.end) :
    hole.offset < mhsMaxVal := by
  -- Nothing is behind infinity.
  by_contra infinite
  have sum := hole.add_eq
  unfold ouAdd at sum
  split at sum
  · have last := Option.some.inj sum
    omega
  · by_cases fits : hole.size ≤ mhsMaxVal - hole.offset
    · simp [fits] at sum
      omega
    · simp [invariant, fits] at sum

/-- A hole of a good tree is nonempty. -/
theorem Good.nonempty {tree : Tree} (good : Good alignment tree) {hole : Hole}
    (member : hole ∈ inorder tree) : hole.offset < hole.end :=
  good.separated.nonempty hole.span (List.mem_map_of_mem member)

/-- The holes of a good tree come in order of their offsets. -/
theorem Good.sorted (good : Good alignment tree) :
    (inorder tree).Pairwise fun first second => first.offset < second.offset := by
  refine (List.pairwise_map.mp good.separated.apart).imp_of_mem ?_
  intro first second member _ apart
  exact Nat.lt_trans (good.nonempty member) apart

/-- The hole before a new one is joined with it if they touch. -/
theorem Joined.last {early late holes : List Hole} {pair : Hole}
    (joined : Joined early late pair holes) :
    ∃ front back start last, holes.map Hole.span = front ++ (start, last) :: back ∧
      JoinsLast (early.map Hole.span) pair.offset front start ∧
      JoinsFirst (late.map Hole.span) pair.end back last := by
  -- A hole that does not touch the new one stays as it is.
  have apartLast (apart : ∀ hole ∈ early.getLast?, hole.end ≠ pair.offset) :
      JoinsLast (early.map Hole.span) pair.offset (early.map Hole.span) pair.offset := by
    refine JoinsLast.apart fun span member => ?_
    rw [List.getLast?_map, Option.mem_map] at member
    obtain ⟨hole, here, rfl⟩ := member
    exact apart hole here
  have apartFirst (apart : ∀ hole ∈ late.head?, pair.end ≠ hole.offset) :
      JoinsFirst (late.map Hole.span) pair.end (late.map Hole.span) pair.end := by
    refine JoinsFirst.apart fun span member => ?_
    rw [List.head?_map, Option.mem_map] at member
    obtain ⟨hole, here, rfl⟩ := member
    exact apart hole here
  cases joined with
  | alone first second =>
    exact ⟨_, _, _, _, by rw [List.map_append]; rfl, apartLast first, apartFirst second⟩
  | @left others pred hole split first second start last =>
    refine ⟨others.map Hole.span, late.map Hole.span, hole.offset, hole.end,
      List.map_append, ?_, ?_⟩
    · exact JoinsLast.touching (by rw [split]; simp [Hole.span, first, start])
    · rw [last]
      exact apartFirst second
  | @right others succ hole split first second start last =>
    refine ⟨early.map Hole.span, others.map Hole.span, hole.offset, hole.end,
      List.map_append, ?_, ?_⟩
    · rw [start]
      exact apartLast first
    · exact JoinsFirst.touching (by rw [split]; simp [Hole.span, second, last])
  | @both others rest pred succ hole splitEarly splitLate first second start last =>
    refine ⟨others.map Hole.span, rest.map Hole.span, hole.offset, hole.end,
      List.map_append, ?_, ?_⟩
    · exact JoinsLast.touching (by rw [splitEarly]; simp [Hole.span, first, start])
    · exact JoinsFirst.touching (by rw [splitLate]; simp [Hole.span, second, last])

/-- A hole that overlaps no other is put into the tree, which then holds its points too. -/
theorem insert_good {root : Tree} {pair : Hole} (good : Good alignment root)
    (finite : pair.offset < mhsMaxVal) (nonempty : pair.offset < pair.end)
    (room : ∀ hole ∈ inorder root, hole.end ≤ pair.offset ∨ pair.end ≤ hole.offset) :
    ∃ tree, insert alignment root pair = some tree ∧ Good alignment tree ∧
      ∀ point, point ∈ covered (spans tree) ↔
        point ∈ covered (spans root) ∨ (pair.offset ≤ point ∧ point < pair.end) := by
  -- The search ends between the two holes around the new one.
  obtain ⟨path, descended, same, lower, split, compared⟩ := descend_ok finite root []
  rw [List.append_nil] at split
  subst split
  have same : plug .nil path = root := same
  have sorted := good.sorted
  rw [← same] at sorted
  obtain ⟨first, second⟩ := descend_sorted sorted compared
  have holes : inorder root = before path ++ after path := by
    rw [← same, inorder_plug]
    simp [inorder]
  have isRoom : Room (before path) (after path) pair := by
    refine ⟨finite, nonempty, fun hole member => ?_, fun hole member => ?_⟩
    · have inside : hole ∈ inorder root := by rw [holes]; exact List.mem_append_left _ member
      have some := good.nonempty inside
      have order := first hole member
      rcases room hole inside with before | after <;> omega
    · have inside : hole ∈ inorder root := by rw [holes]; exact List.mem_append_right _ member
      have some := good.nonempty inside
      have order := second hole member
      have bound := hole.finite some
      rcases room hole inside with before | after
      · omega
      · exact ⟨after, bound⟩
  obtain ⟨tree, inserted, valid, joined⟩ := insert_ok good.valid descended same isRoom
  obtain ⟨front, back, start, last, shape, left, right⟩ := joined.last
  have separated := good.separated
  rw [spans, holes, List.map_append] at separated
  obtain ⟨result, holds⟩ := separated.join nonempty
    (fun span member => by
      obtain ⟨hole, here, rfl⟩ := List.mem_map.mp member
      exact (isRoom.early hole here).2)
    (fun span member => by
      obtain ⟨hole, here, rfl⟩ := List.mem_map.mp member
      exact (isRoom.late hole here).1) left right
  refine ⟨tree, inserted, ⟨valid, by rw [spans, shape]; exact result⟩, fun point => ?_⟩
  rw [spans, shape, holds, spans, holes, List.map_append]

open Spans

variable {size : Nat}

/-- The label of a subtree tells whether one of its holes has room. -/
theorem le_mhsOfSubtree (labelled : Labelled alignment tree) (positive : 0 < size) :
    size ≤ mhsOfSubtree alignment tree ↔
      ∃ hole ∈ inorder tree, size ≤ effectiveSize alignment hole := by
  -- By induction on the tree, whose label is the largest of three.
  induction tree with
  | nil => simp [mhsOfSubtree, inorder]; omega
  | node data left right ihLeft ihRight =>
    obtain ⟨near, far, leftOk, rightOk⟩ := labelled
    have whole : size ≤ mhsOfSubtree alignment (.node data left right) ↔
        size ≤ mhsOfSubtree alignment left ∨ size ≤ effectiveSize alignment data.hole ∨
          size ≤ mhsOfSubtree alignment right := by
      rw [mhsOfSubtree, mhsOf, near, far]
      omega
    rw [whole, ihLeft leftOk, ihRight rightOk]
    simp [inorder, or_and_right, exists_or]

/-- The search comes to the first hole in order that has room. -/
theorem searchFirstFitBySizeHelper_ok (path : Path) (labelled : Labelled alignment tree)
    (positive : 0 < size) (room : size ≤ mhsOfSubtree alignment tree) :
    ∃ data left right lower,
      searchFirstFitBySizeHelper alignment size tree path =
          some (data, left, right, lower ++ path) ∧
        plug (.node data left right) lower = tree ∧
        size ≤ effectiveSize alignment data.hole ∧
        ∀ hole ∈ before lower ++ inorder left, effectiveSize alignment hole < size := by
  induction tree generalizing path with
  | nil => simp [mhsOfSubtree] at room; omega
  | node data left right ihLeft ihRight =>
    obtain ⟨near, far, leftOk, rightOk⟩ := labelled
    -- Whatever the node says of itself, the search goes left as long as there is room.
    by_cases roomLeft : size ≤ mhsOfSubtree alignment left
    · let frame : Frame := { dir := .left, data, sibling := right }
      obtain ⟨found, foundLeft, foundRight, lower, searched, same, fits, none⟩ :=
        ihLeft (frame :: path) leftOk roomLeft
      refine ⟨found, foundLeft, foundRight, lower ++ [frame], ?_, ?_, fits, ?_⟩
      · unfold searchFirstFitBySizeHelper
        simp [near, roomLeft, searched, frame]
      · rw [plug_append, same]
        rfl
      · simpa [before_append, before, frame] using none
    · have noneLeft : ∀ hole ∈ inorder left, effectiveSize alignment hole < size := by
        intro hole member
        by_contra enough
        exact roomLeft ((le_mhsOfSubtree leftOk positive).mpr
          ⟨hole, member, Nat.le_of_not_lt enough⟩)
      by_cases fits : size ≤ effectiveSize alignment data.hole
      · refine ⟨data, left, right, [], ?_, rfl, fits, by simpa [before] using noneLeft⟩
        unfold searchFirstFitBySizeHelper
        simp [near, roomLeft, fits]
      · have roomRight : size ≤ mhsOfSubtree alignment right := by
          rw [mhsOfSubtree, mhsOf, near, far] at room
          omega
        let frame : Frame := { dir := .right, data, sibling := left }
        obtain ⟨found, foundLeft, foundRight, lower, searched, same, enough, none⟩ :=
          ihRight (frame :: path) rightOk roomRight
        refine ⟨found, foundLeft, foundRight, lower ++ [frame], ?_, ?_, enough, ?_⟩
        · unfold searchFirstFitBySizeHelper
          simp [near, far, roomLeft, fits, roomRight, searched, frame]
        · rw [plug_append, same]
          rfl
        · intro hole member
          simp only [before_append, before, frame, List.nil_append, List.append_assoc,
            List.mem_append, List.mem_singleton] at member
          rcases member with early | here | late | last
          · exact noneLeft hole early
          · rw [here]
            omega
          · exact none hole (List.mem_append_left _ late)
          · exact none hole (List.mem_append_right _ last)

/-- Either no hole has room, or the search comes to the first in order that does. -/
theorem searchFirstFitBySize_ok {root : Tree} (labelled : Labelled alignment root)
    (positive : 0 < size) :
    (searchFirstFitBySize alignment size root = none ∧
        ∀ hole ∈ inorder root, effectiveSize alignment hole < size) ∨
      ∃ data left right path,
        searchFirstFitBySize alignment size root = some (data, left, right, path) ∧
          plug (.node data left right) path = root ∧
          size ≤ effectiveSize alignment data.hole ∧
          ∀ hole ∈ before path ++ inorder left, effectiveSize alignment hole < size := by
  -- The label of the root tells whether there is such a hole.
  by_cases room : size ≤ mhsOfSubtree alignment root
  · obtain ⟨data, left, right, lower, searched, same, fits, none⟩ :=
      searchFirstFitBySizeHelper_ok [] labelled positive room
    rw [List.append_nil] at searched
    refine Or.inr ⟨data, left, right, lower, ?_, same, fits, none⟩
    cases root with
    | nil => simp [searchFirstFitBySizeHelper] at searched
    | node top first second =>
      rw [mhsOfSubtree, mhsOf] at room
      have some : ¬(effectiveSize alignment top.hole < size ∧ top.label.left < size ∧
          top.label.right < size) := by omega
      rw [searchFirstFitBySize, if_neg some]
      exact searched
  · have none : ∀ hole ∈ inorder root, effectiveSize alignment hole < size := by
      intro hole member
      by_contra enough
      exact room ((le_mhsOfSubtree labelled positive).mpr
        ⟨hole, member, Nat.le_of_not_lt enough⟩)
    refine Or.inl ⟨?_, none⟩
    cases root with
    | nil => rfl
    | node top first second =>
      rw [mhsOfSubtree, mhsOf] at room
      exact if_pos (by omega)

/-- A node may get another hole when the labels above it are recalculated. -/
theorem setHole_ok {node : Node} {left right : Tree} {path : Path} (hole : Hole)
    (place : ValidAt alignment (.node node left right) path) :
    ValidAt alignment (.node { node with hole } left right)
      (recalculateMhs alignment (mhsOf alignment { node with hole }) path) := by
  -- The labels above are those of the new hole, and no colour changes.
  refine ⟨place.below, recalculateMhs_labelled place.above, ?_⟩
  obtain ⟨top, balanced⟩ := place.balanced
  obtain ⟨color, height, redFits, ok, above, fits⟩ := balanced.zoom
  have same : Balanced (.node { node with hole } left right) color height := by
    cases ok with
    | red color leftOk rightOk => exact .red color leftOk rightOk
    | black color leftOk rightOk => exact .black color leftOk rightOk
  exact (balancedPath_of_tint (tint_of_bare (recalculateMhs_bare _ path)) above).plug same fits

/-- A node with an empty hole leaves the tree, and another one stays. -/
theorem keepNonempty_ok {node : Node} {left right : Tree} {path : Path}
    (place : ValidAt alignment (.node node left right) path)
    (finite : node.hole.offset < mhsMaxVal) :
    ∃ tree, keepNonempty alignment node left right path = some tree ∧ Valid alignment tree ∧
      spans tree = (before path ++ inorder left).map Hole.span ++
        piece node.hole.offset node.hole.end ++ (inorder right ++ after path).map Hole.span := by
  -- An empty hole holds no point.
  unfold keepNonempty
  by_cases empty : node.hole.size = 0
  · obtain ⟨tree, removed, valid, holes⟩ := rawRemove_ok place
    refine ⟨tree, by rw [if_pos empty]; exact removed, valid, ?_⟩
    have none : ¬node.hole.offset < node.hole.end := by
      rcases node.hole.end_cases finite with ⟨infinite, -⟩ | ⟨-, last, -⟩ <;>
        simp [mhsMaxVal] at * <;> omega
    rw [spans, holes]
    simp [piece, none]
  · refine ⟨_, by rw [if_neg empty], valid_plug.mpr place, ?_⟩
    have some : node.hole.offset < node.hole.end := by
      rcases node.hole.end_cases finite with ⟨-, last⟩ | ⟨-, last, -⟩ <;> omega
    rw [spans, inorder_plug]
    simp [inorder, piece, some, Hole.span]

end MhsRbTree

end Tokuft
