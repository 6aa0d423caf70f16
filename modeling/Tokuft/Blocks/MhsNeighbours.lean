import Tokuft.Blocks.MhsHoles

/-! The neighbours of a node in the order of the holes, as the tree is walked for them. -/

namespace Tokuft

namespace MhsRbTree

/-- A node of a tree, with what hangs below it and what is above it. -/
structure Place where
  node : Node
  left : Tree
  right : Tree
  path : Path
  deriving DecidableEq

namespace Place

/-- The node with everything below it. -/
def tree (x : Place) : Tree := .node x.node x.left x.right

/-- The whole tree that a node is in. -/
def root (x : Place) : Tree := plug x.tree x.path

/-- The holes that come before the one of a node. -/
def earlier (x : Place) : List Hole := before x.path ++ inorder x.left

/-- The holes that come after the one of a node. -/
def later (x : Place) : List Hole := inorder x.right ++ after x.path

end Place

/-- The node above a place, with a tree below it. -/
def Frame.place (frame : Frame) (tree : Tree) (rest : Path) : Place :=
  match frame.dir with
  | .left => { node := frame.data, left := tree, right := frame.sibling, path := rest }
  | .right => { node := frame.data, left := frame.sibling, right := tree, path := rest }

/-- The leftmost node of a tree that is somewhere. -/
def minPlace : Tree → Path → Option Place
  | .nil, _ => none
  | .node data .nil right, path => some { node := data, left := .nil, right, path }
  | .node data left right, path => minPlace left ({ dir := .left, data, sibling := right } :: path)

/-- The rightmost node of a tree that is somewhere. -/
def maxPlace : Tree → Path → Option Place
  | .nil, _ => none
  | .node data left .nil, path => some { node := data, left, right := .nil, path }
  | .node data left right, path => maxPlace right ({ dir := .right, data, sibling := left } :: path)

/-- The nearest node above a tree that has it on the left. -/
def successorHelper (tree : Tree) (path : Path) : Option Place :=
  (findTurn .left path).map fun (lower, turn, upper) => turn.place (plug tree lower) upper

/-- The walk to the node that comes next. -/
def successor (x : Place) : Option Place :=
  match x.right with
  | .nil => successorHelper x.tree x.path
  | right => minPlace right ({ dir := .right, data := x.node, sibling := x.left } :: x.path)

/-- The walk to the node that comes before. -/
def predecessor (x : Place) : Option Place :=
  match x.left with
  -- The source climbs with the helper of the other walk here.
  | .nil => successorHelper x.tree x.path
  | left => maxPlace left ({ dir := .left, data := x.node, sibling := x.right } :: x.path)

variable {x : Place}

/-- A tree around a place has its holes before and after it. -/
theorem inorder_root (x : Place) : inorder x.root = x.earlier ++ x.node.hole :: x.later := by
  simp [Place.root, Place.tree, inorder_plug, inorder, Place.earlier, Place.later]

/-- The node above a place is in the same tree. -/
theorem Frame.root_place (frame : Frame) (tree : Tree) (rest : Path) :
    (frame.place tree rest).root = MhsRbTree.plug tree (frame :: rest) := by
  rcases frame with ⟨_ | _, data, sibling⟩ <;> rfl

/-- The leftmost node of a tree has its first hole. -/
theorem minPlace_ok {tree : Tree} (nonempty : tree ≠ .nil) (path : Path) :
    ∃ y, minPlace tree path = some y ∧ y.root = plug tree path ∧ y.earlier = before path ∧
      inorder tree ++ after path = y.node.hole :: y.later := by
  -- The walk goes down the left side, so the induction is on the left subtree.
  induction tree generalizing path with
  | nil => exact absurd rfl nonempty
  | node data left right ih _ =>
    cases left with
    | nil => exact ⟨_, rfl, rfl, by simp [Place.earlier, inorder], by simp [Place.later, inorder]⟩
    | node other near far =>
      obtain ⟨y, found, same, first, rest⟩ :=
        ih (by simp) ({ dir := .left, data, sibling := right } :: path)
      refine ⟨y, found, same, ?_, ?_⟩
      · rw [first, before, List.append_nil]
      · rw [← rest, inorder, after, List.append_assoc]

/-- The rightmost node of a tree has its last hole. -/
theorem maxPlace_ok {tree : Tree} (nonempty : tree ≠ .nil) (path : Path) :
    ∃ y, maxPlace tree path = some y ∧ y.root = plug tree path ∧ y.later = after path ∧
      before path ++ inorder tree = y.earlier ++ [y.node.hole] := by
  -- This is the mirror image, so the induction is on the right subtree.
  induction tree generalizing path with
  | nil => exact absurd rfl nonempty
  | node data left right _ ih =>
    cases right with
    | nil => exact ⟨_, rfl, rfl, by simp [Place.later, inorder], by simp [Place.earlier, inorder]⟩
    | node other near far =>
      obtain ⟨y, found, same, last, rest⟩ :=
        ih (by simp) ({ dir := .right, data, sibling := left } :: path)
      refine ⟨y, found, same, ?_, ?_⟩
      · rw [last, after, List.nil_append]
      · rw [← rest, inorder, before]
        simp

/-- The climb ends at the first hole after a tree, or finds that there is none. -/
theorem successorHelper_ok (tree : Tree) (path : Path) :
    (successorHelper tree path = none ∧ after path = []) ∨
      ∃ y, successorHelper tree path = some y ∧ y.root = plug tree path ∧
        y.earlier = before path ++ inorder tree ∧ after path = y.node.hole :: y.later := by
  unfold successorHelper
  cases found : findTurn .left path with
  | none => exact Or.inl ⟨rfl, after_eq_nil (findTurn_none found)⟩
  | some turned =>
    obtain ⟨lower, ⟨dir, data, sibling⟩, upper⟩ := turned
    obtain ⟨split, side, others⟩ := findTurn_inv found
    cases side
    -- Below the turn everything hangs on the right, so nothing there comes after the tree.
    have behind : after lower = [] := after_eq_nil others
    refine Or.inr ⟨_, rfl, ?_, ?_, ?_⟩
    · rw [Frame.root_place, split, plug_append]
    · rw [split, before_append]
      simp [Frame.place, Place.earlier, inorder_plug, behind, before]
    · rw [split, after_append, behind]
      simp [Frame.place, Place.later, after]

/-- The walk to the next node ends at the next hole, or finds that there is none. -/
theorem successor_ok (x : Place) :
    (successor x = none ∧ x.later = []) ∨
      ∃ y, successor x = some y ∧ y.root = x.root ∧
        y.earlier = x.earlier ++ [x.node.hole] ∧ x.later = y.node.hole :: y.later := by
  obtain ⟨node, left, right, path⟩ := x
  cases right with
  | nil =>
    -- Without a right child the next hole is above.
    rcases successorHelper_ok (.node node left .nil) path with ⟨none, last⟩ |
      ⟨y, found, same, first, rest⟩
    · exact Or.inl ⟨none, by simp [Place.later, inorder, last]⟩
    · refine Or.inr ⟨y, found, same, ?_, ?_⟩
      · rw [first]
        simp [Place.earlier, inorder]
      · rw [← rest]
        simp [Place.later, inorder]
  | node other near far =>
    obtain ⟨y, found, same, first, rest⟩ :=
      minPlace_ok (show Tree.node other near far ≠ .nil by simp)
      ({ dir := .right, data := node, sibling := left } :: path)
    refine Or.inr ⟨y, found, same, ?_, ?_⟩
    · rw [first]
      simp [Place.earlier, before]
    · rw [← rest]
      simp [Place.later, after]

/-- A node with a left child has the hole before its own on the left. -/
theorem predecessor_ok (child : x.left ≠ .nil) :
    ∃ y, predecessor x = some y ∧ y.root = x.root ∧ y.later = x.node.hole :: x.later ∧
      x.earlier = y.earlier ++ [y.node.hole] := by
  -- The walk goes down the right side of the left child.
  obtain ⟨node, left, right, path⟩ := x
  cases left with
  | nil => exact absurd rfl child
  | node other near far =>
    obtain ⟨y, found, same, last, rest⟩ :=
      maxPlace_ok (show Tree.node other near far ≠ .nil by simp)
      ({ dir := .left, data := node, sibling := right } :: path)
    refine ⟨y, found, same, ?_, ?_⟩
    · rw [last]
      simp [Place.later, after]
    · rw [← rest]
      simp [Place.earlier, before]

/-- What the walk to the next node should find, or that there is nothing to find. -/
def IsNextLarger (x : Place) : Option Place → Prop
  | none => ∀ hole ∈ inorder x.root, hole.offset ≤ x.node.hole.offset
  | some y => y.root = x.root ∧ x.node.hole.offset < y.node.hole.offset ∧
    ∀ hole ∈ inorder x.root, x.node.hole.offset < hole.offset →
      y.node.hole.offset ≤ hole.offset

/-- What the walk to the node before should find, or that there is nothing to find. -/
def IsNextSmaller (x : Place) : Option Place → Prop
  | none => ∀ hole ∈ inorder x.root, x.node.hole.offset ≤ hole.offset
  | some y => y.root = x.root ∧ y.node.hole.offset < x.node.hole.offset ∧
    ∀ hole ∈ inorder x.root, hole.offset < x.node.hole.offset →
      hole.offset ≤ y.node.hole.offset

/-- The holes of a tree come in order of their offsets. -/
def SearchTree (tree : Tree) : Prop :=
  (inorder tree).Pairwise fun first second => first.offset < second.offset

/-- In a search tree the holes before a place are smaller and those after it are larger. -/
theorem SearchTree.around (ordered : SearchTree x.root) :
    (∀ hole ∈ x.earlier, hole.offset < x.node.hole.offset) ∧
      ∀ hole ∈ x.later, x.node.hole.offset < hole.offset := by
  rw [SearchTree, inorder_root] at ordered
  obtain ⟨-, rest, between⟩ := List.pairwise_append.mp ordered
  exact ⟨fun hole member => between hole member _ List.mem_cons_self,
    fun hole member => List.rel_of_pairwise_cons rest member⟩

/-- The walk to the next node finds the next larger offset. -/
theorem successor_isNextLarger (ordered : SearchTree x.root) :
    IsNextLarger x (successor x) := by
  obtain ⟨smaller, larger⟩ := ordered.around
  rcases successor_ok x with ⟨none, last⟩ | ⟨y, found, same, first, rest⟩
  · rw [none]
    intro hole member
    rw [inorder_root, last] at member
    rcases List.mem_append.mp member with before | here
    · exact Nat.le_of_lt (smaller hole before)
    · rw [List.mem_singleton.mp here]
  · rw [found]
    have next : x.node.hole.offset < y.node.hole.offset :=
      larger _ (rest ▸ List.mem_cons_self)
    refine ⟨same, next, fun hole member above => ?_⟩
    -- A larger hole is the one found, or comes after it.
    rw [inorder_root, List.mem_append, List.mem_cons, rest, List.mem_cons] at member
    rcases member with before | rfl | rfl | after
    · exact absurd (smaller hole before) (Nat.lt_asymm above)
    · exact absurd above (Nat.lt_irrefl _)
    · exact Nat.le_refl _
    · rw [← same] at ordered
      exact Nat.le_of_lt (ordered.around.2 hole after)

/-- With a left child, the walk to the node before finds the next smaller offset. -/
theorem predecessor_isNextSmaller (ordered : SearchTree x.root) (child : x.left ≠ .nil) :
    IsNextSmaller x (predecessor x) := by
  -- All other smaller offsets are in front of the one that was found.
  obtain ⟨smaller, larger⟩ := ordered.around
  obtain ⟨y, found, same, last, rest⟩ := predecessor_ok child
  rw [found]
  have next : y.node.hole.offset < x.node.hole.offset :=
    smaller _ (rest ▸ List.mem_append_right _ List.mem_cons_self)
  refine ⟨same, next, fun hole member below => ?_⟩
  rw [inorder_root, List.mem_append, List.mem_cons, rest, List.mem_append,
    List.mem_singleton] at member
  rcases member with (before | rfl) | rfl | after
  · rw [← same] at ordered
    exact Nat.le_of_lt (ordered.around.1 hole before)
  · exact Nat.le_refl _
  · exact absurd below (Nat.lt_irrefl _)
  · exact absurd (larger hole after) (Nat.lt_asymm below)

/-- A place that is not at the root has a hole before or after it above. -/
theorem before_or_after {path : Path} (above : path ≠ []) : before path ≠ [] ∨ after path ≠ [] := by
  rcases path with _ | ⟨⟨_ | _, data, sibling⟩, rest⟩
  · exact absurd rfl above
  · exact Or.inr (by simp [after])
  · exact Or.inl (by simp [before])

/-- Without a left child, the climb on the wrong side goes wrong below the root. -/
theorem not_isNextSmaller (ordered : SearchTree x.root) (child : x.left = .nil)
    (above : x.path ≠ []) : ¬IsNextSmaller x (predecessor x) := by
  intro claimed
  obtain ⟨smaller, larger⟩ := ordered.around
  have climbs : predecessor x = successorHelper x.tree x.path := by rw [predecessor, child]
  rw [climbs] at claimed
  rcases successorHelper_ok x.tree x.path with ⟨none, last⟩ | ⟨y, found, same, first, rest⟩
  · -- Nothing is found, but what is above comes before.
    rw [none] at claimed
    have some : before x.path ≠ [] := (before_or_after above).resolve_right (fun no => no last)
    obtain ⟨hole, member⟩ := List.exists_mem_of_ne_nil _ some
    have earlier : hole ∈ x.earlier := List.mem_append_left _ member
    have whole : hole ∈ inorder x.root := by
      rw [inorder_root]
      exact List.mem_append_left _ earlier
    exact absurd (smaller hole earlier) (Nat.not_lt.mpr (claimed hole whole))
  · -- The node that is found comes after.
    rw [found] at claimed
    have after : y.node.hole ∈ x.later :=
      List.mem_append_right _ (by rw [rest]; exact List.mem_cons_self)
    exact absurd (larger _ after) (Nat.lt_asymm claimed.2.1)

/-- The neighbours of a node are both found only when it has a left child or is the root. -/
theorem neighbours_iff {x : Place} (ordered : SearchTree x.root) :
    IsNextLarger x (successor x) ∧ IsNextSmaller x (predecessor x) ↔
      x.left ≠ .nil ∨ x.path = [] := by
  constructor
  · rintro ⟨-, claimed⟩
    by_contra neither
    rw [not_or, not_not] at neither
    exact not_isNextSmaller ordered neither.1 neither.2 claimed
  · intro either
    refine ⟨successor_isNextLarger ordered, ?_⟩
    by_cases child : x.left = .nil
    · -- At the root without a left child nothing is smaller, and nothing is found.
      have top : x.path = [] := either.resolve_left (fun no => no child)
      have nothing : predecessor x = none := by
        rw [predecessor, child, top]
        rfl
      rw [nothing]
      intro hole member
      rw [inorder_root, Place.earlier, child, top, List.mem_append, List.mem_cons] at member
      rcases member with before | rfl | after
      · cases before
      · exact Nat.le_refl _
      · exact Nat.le_of_lt (ordered.around.2 hole after)
    · exact predecessor_isNextSmaller ordered child

/-- A tree of two holes, of which the later one was put in first. -/
def twoHoles : Option Tree := do
  let late ← Hole.make 4096 512
  let early ← Hole.make 1024 512
  let tree ← insert 512 .nil late
  insert 512 tree early

/-- The node of the earlier of two holes, which hangs on the left of the other. -/
def earlyPlace : Place where
  node := { color := .red, hole := ⟨1024, 512, by decide⟩, label := ⟨0, 0⟩ }
  left := .nil
  right := .nil
  path := [{
    dir := .left
    data := { color := .black, hole := ⟨4096, 512, by decide⟩, label := ⟨512, 0⟩ }
    sibling := .nil }]

/-- Of the earlier of two holes, the later one is found as the one before. -/
theorem predecessor_of_early : twoHoles = some earlyPlace.root ∧ SearchTree earlyPlace.root ∧
    ¬IsNextSmaller earlyPlace (predecessor earlyPlace) := by
  refine ⟨by decide, ?_, fun claimed => ?_⟩
  · have holes : inorder earlyPlace.root = [⟨1024, 512, by decide⟩, ⟨4096, 512, by decide⟩] := rfl
    rw [SearchTree, holes]
    decide
  · exact absurd claimed.2.1 (by decide)

/-- The root of two holes has the earlier one on its left. -/
theorem neighbours_of_late : ∃ x : Place, twoHoles = some x.root ∧
    (IsNextLarger x (successor x) ∧ IsNextSmaller x (predecessor x) ↔
      x.left ≠ .nil ∨ x.path = []) := by
  refine ⟨{
    node := { color := .black, hole := ⟨4096, 512, by decide⟩, label := ⟨512, 0⟩ }
    left := .node { color := .red, hole := ⟨1024, 512, by decide⟩, label := ⟨0, 0⟩ } .nil .nil
    right := .nil
    path := [] }, by decide, neighbours_iff ?_⟩
  show List.Pairwise _ [(⟨1024, 512, by decide⟩ : Hole), ⟨4096, 512, by decide⟩]
  decide

end MhsRbTree

end Tokuft
