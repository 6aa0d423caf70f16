import Tokuft.Blocks.MhsTree

/-! Which holes a tree has in order, and what keeps the labels of its nodes true. -/

namespace Tokuft

namespace MhsRbTree

/-- The holes of a tree in order. -/
def inorder : Tree → List Hole
  | .nil => []
  | .node data left right => inorder left ++ data.hole :: inorder right

/-- The holes above a place that come before it. -/
def before : Path → List Hole
  | [] => []
  | frame :: rest => before rest ++ match frame.dir with
    | .left => []
    | .right => inorder frame.sibling ++ [frame.data.hole]

/-- The holes above a place that come after it. -/
def after : Path → List Hole
  | [] => []
  | frame :: rest => (match frame.dir with
    | .left => frame.data.hole :: inorder frame.sibling
    | .right => []) ++ after rest

/-- The holes of a whole tree are those before, at, and after a place. -/
theorem inorder_plug (tree : Tree) (path : Path) :
    inorder (plug tree path) = before path ++ (inorder tree ++ after path) := by
  -- By induction on the path, whose frames hang on the left or on the right.
  induction path generalizing tree with
  | nil => simp [plug, before, after]
  | cons frame rest ih =>
    rcases frame with ⟨_ | _, data, sibling⟩ <;>
      simp [plug, ih, before, after, Frame.plug, Tree.link, inorder]

/-- What is above two stretches of nodes one after the other. -/
theorem plug_append (tree : Tree) (lower upper : Path) :
    plug tree (lower ++ upper) = plug (plug tree lower) upper := by
  induction lower generalizing tree with
  | nil => rfl
  | cons frame rest ih => exact ih (frame.plug tree)

/-- The holes before two stretches of nodes. -/
theorem before_append (lower upper : Path) :
    before (lower ++ upper) = before upper ++ before lower := by
  induction lower with
  | nil => simp [before]
  | cons frame rest ih => simp [before, ih]

/-- The holes after two stretches of nodes. -/
theorem after_append (lower upper : Path) :
    after (lower ++ upper) = after lower ++ after upper := by
  induction lower with
  | nil => simp [after]
  | cons frame rest ih => simp [after, ih]

variable {alignment : Nat}

/-- With whole sectors no aligned offset is infinite, so that the checks of the source pass. -/
theorem checkedEffectiveSize_eq (sectors : alignment % 512 = 0) (hole : Hole) :
    checkedEffectiveSize alignment hole = some (effectiveSize alignment hole) := by
  -- The greatest 64-bit number is odd.
  have finite : align alignment hole.offset ≠ mhsMaxVal := by
    obtain ⟨count, rfl⟩ := Nat.dvd_of_mod_eq_zero sectors
    rw [align, mhsMaxVal]
    generalize (hole.offset + 512 * count - 1) % 2 ^ 64 / (512 * count) = blocks
    rw [show blocks * (512 * count) = 512 * (blocks * count) by ring]
    omega
  have notBoth : ¬(hole.end = mhsMaxVal ∧ align alignment hole.offset = mhsMaxVal) :=
    fun both => finite both.2
  simp only [checkedEffectiveSize, effectiveSize, ouLt, ouSub, invariant_of notBoth,
    invariant_of finite, bind_runs]
  by_cases above : hole.end < align alignment hole.offset
  · simp [above]
  · have within := Nat.le_of_not_lt above
    by_cases infinite : hole.end = mhsMaxVal
    · rw [infinite] at above
      simp [infinite, above]
    · simp [infinite, above, invariant_of within]

/-- Every node of a tree records the greatest holes of its subtrees. -/
def Labelled (alignment : Nat) : Tree → Prop
  | .nil => True
  | .node data left right =>
    data.label.left = mhsOfSubtree alignment left ∧
      data.label.right = mhsOfSubtree alignment right ∧
      Labelled alignment left ∧ Labelled alignment right

/-- Every node above a place records the greatest holes, when the place has a given one. -/
def LabelledPath (alignment : Nat) : Nat → Path → Prop
  | _, [] => True
  | maxMhs, frame :: rest =>
    frame.data.label.on frame.dir = maxMhs ∧
      frame.data.label.on frame.dir.flip = mhsOfSubtree alignment frame.sibling ∧
      Labelled alignment frame.sibling ∧ LabelledPath alignment (mhsOf alignment frame.data) rest

section

variable (label : Label) (value : Nat) (dir : EDirection)
include label value dir

/-- A side that is set reads as what it was set to. -/
@[simp] theorem Label.on_set :
    (label.set value dir).on dir = value := by
  cases dir <;> rfl

/-- A side that is set leaves the other side alone. -/
@[simp] theorem Label.on_set_flip :
    (label.set value dir).on dir.flip = label.on dir.flip := by
  cases dir <;> rfl

end

/-- A node says of both its children what they say of themselves. -/
theorem labelled_link {data : Node} {near far : Tree} {dir : EDirection} :
    Labelled alignment (Tree.link data near far dir) ↔
      data.label.on dir = mhsOfSubtree alignment near ∧
        data.label.on dir.flip = mhsOfSubtree alignment far ∧
        Labelled alignment near ∧ Labelled alignment far := by
  cases dir with
  | left => exact Iff.rfl
  | right =>
    simp only [Tree.link, Labelled, Label.on, EDirection.flip]
    tauto

/-- The greatest hole of a node does not depend on how its children are named. -/
@[simp] theorem mhsOfSubtree_link (data : Node) (near far : Tree) (dir : EDirection) :
    mhsOfSubtree alignment (Tree.link data near far dir) = mhsOf alignment data := by
  cases dir <;> rfl

/-- The labels of a whole tree are true when they are below and above a place. -/
theorem labelled_plug {tree : Tree} {path : Path} :
    Labelled alignment (plug tree path) ↔
      Labelled alignment tree ∧ LabelledPath alignment (mhsOfSubtree alignment tree) path := by
  -- By induction on the path: the label of a frame speaks of the tree below it.
  induction path generalizing tree with
  | nil => simp [plug, LabelledPath]
  | cons frame rest ih =>
    rw [plug, ih, Frame.plug, labelled_link, mhsOfSubtree_link, LabelledPath]
    tauto

/-- Recalculation makes the labels above true again. -/
theorem recalculateMhs_labelled {old new : Nat} {path : Path}
    (labelled : LabelledPath alignment old path) :
    LabelledPath alignment new (recalculateMhs alignment new path) := by
  -- By induction on the path, up to the first node whose label was right already.
  induction path generalizing old new with
  | nil => trivial
  | cons frame rest ih =>
    obtain ⟨near, far, sibling, above⟩ := labelled
    unfold recalculateMhs
    split
    · exact ⟨Label.on_set _ _ _, by simpa [Frame.setMhs] using far, sibling, ih above⟩
    · -- A label that is recorded already leaves everything above as it was.
      rename_i same
      exact ⟨Decidable.not_not.mp same, far, sibling, above⟩

/-- Recalculation keeps the holes before a place. -/
@[simp] theorem before_recalculateMhs (maxMhs : Nat) (path : Path) :
    before (recalculateMhs alignment maxMhs path) = before path := by
  induction path generalizing maxMhs with
  | nil => rfl
  | cons frame rest ih =>
    unfold recalculateMhs
    split
    · simp [before, ih, Frame.setMhs]
    · rfl

/-- Recalculation keeps the holes after a place. -/
@[simp] theorem after_recalculateMhs (maxMhs : Nat) (path : Path) :
    after (recalculateMhs alignment maxMhs path) = after path := by
  induction path generalizing maxMhs with
  | nil => rfl
  | cons frame rest ih =>
    unfold recalculateMhs
    split
    · simp [after, ih, Frame.setMhs]
    · rfl

/-- A tree may take the place of another when it has the same holes and true labels. -/
structure Same (alignment : Nat) (tree other : Tree) : Prop where
  holes : inorder other = inorder tree
  labels : Labelled alignment tree →
    Labelled alignment other ∧ mhsOfSubtree alignment other = mhsOfSubtree alignment tree

/-- A tree may stay. -/
theorem Same.refl (tree : Tree) : Same alignment tree tree :=
  ⟨rfl, fun labelled => ⟨labelled, rfl⟩⟩

/-- Replacements follow each other. -/
theorem Same.trans {tree other another : Tree} (first : Same alignment tree other)
    (second : Same alignment other another) : Same alignment tree another := by
  refine ⟨second.holes.trans first.holes, fun labelled => ?_⟩
  obtain ⟨middle, firstMhs⟩ := first.labels labelled
  obtain ⟨last, secondMhs⟩ := second.labels middle
  exact ⟨last, secondMhs.trans firstMhs⟩

/-- Both children of a node may be replaced. -/
theorem Same.link {near near' far far' : Tree} (first : Same alignment near near')
    (second : Same alignment far far') {data data' : Node} (hole : data'.hole = data.hole)
    (label : data'.label = data.label) (dir : EDirection) :
    Same alignment (Tree.link data near far dir) (Tree.link data' near' far' dir) := by
  constructor
  · cases dir <;> simp [Tree.link, inorder, first.holes, second.holes, hole]
  · rw [labelled_link, labelled_link, mhsOfSubtree_link, mhsOfSubtree_link, label]
    intro labelled
    obtain ⟨nearLabel, farLabel, nearOk, farOk⟩ := labelled
    obtain ⟨nearOk, nearMhs⟩ := first.labels nearOk
    obtain ⟨farOk, farMhs⟩ := second.labels farOk
    refine ⟨⟨nearLabel.trans nearMhs.symm, farLabel.trans farMhs.symm, nearOk, farOk⟩, ?_⟩
    simp only [mhsOf, hole, label]

/-- A node above may be colored, and both what hangs on it replaced. -/
theorem Same.frame {tree other sibling : Tree} (same : Same alignment tree other) {frame : Frame}
    (beside : Same alignment frame.sibling sibling) (color : EColor) :
    Same alignment (frame.plug tree)
      (Frame.plug { (frame.setColor color) with sibling := sibling } other) :=
  @Same.link alignment tree other frame.sibling sibling same beside frame.data
    (frame.setColor color).data rfl rfl frame.dir

/-- What is below a place may be replaced in the whole tree. -/
theorem Same.plug {tree other : Tree} (same : Same alignment tree other) (path : Path) :
    Same alignment (plug tree path) (plug other path) := by
  induction path generalizing tree other with
  | nil => exact same
  | cons frame rest ih => exact ih (same.link (Same.refl _) rfl rfl frame.dir)

/-- A color does not matter to the holes. -/
theorem Same.setColor (color : EColor) (tree : Tree) :
    Same alignment tree (setColor color tree) := by
  cases tree with
  | nil => exact Same.refl _
  | node data left right =>
    exact @Same.link alignment left left right right (Same.refl left) (Same.refl right) data
      { data with color } rfl rfl .left

/-- A rotation moves nothing past anything else, and records what it moves. -/
theorem rotate_same {dir : EDirection} {x : Node} {near far top : Tree}
    (rotated : rotate alignment dir x near far = some top) :
    Same alignment (Tree.link x near far dir) top := by
  -- One case for each direction.
  cases far with
  | nil => cases rotated
  | node y left right =>
    cases dir with
    | left =>
      cases rotated
      refine ⟨by simp [Tree.link, inorder], fun labelled => ?_⟩
      simp only [Tree.link, Labelled, mhsOfSubtree, mhsOf, Label.set, Label.on, EDirection.flip]
        at labelled ⊢
      obtain ⟨nearLabel, farLabel, nearOk, leftLabel, rightLabel, leftOk, rightOk⟩ := labelled
      exact ⟨⟨trivial, rightLabel, ⟨nearLabel, leftLabel, nearOk, leftOk⟩, rightOk⟩, by omega⟩
    | right =>
      cases rotated
      refine ⟨by simp [Tree.link, inorder], fun labelled => ?_⟩
      simp only [Tree.link, Labelled, mhsOfSubtree, mhsOf, Label.set, Label.on, EDirection.flip]
        at labelled ⊢
      obtain ⟨farLabel, nearLabel, ⟨leftLabel, rightLabel, leftOk, rightOk⟩, nearOk⟩ := labelled
      exact ⟨⟨leftLabel, trivial, leftOk, ⟨rightLabel, nearLabel, rightOk, nearOk⟩⟩, by omega⟩

/-- A rotation of a tree moves nothing past anything else. -/
theorem rotateTo_same {dir : EDirection} {tree top : Tree}
    (rotated : rotateTo alignment dir tree = some top) : Same alignment tree top := by
  cases tree with
  | nil => cases dir <;> cases rotated
  | node data left right =>
    cases dir with
    | left => exact @rotate_same alignment .left data left right top rotated
    | right => exact @rotate_same alignment .right data right left top rotated

end MhsRbTree

end Tokuft
