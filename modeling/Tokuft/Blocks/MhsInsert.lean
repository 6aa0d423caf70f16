import Tokuft.Blocks.MhsBalance

/-! Taking a node out of the tree, and putting a hole in, which joins the holes that it touches. -/

namespace Tokuft

namespace MhsRbTree

variable {alignment : Nat}

/-- A tree that the operations keep: its labels are true and it is balanced. -/
structure Valid (alignment : Nat) (tree : Tree) : Prop where
  labelled : Labelled alignment tree
  balanced : ∃ top, Balanced tree .black top

/-- A place of a tree that the operations keep, with what is below it. -/
structure ValidAt (alignment : Nat) (tree : Tree) (path : Path) : Prop where
  below : Labelled alignment tree
  above : LabelledPath alignment (mhsOfSubtree alignment tree) path
  balanced : ∃ top, Balanced (plug tree path) .black top

/-- A tree is kept when any of its places is. -/
theorem valid_plug {tree : Tree} {path : Path} :
    Valid alignment (plug tree path) ↔ ValidAt alignment tree path := by
  constructor
  · intro valid
    obtain ⟨below, above⟩ := labelled_plug.mp valid.labelled
    exact ⟨below, above, valid.balanced⟩
  · intro place
    exact ⟨labelled_plug.mpr ⟨place.below, place.above⟩, place.balanced⟩

/-- A replacement of a kept tree that is balanced is kept. -/
theorem Same.valid {tree other : Tree} (same : Same alignment tree other)
    (labelled : Labelled alignment tree) (balanced : ∃ top, Balanced other .black top) :
    Valid alignment other :=
  ⟨(same.labels labelled).1, balanced⟩

/-- A node above without its label. -/
def Frame.bare (frame : Frame) : Frame :=
  { frame with data := { frame.data with label := { left := 0, right := 0 } } }

/-- Recalculation changes nothing but labels. -/
theorem recalculateMhs_bare (maxMhs : Nat) (path : Path) :
    (recalculateMhs alignment maxMhs path).map Frame.bare = path.map Frame.bare := by
  induction path generalizing maxMhs with
  | nil => rfl
  | cons frame rest ih =>
    unfold recalculateMhs
    split
    · simp [ih, Frame.bare, Frame.setMhs]
    · rfl

/-- What balance looks at in a node above. -/
def Frame.tint (frame : Frame) : EColor × Tree := (frame.data.color, frame.sibling)

variable {other : Path} {path : Path}

/-- Paths of the same colors and siblings have the same balance. -/
theorem balancedPath_of_tint {redFits : Bool} {height : Nat}
    (same : other.map Frame.tint = path.map Frame.tint) (above : BalancedPath redFits height path) :
    BalancedPath redFits height other := by
  -- By induction on the path: balance asks for colors and siblings only.
  induction path generalizing other redFits height with
  | nil =>
    rw [List.map_nil, List.map_eq_nil_iff] at same
    subst same
    exact above
  | cons frame rest ih =>
    cases other with
    | nil => cases same
    | cons otherFrame otherRest =>
      simp only [List.map_cons, List.cons.injEq, Frame.tint, Prod.mk.injEq] at same
      obtain ⟨⟨color, sibling⟩, same⟩ := same
      rcases above with ⟨red, fits, siblingOk, above⟩ | ⟨black, fits, siblingOk, rest, above⟩
      · exact Or.inl ⟨color.trans red, fits, sibling ▸ siblingOk, ih same above⟩
      · exact Or.inr ⟨color.trans black, fits, sibling ▸ siblingOk, rest, ih same above⟩

section

variable (same : other.map Frame.bare = path.map Frame.bare)
include same

/-- Paths that differ in labels only have the same colors and siblings. -/
theorem tint_of_bare :
    other.map Frame.tint = path.map Frame.tint := by
  have both := congrArg (List.map Frame.tint) same
  rwa [List.map_map, List.map_map] at both

/-- The holes before a place do not depend on labels. -/
theorem before_of_bare :
    before other = before path := by
  have bare (path : Path) : before (path.map Frame.bare) = before path := by
    induction path with
    | nil => rfl
    | cons frame rest ih =>
      simp only [List.map_cons, before, ih]
      rfl
  rw [← bare other, same, bare]

/-- The holes after a place do not depend on labels. -/
theorem after_of_bare :
    after other = after path := by
  have bare (path : Path) : after (path.map Frame.bare) = after path := by
    induction path with
    | nil => rfl
    | cons frame rest ih =>
      simp only [List.map_cons, after, ih]
      rfl
  rw [← bare other, same, bare]

end

/-- The greatest hole that a stretch of nodes reports upwards. -/
def topMhs (alignment : Nat) : Nat → Path → Nat
  | maxMhs, [] => maxMhs
  | _, frame :: rest => topMhs alignment (mhsOf alignment frame.data) rest

/-- Labels are true above a place when they are true of one stretch and of the next. -/
theorem labelledPath_append {maxMhs : Nat} {lower upper : Path} :
    LabelledPath alignment maxMhs (lower ++ upper) ↔
      LabelledPath alignment maxMhs lower ∧
        LabelledPath alignment (topMhs alignment maxMhs lower) upper := by
  induction lower generalizing maxMhs with
  | nil => simp [LabelledPath, topMhs]
  | cons frame rest ih =>
    rw [List.cons_append, LabelledPath, LabelledPath, ih, topMhs]
    tauto

/-- What a black or red node leaves behind is repaired to a balanced tree of the same holes. -/
theorem fixupRemoved_ok {removed childColor : EColor} {child : Tree} {below : Nat} {redFits : Bool}
    (ok : Balanced child childColor below)
    (wasBlack : removed = .black → BalancedPath redFits (below + 1) path)
    (wasRed : removed = .red → childColor = .black ∧ BalancedPath redFits below path) :
    ∃ tree, fixupRemoved alignment removed child path = some tree ∧
      (∃ top, Balanced tree .black top) ∧ Same alignment (plug child path) tree := by
  -- A red node leaves as it was, and a black one leaves a black too few.
  cases removed with
  | red =>
    obtain ⟨rfl, above⟩ := wasRed rfl
    exact ⟨_, rfl, above.plug ok fun wrong => (by cases wrong), Same.refl _⟩
  | black =>
    have lacking : Lacking child below := by
      refine ⟨fun red => ?_, fun plain => ok.black_of_not_red plain⟩
      have kind : childColor = .red := by
        rw [ok.isRed_eq] at red
        simpa using red
      subst kind
      exact ok.setBlack_red
    exact rawRemoveFixup_ok lacking (wasBlack rfl)

/-- The child of a node with one child is balanced like its place needs. -/
theorem fixupRemoved_single {data : Node} {child : Tree} {dir : EDirection} {color : EColor}
    {height : Nat} {redFits : Bool} {path : Path}
    (ok : Balanced (Tree.link data .nil child dir) color height)
    (above : BalancedPath redFits height path) :
    ∃ tree, fixupRemoved alignment data.color child path = some tree ∧
      (∃ top, Balanced tree .black top) ∧ Same alignment (plug child path) tree := by
  rcases ok.link_inv with ⟨-, red, -, childOk⟩ |
    ⟨-, black, below, nearColor, childColor, rfl, -, childOk⟩
  · refine fixupRemoved_ok childOk (fun wrong => ?_) fun _ => ⟨rfl, above⟩
    rw [red] at wrong
    cases wrong
  · refine fixupRemoved_ok childOk (fun _ => above) fun wrong => ?_
    rw [black] at wrong
    cases wrong

/-- What replaces a node below its parent is recorded upwards. -/
theorem replaceChild_labelled {old : Nat} (child : Tree)
    (labelled : LabelledPath alignment old path) :
    LabelledPath alignment (mhsOfSubtree alignment child) (replaceChild alignment child path) := by
  cases path with
  | nil => trivial
  | cons frame rest =>
    obtain ⟨-, far, sibling, above⟩ := labelled
    exact ⟨Label.on_set _ _ _, by simpa [Frame.setMhs] using far, sibling,
      recalculateMhs_labelled above⟩

/-- What replaces a node below its parent changes nothing but labels. -/
theorem replaceChild_bare (child : Tree) (path : Path) :
    (replaceChild alignment child path).map Frame.bare = path.map Frame.bare := by
  cases path with
  | nil => rfl
  | cons frame rest => simp [replaceChild, recalculateMhs_bare, Frame.bare, Frame.setMhs]

/-- A node with one child is taken out. -/
theorem rawRemove_single {data : Node} {child : Tree} {dir : EDirection} {path : Path}
    (place : ValidAt alignment (Tree.link data .nil child dir) path) :
    ∃ tree, fixupRemoved alignment data.color child (replaceChild alignment child path) =
        some tree ∧ Valid alignment tree ∧
      inorder tree = before path ++ (inorder child ++ after path) := by
  -- The child takes the place of the node.
  obtain ⟨top, balanced⟩ := place.balanced
  obtain ⟨color, height, redFits, ok, above, fits⟩ := balanced.zoom
  have bare := @replaceChild_bare alignment child path
  obtain ⟨tree, removed, treeOk, same⟩ := @fixupRemoved_single alignment _ _ _ _ _ _ _ ok
    (balancedPath_of_tint (tint_of_bare bare) above)
  have childOk := (labelled_link.mp place.below).2.2.2
  refine ⟨tree, removed, same.valid (labelled_plug.mpr
    ⟨childOk, replaceChild_labelled child place.above⟩) treeOk, ?_⟩
  rw [same.holes, inorder_plug, before_of_bare bare, after_of_bare bare]

/-- The leftmost node of a tree lies at its place in the tree. -/
theorem leftmost_plug (data : Node) (left right : Tree) (path : Path) :
    plug (.node (leftmost data left right path).1 .nil (leftmost data left right path).2.1)
        (leftmost data left right path).2.2 = plug (.node data left right) path ∧
      before (leftmost data left right path).2.2 = before path := by
  induction left generalizing data right path with
  | nil => exact ⟨rfl, rfl⟩
  | node next inner outer ih _ =>
    obtain ⟨same, first⟩ := ih next outer ({ dir := .left, data, sibling := right } :: path)
    exact ⟨same, first.trans (List.append_nil _)⟩

/-- Recalculation changes the nodes of two stretches in labels only. -/
theorem recalculateMhs_concat (maxMhs : Nat) (upper : Path) (frame : Frame) :
    ∃ upper' frame', recalculateMhs alignment maxMhs (upper ++ [frame]) = upper' ++ [frame'] ∧
      upper'.map Frame.bare = upper.map Frame.bare ∧ frame'.bare = frame.bare := by
  -- Without labels the path is the same as before.
  have bare := @recalculateMhs_bare alignment maxMhs (upper ++ [frame])
  rw [List.map_append, List.map_eq_append_iff] at bare
  obtain ⟨upper', last, split, first, second⟩ := bare
  cases last with
  | nil => cases second
  | cons frame' others =>
    simp only [List.map_cons, List.map_nil, List.cons.injEq, List.map_eq_nil_iff] at second
    obtain ⟨same, rfl⟩ := second
    exact ⟨upper', frame', split, first, same⟩

/-- A node with two children is taken out, and the next one in order takes its place. -/
theorem rawRemove_both {data next : Node} {left inner outer : Tree} (nonempty : left ≠ .nil)
    (place : ValidAt alignment (.node data left (.node next inner outer)) path) :
    ∃ tree, rawRemove alignment data left (.node next inner outer) path = some tree ∧
      Valid alignment tree ∧ inorder tree =
        before path ++ (inorder left ++ (inorder (.node next inner outer) ++ after path)) := by
  obtain ⟨replaced, first⟩ := leftmost_plug next inner outer []
  rcases found : leftmost next inner outer [] with ⟨replace, child, lower⟩
  simp only [found] at replaced first
  rw [show plug (.node next inner outer) [] = .node next inner outer from rfl] at replaced
  -- The next node in order is at a place of its own below the one that goes.
  have whole : plug (.node replace .nil child)
      (lower ++ { dir := .right, data, sibling := left } :: path) =
        plug (.node data left (.node next inner outer)) path := by
    rw [plug_append, replaced]
    rfl
  have deeper : ValidAt alignment (.node replace .nil child)
      (lower ++ { dir := .right, data, sibling := left } :: path) := by
    rw [← valid_plug, whole, valid_plug]
    exact place
  have holes : inorder (.node next inner outer) =
      replace.hole :: (inorder child ++ after lower) := by
    rw [← replaced, inorder_plug, first]
    simp [inorder, before]
  obtain ⟨top, balanced⟩ := deeper.balanced
  obtain ⟨color, height, redFits, ok, above, fits⟩ := balanced.zoom
  obtain ⟨-, childLabel, -, childOk⟩ := deeper.below
  obtain ⟨lowerLabels, rightLabel, leftLabel, leftOk, pathLabels⟩ :=
    labelledPath_append.mp deeper.above
  -- Whatever the path becomes, the repair needs its colors, labels, and holes.
  have finish (path' : Path)
      (tint : path'.map Frame.tint =
        (lower ++ { dir := .right, data, sibling := left } :: path).map Frame.tint)
      (labels : LabelledPath alignment (mhsOfSubtree alignment child) path')
      (early : before path' = before path ++ (inorder left ++ [replace.hole]))
      (late : after path' = after lower ++ after path) :
      ∃ tree, fixupRemoved alignment replace.color child path' = some tree ∧
        Valid alignment tree ∧ inorder tree =
          before path ++ (inorder left ++ (inorder (.node next inner outer) ++ after path)) := by
    obtain ⟨tree, removed, treeOk, same⟩ := @fixupRemoved_single alignment replace child .left
      color height redFits path' ok (balancedPath_of_tint tint above)
    refine ⟨tree, removed, same.valid (labelled_plug.mpr ⟨childOk, labels⟩) treeOk, ?_⟩
    rw [same.holes, inorder_plug, early, late, holes]
    simp
  have unfolded : rawRemove alignment data left (.node next inner outer) path =
      replaceNode alignment data left replace child lower path := by
    cases left with
    | nil => exact absurd rfl nonempty
    | node leftData leftLeft leftRight => rw [rawRemove, found]
  rw [unfolded]
  cases lower with
  | nil =>
    refine finish _ ?_ ⟨childLabel, leftLabel, leftOk, recalculateMhs_labelled pathLabels⟩ ?_ ?_
    · simp [tint_of_bare (recalculateMhs_bare _ path), Frame.tint]
    · simp [before]
    · simp [after]
  | cons parent upper =>
    obtain ⟨-, parentFar, parentSibling, upperLabels⟩ := lowerLabels
    let newParent := parent.setMhs replace.label.right
    let frame : Frame := { dir := .right, data, sibling := left }
    obtain ⟨upper', frame', recalculated, upperBare, frameBare⟩ :=
      @recalculateMhs_concat alignment (mhsOf alignment newParent.data) upper frame
    -- The labels below the node were true up to the node, and are true again.
    have relabelled : LabelledPath alignment (mhsOf alignment newParent.data)
        (upper' ++ [frame']) := by
      rw [← recalculated]
      refine recalculateMhs_labelled (labelledPath_append.mpr ⟨upperLabels, ?_⟩)
      exact ⟨rightLabel, leftLabel, leftOk, trivial⟩
    obtain ⟨upperOk, frameRight, frameLeft, frameSibling, -⟩ := labelledPath_append.mp relabelled
    have shape : frame'.dir = .right ∧ frame'.sibling = left := by
      have dirs := congrArg Frame.dir frameBare
      have siblings := congrArg Frame.sibling frameBare
      exact ⟨dirs, siblings⟩
    have done : replaceNode alignment data left replace child (parent :: upper) path =
        fixupRemoved alignment replace.color child (newParent :: upper' ++
          { dir := .right, data := { replace with color := data.color, label := frame'.data.label },
            sibling := left } ::
              recalculateMhs alignment (mhsOf alignment
                { replace with color := data.color, label := frame'.data.label }) path) := by
      rw [replaceNode]
      simp only [newParent, frame] at recalculated
      simp only [recalculated, List.getLast?_append, List.getLast?_singleton, Option.some_or,
        Option.getD_some, List.dropLast_concat]
      rfl
    rw [done]
    rw [shape.1, shape.2] at frameLeft
    rw [shape.1] at frameRight
    have upperBefore := before_of_bare upperBare
    have upperAfter := after_of_bare upperBare
    refine finish _ ?_ ?_ ?_ ?_
    · simp [tint_of_bare (recalculateMhs_bare _ path), tint_of_bare upperBare, Frame.tint,
        newParent,
        Frame.setMhs]
    · refine ⟨(Label.on_set _ _ _).trans childLabel,
        by simpa [newParent, Frame.setMhs] using parentFar,
        parentSibling, labelledPath_append.mpr ⟨upperOk, frameRight, frameLeft, leftOk,
          recalculateMhs_labelled pathLabels⟩⟩
    · have none : before (newParent :: upper') = [] := by
        refine Eq.trans ?_ first
        rw [before, before, upperBefore]
        rfl
      rw [before_append, none, List.append_nil, before, before_recalculateMhs]
    · have same : after (newParent :: upper') = after (parent :: upper) := by
        rw [after, after, upperAfter]
        rfl
      rw [after_append, same]
      exact congrArg (after (parent :: upper) ++ ·) (after_recalculateMhs _ path)

/-- A node is taken out of the tree, and every other hole stays. -/
theorem rawRemove_ok {data : Node} {left right : Tree}
    (place : ValidAt alignment (.node data left right) path) :
    ∃ tree, rawRemove alignment data left right path = some tree ∧ Valid alignment tree ∧
      inorder tree = before path ++ (inorder left ++ (inorder right ++ after path)) := by
  -- A node with two children is replaced by its successor, which has one at most.
  cases left with
  | nil =>
    obtain ⟨tree, removed, valid, holes⟩ := @rawRemove_single alignment data right .left path place
    refine ⟨tree, ?_, valid, holes⟩
    rw [← removed]
    cases right <;> rfl
  | node leftData leftLeft leftRight =>
    cases right with
    | nil =>
      obtain ⟨tree, removed, valid, holes⟩ :=
        @rawRemove_single alignment data _ .right path place
      exact ⟨tree, removed, valid, by rw [holes]; simp [inorder]⟩
    | node next inner outer => exact rawRemove_both (by simp) place

variable {upper : Path} {turn y : Frame}

/-- The parts of a path down to a turn, up to which everything hangs on one side. -/
theorem findTurn_inv {dir : EDirection} {lower : Path}
    (found : findTurn dir path = some (lower, turn, upper)) :
    path = lower ++ turn :: upper ∧ turn.dir = dir ∧ ∀ frame ∈ lower, frame.dir ≠ dir := by
  -- By induction on the path, up to the first frame that hangs on the side looked for.
  induction path generalizing lower with
  | nil => cases found
  | cons frame rest ih =>
    unfold findTurn at found
    split at found
    · cases found
      exact ⟨rfl, by assumption, fun frame member => by cases member⟩
    · rename_i other
      obtain ⟨⟨lower', turn', upper'⟩, deeper, same⟩ := Option.map_eq_some_iff.mp found
      cases same
      obtain ⟨split, side, all⟩ := ih deeper
      refine ⟨by rw [split]; rfl, side, fun frame member => ?_⟩
      rcases List.mem_cons.mp member with rfl | member
      · exact other
      · exact all frame member

/-- Without a turn everything hangs on the other side. -/
theorem findTurn_none {dir : EDirection} (missing : findTurn dir path = none) :
    ∀ frame ∈ path, frame.dir ≠ dir := by
  -- By induction on the path, none of whose frames hangs on the side looked for.
  induction path with
  | nil => exact fun frame member => by cases member
  | cons frame rest ih =>
    unfold findTurn at missing
    split at missing
    · cases missing
    · rename_i other
      intro frame member
      rcases List.mem_cons.mp member with rfl | member
      · exact other
      · exact ih (Option.map_eq_none_iff.mp missing) frame member

/-- Nodes that everything hangs on the left of come after it. -/
theorem before_eq_nil (all : ∀ frame ∈ path, frame.dir ≠ .right) :
    before path = [] := by
  induction path with
  | nil => rfl
  | cons frame rest ih =>
    have here := all frame (by simp)
    rw [before, ih fun frame member => all frame (by simp [member])]
    cases side : frame.dir with
    | left => rfl
    | right => exact absurd side here

/-- Nodes that everything hangs on the right of come before it. -/
theorem after_eq_nil (all : ∀ frame ∈ path, frame.dir ≠ .left) :
    after path = [] := by
  induction path with
  | nil => rfl
  | cons frame rest ih =>
    have here := all frame (by simp)
    rw [after, ih fun frame member => all frame (by simp [member])]
    cases side : frame.dir with
    | left => exact absurd side here
    | right => rfl

/-- The way down to an offset leads to a place, past nodes that it compared the offset with. -/
theorem descend_ok {offset : Nat} (finite : offset < mhsMaxVal) (tree : Tree) (path : Path) :
    ∃ place, descend offset tree path = some place ∧ plug .nil place = plug tree path ∧
      ∃ lower, place = lower ++ path ∧ ∀ frame ∈ lower,
        (frame.dir = .left → offset < frame.data.hole.offset) ∧
          (frame.dir = .right → frame.data.hole.offset ≤ offset) := by
  -- By induction on the tree: each comparison leads into one child.
  have asked (other : Nat) : ouLt offset other = some (decide (offset < other)) := by
    have notBoth : ¬(offset = mhsMaxVal ∧ other = mhsMaxVal) := by omega
    simp [ouLt, notBoth]
  induction tree generalizing path with
  | nil => exact ⟨path, rfl, rfl, [], rfl, fun frame member => by cases member⟩
  | node data left right ihLeft ihRight =>
    rw [descend, asked]
    by_cases below : offset < data.hole.offset
    · obtain ⟨place, found, same, lower, split, all⟩ :=
        ihLeft ({ dir := .left, data, sibling := right } :: path)
      refine ⟨place, by simpa [below] using found, same,
        lower ++ [{ dir := .left, data, sibling := right }],
        by rw [split]; simp, fun frame member => ?_⟩
      rcases List.mem_append.mp member with member | member
      · exact all frame member
      · rw [List.mem_singleton.mp member]
        exact ⟨fun _ => below, fun wrong => by cases wrong⟩
    · obtain ⟨place, found, same, lower, split, all⟩ :=
        ihRight ({ dir := .right, data, sibling := left } :: path)
      refine ⟨place, by simpa [below] using found, same,
        lower ++ [{ dir := .right, data, sibling := left }],
        by rw [split]; simp, fun frame member => ?_⟩
      rcases List.mem_append.mp member with member | member
      · exact all frame member
      · rw [List.mem_singleton.mp member]
        exact ⟨fun wrong => (by cases wrong), fun _ => Nat.le_of_not_lt below⟩

/-- In a sorted tree the way down to an offset separates the holes by that offset. -/
theorem descend_sorted {offset : Nat}
    (sorted : (inorder (plug .nil path)).Pairwise fun first second => first.offset < second.offset)
    (compared : ∀ frame ∈ path, (frame.dir = .left → offset < frame.data.hole.offset) ∧
      (frame.dir = .right → frame.data.hole.offset ≤ offset)) :
    (∀ hole ∈ before path, hole.offset ≤ offset) ∧ (∀ hole ∈ after path, offset < hole.offset) := by
  rw [inorder_plug] at sorted
  simp only [inorder, List.nil_append] at sorted
  obtain ⟨early, late, -⟩ := List.pairwise_append.mp sorted
  clear sorted
  induction path with
  | nil => exact ⟨fun hole member => absurd member List.not_mem_nil,
      fun hole member => absurd member List.not_mem_nil⟩
  | cons frame rest ih =>
    obtain ⟨left, right⟩ := compared frame (by simp)
    have above := fun frame member => compared frame (List.mem_cons_of_mem _ member)
    rw [before] at early ⊢
    rw [after] at late ⊢
    obtain ⟨earlyRest, earlyHere, -⟩ := List.pairwise_append.mp early
    obtain ⟨lateHere, lateRest, -⟩ := List.pairwise_append.mp late
    obtain ⟨first, second⟩ := ih above earlyRest lateRest
    cases side : frame.dir with
    | left =>
      rw [side] at lateHere
      refine ⟨by simpa [side] using first, fun hole member => ?_⟩
      rcases List.mem_append.mp member with member | member
      · -- What hangs on the right of the node lies even further behind.
        have far := left side
        rcases List.mem_cons.mp member with rfl | member
        · exact far
        · exact Nat.lt_trans far ((List.pairwise_cons.mp lateHere).1 hole member)
      · exact second hole member
    | right =>
      rw [side] at earlyHere
      refine ⟨fun hole member => ?_, by simpa [side] using second⟩
      rcases List.mem_append.mp member with member | member
      · exact first hole member
      · have near := right side
        rcases List.mem_append.mp member with member | member
        · have order := (List.pairwise_append.mp earlyHere).2.2 hole member frame.data.hole
            (by simp)
          omega
        · rw [List.mem_singleton.mp member]
          exact near

/-- A place with nothing below it may change its nodes, when colors stay and labels are true. -/
theorem valid_retint {path path' : Path} (valid : Valid alignment (plug .nil path))
    (tint : path'.map Frame.tint = path.map Frame.tint)
    (labels : LabelledPath alignment 0 path') : Valid alignment (plug .nil path') := by
  obtain ⟨top, balanced⟩ := valid.balanced
  obtain ⟨color, height, redFits, ok, above, fits⟩ := balanced.zoom
  exact ⟨labelled_plug.mpr ⟨trivial, labels⟩, (balancedPath_of_tint tint above).plug ok fits⟩

/-- The nearest node may change its hole. -/
theorem growNear_ok {rest : Path} {hole : Hole} (valid : Valid alignment (plug .nil (y :: rest))) :
    Valid alignment (growNear alignment y rest hole) ∧
      inorder (growNear alignment y rest hole) =
        before (y.setHole hole :: rest) ++ after (y.setHole hole :: rest) := by
  -- The labels above the node are made true again on the way up.
  have shape : growNear alignment y rest hole = plug .nil (y.setHole hole ::
      recalculateMhs alignment (mhsOf alignment (y.setHole hole).data) rest) := rfl
  obtain ⟨-, near, far, sibling, above⟩ := labelled_plug.mp valid.labelled
  rw [shape]
  refine ⟨valid_retint valid ?_ ⟨near, far, sibling, recalculateMhs_labelled above⟩, ?_⟩
  · simp [tint_of_bare (recalculateMhs_bare _ rest), Frame.tint, Frame.setHole]
  · rw [inorder_plug]
    simp [inorder, before, after]

/-- A node further above may change its hole. -/
theorem growFar_ok {lower : Path} {hole : Hole}
    (valid : Valid alignment (plug .nil (lower ++ turn :: upper))) :
    Valid alignment (growFar alignment lower turn upper hole) ∧
      inorder (growFar alignment lower turn upper hole) =
        before (lower ++ turn.setHole hole :: upper) ++
          after (lower ++ turn.setHole hole :: upper) := by
  -- Only the hole of the turn changes, and the labels above it.
  obtain ⟨-, labels⟩ := labelled_plug.mp valid.labelled
  obtain ⟨below, near, far, sibling, above⟩ := labelledPath_append.mp labels
  refine ⟨valid_retint valid ?_ (labelledPath_append.mpr
    ⟨below, near, far, sibling, recalculateMhs_labelled above⟩), ?_⟩
  · simp [tint_of_bare (recalculateMhs_bare _ upper), Frame.tint, Frame.setHole]
  · rw [growFar, inorder_plug, before_append, after_append, before_append, after_append, before,
      after, before, after]
    simp [inorder]

/-- Recalculation over two stretches stops in the first one, or goes on in the second. -/
theorem recalculateMhs_append {old new : Nat} {lower : Path} (upper : Path)
    (labelled : LabelledPath alignment old lower) :
    ∃ lower', lower'.map Frame.bare = lower.map Frame.bare ∧
      LabelledPath alignment new lower' ∧
      ((recalculateMhs alignment new (lower ++ upper) = lower' ++ upper ∧
          topMhs alignment new lower' = topMhs alignment old lower) ∨
        recalculateMhs alignment new (lower ++ upper) =
          lower' ++ recalculateMhs alignment (topMhs alignment new lower') upper) := by
  -- By induction on the lower stretch, in which the labels may be right already.
  induction lower generalizing old new with
  | nil => exact ⟨[], rfl, trivial, Or.inr rfl⟩
  | cons frame rest ih =>
    obtain ⟨near, far, sibling, above⟩ := labelled
    by_cases same : frame.data.label.on frame.dir ≠ new
    · obtain ⟨rest', bare, labels, next⟩ :=
        @ih _ (mhsOf alignment (frame.setMhs new).data) above
      refine ⟨frame.setMhs new :: rest', by simp [bare, Frame.bare, Frame.setMhs],
        ⟨Label.on_set _ _ _, by simpa [Frame.setMhs] using far, sibling, labels⟩, ?_⟩
      rw [List.cons_append, recalculateMhs, if_pos same]
      dsimp only
      rcases next with ⟨stopped, top⟩ | further
      · exact Or.inl ⟨by rw [stopped]; rfl, top⟩
      · exact Or.inr (by rw [further]; rfl)
    · refine ⟨frame :: rest, rfl, ⟨Decidable.not_not.mp same, far, sibling, above⟩,
        Or.inl ⟨?_, rfl⟩⟩
      rw [List.cons_append, recalculateMhs, if_neg same]

/-- The nearest node leaves the tree. -/
theorem removeNear_ok (place : ValidAt alignment (y.plug .nil) path) :
    ∃ tree, removeNear alignment y path = some tree ∧ Valid alignment tree ∧
      inorder tree = before path ++ (inorder y.sibling ++ after path) := by
  rcases y with ⟨dir, data, sibling⟩
  cases dir with
  | left => exact rawRemove_ok place
  | right => exact rawRemove_ok place

/-- Two nodes may change their holes when the lower one then leaves the tree. -/
theorem absorbBoth_ok {lower : Path} {near far : Hole}
    (valid : Valid alignment (plug .nil (y :: (lower ++ turn :: upper)))) :
    ∃ tree, absorbBoth alignment y lower turn upper near far = some tree ∧
      Valid alignment tree ∧ inorder tree =
        before (lower ++ turn.setHole far :: upper) ++
          (inorder y.sibling ++ after (lower ++ turn.setHole far :: upper)) := by
  obtain ⟨-, yNear, yFar, ySibling, labels⟩ := labelled_plug.mp valid.labelled
  obtain ⟨lowerLabels, turnNear, turnFar, turnSibling, upperLabels⟩ := labelledPath_append.mp labels
  let y' := y.setHole near
  let turn' := turn.setHole far
  obtain ⟨lower', lowerBare, lowerOk, next⟩ := @recalculateMhs_append alignment _
    (mhsOf alignment y'.data) lower (turn' :: upper) lowerLabels
  -- Whether the first recalculation reached the upper node or not, its label is true.
  obtain ⟨turn'', upper', recalculated, turnBare, turnNear', turnFar', upperBare, upperOk⟩ :
      ∃ turn'' upper', recalculateMhs alignment (mhsOf alignment y'.data)
          (lower ++ turn' :: upper) = lower' ++ turn'' :: upper' ∧ turn''.bare = turn'.bare ∧
        turn''.data.label.on turn''.dir = topMhs alignment (mhsOf alignment y'.data) lower' ∧
        turn''.data.label.on turn''.dir.flip = mhsOfSubtree alignment turn''.sibling ∧
        upper'.map Frame.bare = upper.map Frame.bare ∧
        ∃ old, LabelledPath alignment old upper' := by
    rcases next with ⟨stopped, top⟩ | further
    · exact ⟨turn', upper, stopped, rfl, turnNear.trans top.symm, turnFar, rfl, _, upperLabels⟩
    · have far' : turn'.data.label.on turn'.dir.flip =
        mhsOfSubtree alignment turn'.sibling := turnFar
      by_cases same : turn'.data.label.on turn'.dir ≠
          topMhs alignment (mhsOf alignment y'.data) lower'
      · refine ⟨turn'.setMhs (topMhs alignment (mhsOf alignment y'.data) lower'),
          recalculateMhs alignment (mhsOf alignment (turn'.setMhs (topMhs alignment
            (mhsOf alignment y'.data) lower')).data) upper, ?_, rfl, Label.on_set _ _ _,
          by simpa [Frame.setMhs] using far', recalculateMhs_bare _ _, _,
          recalculateMhs_labelled upperLabels⟩
        rw [further, recalculateMhs, if_pos same]
      · refine ⟨turn', upper, ?_, rfl, Decidable.not_not.mp same, turnFar, rfl, _, upperLabels⟩
        rw [further, recalculateMhs, if_neg same]
  have length : lower'.length = lower.length := by
    simpa using congrArg List.length lowerBare
  have beside : turn''.sibling = turn.sibling := by
    have both := congrArg Frame.sibling turnBare
    exact both
  obtain ⟨old, upperOk⟩ := upperOk
  let path := lower' ++ turn'' :: recalculateMhs alignment (mhsOf alignment turn''.data) upper'
  have pathBare : path.map Frame.bare = (lower ++ turn' :: upper).map Frame.bare := by
    simp [path, lowerBare, turnBare, recalculateMhs_bare, upperBare]
  have place : ValidAt alignment (y'.plug .nil) path := by
    refine (@valid_plug alignment (y'.plug .nil) path).mp
      (@valid_retint alignment _ (y' :: path) valid ?_ ?_)
    · rw [List.map_cons, tint_of_bare pathBare]
      simp [Frame.tint, y', turn', Frame.setHole]
    · refine ⟨yNear, yFar, ySibling, labelledPath_append.mpr ⟨lowerOk, turnNear', turnFar', ?_,
        recalculateMhs_labelled upperOk⟩⟩
      rw [beside]
      exact turnSibling
  have parts : (lower' ++ turn'' :: upper').drop lower.length = turn'' :: upper' ∧
      (lower' ++ turn'' :: upper').take lower.length = lower' := by
    rw [← length]
    simp
  rw [← before_of_bare pathBare, ← after_of_bare pathBare]
  have unfolded : absorbBoth alignment y lower turn upper near far =
    removeNear alignment y' path := by
    rw [absorbBoth, recalculated, parts.1, parts.2]
  rw [unfolded]
  exact removeNear_ok place

end MhsRbTree

end Tokuft
