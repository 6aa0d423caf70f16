import Tokuft.Blocks.MhsLabels

/-! The repairs after an insertion and a removal never follow a missing node. -/

namespace Tokuft

namespace MhsRbTree

/-- A tree with a root color and a black height, where no red node has a red child. -/
inductive Balanced : Tree → EColor → Nat → Prop where
  | nil : Balanced .nil .black 0
  | red {data : Node} {left right : Tree} {height : Nat} (color : data.color = .red)
      (leftOk : Balanced left .black height) (rightOk : Balanced right .black height) :
      Balanced (.node data left right) .red height
  | black {data : Node} {left right : Tree} {leftColor rightColor : EColor} {height : Nat}
      (color : data.color = .black) (leftOk : Balanced left leftColor height)
      (rightOk : Balanced right rightColor height) :
      Balanced (.node data left right) .black (height + 1)

/-- Nodes above a place that a tree of some black height fits into, red or only black. -/
def BalancedPath : Bool → Nat → Path → Prop
  | redFits, _, [] => redFits = false
  | redFits, height, frame :: rest =>
    (frame.data.color = .red ∧ redFits = false ∧ Balanced frame.sibling .black height ∧
      BalancedPath true height rest) ∨
    (frame.data.color = .black ∧ redFits = true ∧ (∃ color, Balanced frame.sibling color height) ∧
      ∃ fits, BalancedPath fits (height + 1) rest)

variable {alignment : Nat}
  {data : Node} {near far node : Tree} {height : Nat} {color : EColor} {dir : EDirection}
  {path : Path}

/-- A node may be looked at from its other side. -/
theorem link_flip (data : Node) (near far : Tree) (dir : EDirection) :
    Tree.link data near far dir.flip = Tree.link data far near dir := by
  cases dir <;> rfl

/-- A tree that is not empty has a child on either side. -/
theorem exists_link {tree : Tree} (some : tree ≠ .nil) (dir : EDirection) :
    ∃ data near far, tree = Tree.link data near far dir := by
  -- On either side the node is a link that names its children from that side.
  cases tree with
  | nil => exact absurd rfl some
  | node data left right =>
    cases dir with
    | left => exact ⟨data, left, right, rfl⟩
    | right => exact ⟨data, right, left, rfl⟩

/-- The root of a node has its color. -/
@[simp] theorem isRed_link (data : Node) (near far : Tree) (dir : EDirection) :
    isRed (Tree.link data near far dir) = decide (data.color = .red) := by
  cases dir <;> rfl

/-- A node that is colored keeps its children. -/
@[simp] theorem setColor_link (color : EColor) (data : Node) (near far : Tree) (dir : EDirection) :
    setColor color (Tree.link data near far dir) =
      Tree.link { data with color } near far dir := by
  cases dir <;> rfl

/-- The child on a side. -/
@[simp] theorem child_link (data : Node) (near far : Tree) (dir : EDirection) :
    child dir (Tree.link data near far dir) = near := by
  cases dir <;> rfl

/-- The child on the other side. -/
@[simp] theorem child_flip_link (data : Node) (near far : Tree) (dir : EDirection) :
    child dir.flip (Tree.link data near far dir) = far := by
  cases dir <;> rfl

/-- The node at the root. -/
@[simp] theorem rootOf_link (data : Node) (near far : Tree) (dir : EDirection) :
    rootOf (Tree.link data near far dir) = some data := by
  cases dir <;> rfl

/-- The child on a side is changed alone. -/
@[simp] theorem setChild_link (tree : Tree) (data : Node) (near far : Tree) (dir : EDirection) :
    setChild dir tree (Tree.link data near far dir) = Tree.link data tree far dir := by
  cases dir <;> rfl

/-- The child on the other side is changed alone. -/
@[simp] theorem setChild_flip_link (tree : Tree) (data : Node) (near far : Tree)
    (dir : EDirection) :
    setChild dir.flip tree (Tree.link data near far dir) = Tree.link data near tree dir := by
  cases dir <;> rfl

/-- A rotation brings the far child to the top and keeps the colors of both. -/
theorem rotateTo_link (dir : EDirection) (x y : Node) (near inner outer : Tree) :
    ∃ x' y', x'.color = x.color ∧ y'.color = y.color ∧
      rotateTo alignment dir (Tree.link x near (Tree.link y inner outer dir) dir) =
        some (Tree.link y' (Tree.link x' near inner dir) outer dir) := by
  -- Only the two labels that the rotation touches change.
  let lowered := { x with label := x.label.set (y.label.on dir) dir.flip }
  let raised := { y with label := y.label.set (mhsOf alignment lowered) dir }
  refine ⟨lowered, raised, rfl, rfl, ?_⟩
  cases dir <;> rfl

/-- A rotation the other way brings the near child to the top. -/
theorem rotateTo_flip_link (dir : EDirection) (x y : Node) (inner outer far : Tree) :
    ∃ x' y', x'.color = x.color ∧ y'.color = y.color ∧
      rotateTo alignment dir.flip (Tree.link x (Tree.link y outer inner dir) far dir) =
        some (Tree.link y' outer (Tree.link x' inner far dir) dir) := by
  obtain ⟨x', y', xColor, yColor, rotated⟩ := @rotateTo_link alignment dir.flip x y far inner outer
  refine ⟨x', y', xColor, yColor, ?_⟩
  simpa only [link_flip] using rotated

/-- A red node over black children. -/
theorem Balanced.link_red (color : data.color = .red) (nearOk : Balanced near .black height)
    (farOk : Balanced far .black height) (dir : EDirection) :
    Balanced (Tree.link data near far dir) .red height := by
  cases dir with
  | left => exact .red color nearOk farOk
  | right => exact .red color farOk nearOk

/-- A black node over any children. -/
theorem Balanced.link_black {nearColor farColor : EColor} (color : data.color = .black)
    (nearOk : Balanced near nearColor height) (farOk : Balanced far farColor height)
    (dir : EDirection) :
    Balanced (Tree.link data near far dir) .black (height + 1) := by
  cases dir with
  | left => exact .black color nearOk farOk
  | right => exact .black color farOk nearOk

/-- A balanced node is red over black children, or black over any children. -/
theorem Balanced.link_inv (ok : Balanced (Tree.link data near far dir) color height) :
    (color = .red ∧ data.color = .red ∧ Balanced near .black height ∧
      Balanced far .black height) ∨
    (color = .black ∧ data.color = .black ∧ ∃ below nearColor farColor, height = below + 1 ∧
      Balanced near nearColor below ∧ Balanced far farColor below) := by
  -- The two sides differ by which child is called the near one.
  cases dir with
  | left =>
    cases ok with
    | red red nearOk farOk => exact Or.inl ⟨rfl, red, nearOk, farOk⟩
    | black black nearOk farOk => exact Or.inr ⟨rfl, black, _, _, _, rfl, nearOk, farOk⟩
  | right =>
    cases ok with
    | red red farOk nearOk => exact Or.inl ⟨rfl, red, nearOk, farOk⟩
    | black black farOk nearOk => exact Or.inr ⟨rfl, black, _, _, _, rfl, nearOk, farOk⟩

/-- The color of a balanced tree is that of its root. -/
theorem Balanced.isRed_eq {tree : Tree} (ok : Balanced tree color height) :
    isRed tree = decide (color = .red) := by
  cases ok with
  | nil => rfl
  | red color => simp [isRed, color]
  | black color => simp [isRed, color]

/-- A tree without a red root is black. -/
theorem Balanced.black_of_not_red {tree : Tree} (ok : Balanced tree color height)
    (plain : isRed tree = false) :
    Balanced tree .black height := by
  rw [ok.isRed_eq] at plain
  cases color with
  | red => simp at plain
  | black => exact ok

/-- A tree without a red root is not changed by coloring it black. -/
theorem setColor_black_of_not_red {tree : Tree} (plain : isRed tree = false) :
    setColor .black tree = tree := by
  cases tree with
  | nil => rfl
  | node data left right =>
    rcases data with ⟨_ | _, hole, label⟩
    · cases plain
    · rfl

/-- A red root may be colored black. -/
theorem Balanced.setBlack_red {tree : Tree} (ok : Balanced tree .red height) :
    Balanced (setColor .black tree) .black (height + 1) := by
  cases ok with
  | red color leftOk rightOk => exact .black rfl leftOk rightOk

/-- A black root stays black. -/
theorem Balanced.setBlack_black {tree : Tree} (ok : Balanced tree .black height) :
    Balanced (setColor .black tree) .black height := by
  cases ok with
  | nil => exact .nil
  | black color leftOk rightOk => exact .black rfl leftOk rightOk

/-- Any root may be colored black. -/
theorem Balanced.setBlack {tree : Tree} (ok : Balanced tree color height) :
    ∃ top, Balanced (setColor .black tree) .black top := by
  cases color with
  | red => exact ⟨height + 1, ok.setBlack_red⟩
  | black => exact ⟨height, ok.setBlack_black⟩

/-- What fits into a place makes the whole tree balanced. -/
theorem BalancedPath.plug {tree : Tree} {redFits : Bool} (above : BalancedPath redFits height path)
    (ok : Balanced tree color height) (fits : color = .red → redFits = true) :
    ∃ top, Balanced (plug tree path) .black top := by
  -- By induction on the path: each frame takes a balanced tree and is one that fits further up.
  induction path generalizing tree color height redFits with
  | nil =>
    cases color with
    | red =>
      have both := fits rfl
      rw [above] at both
      cases both
    | black => exact ⟨height, ok⟩
  | cons frame rest ih =>
    rcases above with ⟨red, onlyBlack, sibling, above⟩ |
      ⟨black, either, ⟨siblingColor, sibling⟩, restFits, above⟩
    · cases color with
      | red =>
        have both := fits rfl
        rw [onlyBlack] at both
        cases both
      | black => exact ih above (Balanced.link_red red ok sibling frame.dir) fun _ => rfl
    · exact ih above (Balanced.link_black black ok sibling frame.dir) fun wrong => by cases wrong

/-- A place of a balanced tree has nodes above it that its contents fit into. -/
theorem Balanced.zoom {tree : Tree} {top : Nat} (ok : Balanced (plug tree path) .black top) :
    ∃ color height redFits, Balanced tree color height ∧ BalancedPath redFits height path ∧
      (color = .red → redFits = true) := by
  -- By induction on the path, which is taken apart from the root down.
  induction path generalizing tree with
  | nil => exact ⟨.black, top, false, ok, rfl, fun wrong => by cases wrong⟩
  | cons frame rest ih =>
    obtain ⟨color, height, redFits, parent, above, fits⟩ := ih ok
    rcases parent.link_inv with ⟨rfl, red, below, sibling⟩ |
      ⟨rfl, black, lower, nearColor, farColor, rfl, below, sibling⟩
    · have either := fits rfl
      subst either
      exact ⟨.black, height, false, below, Or.inl ⟨red, rfl, sibling, above⟩,
        fun wrong => by cases wrong⟩
    · exact ⟨nearColor, lower, true, below, Or.inr ⟨black, rfl, ⟨farColor, sibling⟩, _, above⟩,
        fun _ => rfl⟩

/-- A red node below a red parent is moved to the side that its parent hangs on. -/
theorem straighten_ok {node : Tree} {height : Nat} (ok : Balanced node .red height)
    {parent : Frame} (red : parent.data.color = .red)
    (sibling : Balanced parent.sibling .black height) (dir : EDirection) :
    ∃ top outer inner, straighten alignment dir node parent =
        some (Tree.link top outer inner dir) ∧
      Balanced outer .red height ∧ Balanced inner .black height := by
  -- Either the node is on the right side already, or one rotation brings it there.
  unfold straighten
  by_cases same : parent.dir = dir
  · refine ⟨parent.data, node, parent.sibling, ?_, ok, sibling⟩
    rw [if_neg (not_not.mpr same), Frame.plug, same]
  · have flipped : parent.dir = dir.flip := by
      cases dir <;> cases direction : parent.dir <;> simp_all [EDirection.flip]
    have some : node ≠ .nil := by
      rintro rfl
      cases ok
    obtain ⟨data, inner, outer, rfl⟩ := exists_link some dir
    rcases ok.link_inv with ⟨-, nodeRed, innerOk, outerOk⟩ | ⟨wrong, -⟩
    · obtain ⟨lowered, raised, loweredColor, raisedColor, rotated⟩ :=
        @rotateTo_link alignment dir parent.data data parent.sibling inner outer
      refine ⟨raised, Tree.link lowered parent.sibling inner dir, outer, ?_,
        Balanced.link_red (loweredColor.trans red) sibling innerOk dir, outerOk⟩
      rw [if_pos same, Frame.plug, flipped, link_flip]
      exact rotated
    · cases wrong

/-- Moving a node to the side of its parent keeps the holes in order. -/
theorem straighten_same {top : Tree} {parent : Frame}
    (moved : straighten alignment dir node parent = some top) :
    Same alignment (parent.plug node) top := by
  -- What straightening does is a rotation, or nothing.
  unfold straighten at moved
  split at moved
  · exact rotateTo_same moved
  · cases moved
    exact Same.refl _

/-- A red node that was put into a place is repaired to a balanced tree of the same holes. -/
theorem insertFixup_ok {node : Tree} {height : Nat} {redFits : Bool} {path : Path}
    (ok : Balanced node .red height) (above : BalancedPath redFits height path) :
    ∃ tree, insertFixup alignment node path = some tree ∧ (∃ top, Balanced tree .black top) ∧
      Same alignment (plug node path) tree := by
  -- The cases are those of the source: the root, a child of the root, and a node with a
  -- grandparent.
  match path with
  | [] => exact ⟨_, rfl, ⟨_, ok.setBlack_red⟩, Same.setColor _ _⟩
  | [parent] =>
    rcases above with ⟨-, -, -, wrong⟩ | ⟨black, -, ⟨color, sibling⟩, -⟩
    · cases wrong
    · have plain : ¬parent.data.color = .red := by
        rw [black]
        decide
      refine ⟨setColor .black (parent.plug node), if_neg plain, ?_, Same.setColor _ _⟩
      exact ⟨_, (Balanced.link_black black ok sibling parent.dir).setBlack_black⟩
  | parent :: gparent :: rest =>
    by_cases red : parent.data.color = .red
    · -- The parent is red, so the one above it is black.
      rcases above with ⟨-, -, sibling, above⟩ | ⟨black, -⟩
      · rcases above with ⟨-, wrong, -⟩ | ⟨black, -, ⟨uncleColor, uncle⟩, restFits, above⟩
        · cases wrong
        · by_cases uncleRed : isRed gparent.sibling = true
          · have kind : uncleColor = .red := by
              rw [uncle.isRed_eq] at uncleRed
              simpa using uncleRed
            subst kind
            -- The colors move up one level, and the repair goes on there.
            have parentOk := Balanced.link_black
              (show (parent.setColor .black).data.color = .black from rfl) ok sibling parent.dir
            have raised := Balanced.link_red
              (show (gparent.setColor .red).data.color = .red from rfl) parentOk uncle.setBlack_red
              gparent.dir
            obtain ⟨tree, repaired, balanced, same⟩ := insertFixup_ok raised above
            refine ⟨tree, ?_, balanced, Same.trans ?_ same⟩
            · rw [insertFixup, if_pos red, if_pos uncleRed]
              exact repaired
            · have below : Same alignment (parent.plug node) ((parent.setColor .black).plug node) :=
                (Same.refl node).frame (Same.refl parent.sibling) .black
              exact (below.frame (Same.setColor .black gparent.sibling) .red).plug rest
          · have uncleBlack := uncle.black_of_not_red (by simpa using uncleRed)
            obtain ⟨top, outer, inner, straight, outerOk, innerOk⟩ :=
              @straighten_ok alignment _ _ ok _ red sibling gparent.dir
            obtain ⟨lowered, raised, loweredColor, raisedColor, rotated⟩ :=
              @rotateTo_flip_link alignment gparent.dir (gparent.setColor .red).data
                { top with color := .black } inner outer gparent.sibling
            have loweredOk := Balanced.link_red loweredColor innerOk uncleBlack gparent.dir
            have raisedOk := Balanced.link_black raisedColor outerOk loweredOk gparent.dir
            obtain ⟨height, balanced⟩ := above.plug raisedOk fun wrong => by cases wrong
            refine ⟨_, ?_, balanced.setBlack, ?_⟩
            · rw [insertFixup, if_pos red, if_neg uncleRed, straight]
              simp only [bind_runs, setColor_link, Frame.plug]
              rw [show (gparent.setColor EColor.red).dir = gparent.dir from rfl,
                show (gparent.setColor EColor.red).sibling = gparent.sibling from rfl, rotated]
              rfl
            · have moved := straighten_same straight
              have colored := (moved.trans (Same.setColor .black _)).frame
                (Same.refl gparent.sibling) .red
              rw [setColor_link] at colored
              exact ((colored.trans (rotateTo_same rotated)).plug rest).trans (Same.setColor _ _)
      · rw [red] at black
        cases black
    · obtain ⟨height, balanced⟩ :
        ∃ top, Balanced (plug node (parent :: gparent :: rest)) .black top := by
        rcases above with ⟨wrong, -⟩ | ⟨black, rfl, sibling, above⟩
        · exact absurd wrong red
        · exact BalancedPath.plug (Or.inr ⟨black, rfl, sibling, above⟩) ok fun _ => rfl
      refine ⟨_, ?_, balanced.setBlack, Same.setColor _ _⟩
      rw [insertFixup, if_neg red]
termination_by path.length

/-- A child may be colored in place. -/
theorem Same.setChild_setColor (dir : EDirection) (color : EColor) (tree : Tree) :
    Same alignment tree (setChild dir (MhsRbTree.setColor color (child dir tree)) tree) := by
  by_cases empty : tree = .nil
  · subst empty
    exact Same.refl _
  · obtain ⟨data, near, far, rfl⟩ := exists_link empty dir
    rw [child_link, setChild_link]
    exact (Same.setColor color near).link (Same.refl far) rfl rfl dir

/-- Moving a red child of the other one keeps the holes in order. -/
theorem straightenOther_same {other top : Tree}
    (moved : straightenOther alignment dir other = some top) : Same alignment other top := by
  unfold straightenOther at moved
  split at moved
  · exact ((Same.setChild_setColor dir .black other).trans (Same.setColor .red _)).trans
      (rotateTo_same moved)
  · cases moved
    exact Same.refl _

/-- After the move there is a red child on the far side. -/
theorem straightenOther_ok {other : Tree} {height : Nat} {dir : EDirection}
    (ok : Balanced other .black (height + 1))
    (someRed : ¬(isRed (child dir other) = false ∧ isRed (child dir.flip other) = false)) :
    ∃ top near far nearColor, straightenOther alignment dir other =
        some (Tree.link top near far dir) ∧
      Balanced near nearColor height ∧ Balanced far .red height := by
  -- One child of the sibling is red. If it is the near one, a rotation makes it the far one.
  have some : other ≠ .nil := by
    rintro rfl
    cases ok
  obtain ⟨data, near, far, rfl⟩ := exists_link some dir
  rcases ok.link_inv with ⟨wrong, -⟩ | ⟨-, black, below, nearColor, farColor, size, nearOk, farOk⟩
  · cases wrong
  · cases size
    rw [child_link, child_flip_link] at someRed
    unfold straightenOther
    rw [child_flip_link, child_link]
    by_cases farRed : isRed far = true
    · have kind : farColor = .red := by
        rw [farOk.isRed_eq] at farRed
        simpa using farRed
      subst kind
      exact ⟨data, near, far, nearColor, by rw [farRed]; rfl, nearOk, farOk⟩
    · have farPlain : isRed far = false := by simpa using farRed
      have nearRed : isRed near = true := by
        by_contra plain
        exact someRed ⟨by simpa using plain, farPlain⟩
      have kind : nearColor = .red := by
        rw [nearOk.isRed_eq] at nearRed
        simpa using nearRed
      subst kind
      have nonempty : near ≠ .nil := by
        rintro rfl
        cases nearRed
      obtain ⟨inside, outer, inner, rfl⟩ := exists_link nonempty dir
      rcases nearOk.link_inv with ⟨-, -, outerOk, innerOk⟩ | ⟨wrong, -⟩
      · -- The red child goes up, and what was above it becomes the red child on the far side.
        obtain ⟨lowered, raised, loweredColor, raisedColor, rotated⟩ :=
          @rotateTo_flip_link alignment dir { data with color := .red }
            { inside with color := .black } inner outer far
        refine ⟨raised, outer, Tree.link lowered inner far dir, .black, ?_, outerOk,
          Balanced.link_red loweredColor innerOk (farOk.black_of_not_red farPlain) dir⟩
        rw [farPlain, if_pos (show (!false) = true from rfl)]
        dsimp only
        rw [setChild_link, setColor_link, setColor_link]
        exact rotated
      · cases wrong

/-- The subtree that a step of the repair leaves. -/
def FixupStep.tree : FixupStep → Tree
  | .up parent => parent
  | .done subtree => subtree

/-- A step of the repair keeps the holes in order. -/
theorem removeFixupStep_same {parent : Frame} {step : FixupStep}
    (stepped : removeFixupStep alignment node parent = some step) :
    Same alignment (parent.plug node) step.tree := by
  -- A step colors the sibling, or it is made of rotations and colorings.
  unfold removeFixupStep at stepped
  dsimp only at stepped
  split at stepped
  · cases stepped
    exact (Same.refl node).frame (Same.setColor .red parent.sibling) parent.data.color
  · simp only [bind_inv] at stepped
    obtain ⟨other, moved, subtree, rotated, rfl⟩ := stepped
    have beside := ((straightenOther_same moved).trans
      (Same.setChild_setColor parent.dir.flip .black other)).trans
      (Same.setColor parent.data.color _)
    exact ((Same.refl node).frame beside .black).trans (rotateTo_same rotated)

/-- What a step of the repair leaves below a parent of a color. -/
def StepOk (height : Nat) (color : EColor) : FixupStep → Prop
  | .up parent => isRed parent = decide (color = .red) ∧
      Balanced (setColor .black parent) .black (height + 1)
  | .done subtree => ∃ top, Balanced subtree color top ∧
      (color = .red → top = height + 1) ∧ (color = .black → top = height + 2)

/-- A step of the repair finds every node that it follows. -/
theorem removeFixupStep_ok {node : Tree} {height : Nat} (ok : Balanced node .black height)
    {parent : Frame} (sibling : Balanced parent.sibling .black (height + 1)) :
    ∃ step, removeFixupStep alignment node parent = some step ∧
      StepOk height parent.data.color step := by
  -- The sibling is not empty, since its black height is positive.
  have nonempty : parent.sibling ≠ .nil := by
    intro empty
    rw [empty] at sibling
    cases sibling
  by_cases plain : isRed (child parent.dir parent.sibling) = false ∧
      isRed (child parent.dir.flip parent.sibling) = false
  · have both : (!isRed (child parent.dir parent.sibling) &&
        !isRed (child parent.dir.flip parent.sibling)) = true := by
      rw [plain.1, plain.2]
      rfl
    refine ⟨_, if_pos both, ?_, ?_⟩
    · rw [Frame.plug, isRed_link]
    · -- The other one becomes red, which takes one from its black height.
      obtain ⟨data, near, far, shape⟩ := exists_link nonempty parent.dir
      rw [shape, child_link, child_flip_link] at plain
      rw [shape] at sibling
      rcases sibling.link_inv with ⟨wrong, -⟩ |
        ⟨-, -, below, nearColor, farColor, size, nearOk, farOk⟩
      · cases wrong
      · cases size
        have red := Balanced.link_red
          (show ({ data with color := .red } : Node).color = .red from rfl)
          (nearOk.black_of_not_red plain.1) (farOk.black_of_not_red plain.2) parent.dir
        rw [Frame.plug, setColor_link, shape, setColor_link]
        exact Balanced.link_black rfl ok red parent.dir
  · have notBoth : ¬(!isRed (child parent.dir parent.sibling) &&
        !isRed (child parent.dir.flip parent.sibling)) = true := by
      simpa using plain
    obtain ⟨top, near, far, nearColor, moved, nearOk, farOk⟩ :=
      @straightenOther_ok alignment _ _ parent.dir sibling plain
    obtain ⟨lowered, raised, loweredColor, raisedColor, rotated⟩ :=
      @rotateTo_link alignment parent.dir (parent.setColor .black).data
        { top with color := parent.data.color } node near (setColor .black far)
    refine ⟨.done (Tree.link raised (Tree.link lowered node near parent.dir)
      (setColor .black far) parent.dir), ?_, ?_⟩
    · rw [removeFixupStep, if_neg notBoth, moved]
      simp only [bind_runs, child_flip_link, setChild_flip_link, setColor_link, Frame.plug]
      rw [show (parent.setColor EColor.black).dir = parent.dir from rfl, rotated]
      rfl
    · have loweredOk := Balanced.link_black loweredColor ok nearOk parent.dir
      have farBlack := farOk.setBlack_red
      cases color : parent.data.color with
      | red => exact ⟨height + 1,
          Balanced.link_red (raisedColor.trans color) loweredOk farBlack parent.dir,
          fun _ => rfl, fun wrong => (by cases wrong)⟩
      | black => exact ⟨height + 2,
          Balanced.link_black (raisedColor.trans color) loweredOk farBlack parent.dir,
          fun wrong => (by cases wrong), fun _ => rfl⟩

/-- The whole tree once the repair ends below a red parent, or with a repaired subtree. -/
def FixupStep.close (path : Path) : FixupStep → Tree
  | .up parent => plug (setColor .black parent) path
  | .done subtree => setColor .black (plug subtree path)

/-- A subtree that lacks one black node, or has a red root to make up for it. -/
def Lacking (tree : Tree) (height : Nat) : Prop :=
  (isRed tree = true → Balanced (setColor .black tree) .black (height + 1)) ∧
    (isRed tree = false → Balanced tree .black height)

/-- A place that lost a black node is repaired to a balanced tree of the same holes. -/
theorem rawRemoveFixup_ok {redFits : Bool} (lacking : Lacking node height)
    (above : BalancedPath redFits (height + 1) path) :
    ∃ tree, rawRemoveFixup alignment node path = some tree ∧ (∃ top, Balanced tree .black top) ∧
      Same alignment (plug node path) tree := by
  -- By induction on the path: a step ends the repair, or leaves the parent as the place to repair.
  induction path generalizing node height redFits with
  | nil =>
    refine ⟨_, rfl, ?_, Same.setColor _ _⟩
    by_cases red : isRed node = true
    · exact ⟨_, lacking.1 red⟩
    · exact ⟨_, (lacking.2 (by simpa using red)).setBlack_black⟩
  | cons parent rest ih =>
    by_cases red : isRed node = true
    · obtain ⟨top, balanced⟩ := above.plug (lacking.1 red) fun wrong => by cases wrong
      refine ⟨_, by rw [rawRemoveFixup, if_pos red], ⟨top, balanced⟩, ?_⟩
      exact (Same.setColor _ _).plug (parent :: rest)
    · have ok := lacking.2 (by simpa using red)
      by_cases siblingRed : isRed parent.sibling = true
      · rcases above with ⟨-, -, sibling, -⟩ |
          ⟨black, -, ⟨siblingColor, sibling⟩, restFits, above⟩
        · rw [sibling.isRed_eq] at siblingRed
          cases siblingRed
        · have kind : siblingColor = .red := by
            rw [sibling.isRed_eq] at siblingRed
            simpa using siblingRed
          subst kind
          have nonempty : parent.sibling ≠ .nil := by
            intro empty
            rw [empty] at siblingRed
            cases siblingRed
          obtain ⟨data, inner, outer, shape⟩ := exists_link nonempty parent.dir
          rw [shape] at sibling
          rcases sibling.link_inv with ⟨-, -, innerOk, outerOk⟩ | ⟨wrong, -⟩
          · -- The rotation gives the node a black sibling below a red parent.
            obtain ⟨lowered, raised, loweredColor, raisedColor, rotated⟩ :=
              @rotateTo_link alignment parent.dir (parent.setColor .red).data
                { data with color := .black } node inner outer
            obtain ⟨step, stepped, stepOk⟩ := @removeFixupStep_ok alignment node height ok
              { dir := parent.dir, data := lowered, sibling := inner } innerOk
            have moved := rotateTo_same rotated
            have turned : Same alignment (parent.plug node)
                (Tree.link raised (Tree.link lowered node inner parent.dir) outer parent.dir) := by
              have beside : Same alignment parent.sibling (setColor .black parent.sibling) :=
                Same.setColor .black parent.sibling
              have colored := (Same.refl node).frame beside .red
              refine Same.trans ?_ moved
              rw [shape, setColor_link] at colored
              exact colored
            have next : rawRemoveFixup alignment node (parent :: rest) = some
                (step.close ({ dir := parent.dir, data := raised, sibling := outer } :: rest)) := by
              have turn : rotateTo alignment parent.dir (Frame.plug
                  { (parent.setColor .red) with
                    sibling :=
                      Tree.link { data with color := .black } inner outer parent.dir } node) =
                  some (Tree.link raised (Tree.link lowered node inner parent.dir) outer
                    parent.dir) := rotated
              rw [rawRemoveFixup, if_neg red, if_pos siblingRed]
              simp only [shape, setColor_link, turn, bind_runs, rootOf_link, child_link,
                child_flip_link, stepped]
              cases step <;> rfl
            have here := removeFixupStep_same stepped
            have whole : Same alignment (plug node (parent :: rest))
                (plug step.tree
                  ({ dir := parent.dir, data := raised, sibling := outer } :: rest)) :=
              (turned.trans ((here.link (Same.refl outer) rfl rfl parent.dir))).plug rest
            have fits : BalancedPath true (height + 1)
                ({ dir := parent.dir, data := raised, sibling := outer } :: rest) :=
              Or.inr ⟨raisedColor, rfl, ⟨.black, outerOk⟩, restFits, above⟩
            rw [show Frame.data { dir := parent.dir, data := lowered, sibling := inner } = lowered
              from rfl, loweredColor] at stepOk
            rw [next]
            cases step with
            | up tree =>
              obtain ⟨top, balanced⟩ := fits.plug stepOk.2 fun wrong => by cases wrong
              exact ⟨_, rfl, ⟨top, balanced⟩, whole.trans ((Same.setColor .black tree).plug _)⟩
            | done subtree =>
              obtain ⟨below, subtreeOk, size, -⟩ := stepOk
              rw [size rfl] at subtreeOk
              obtain ⟨top, balanced⟩ := fits.plug subtreeOk fun _ => rfl
              exact ⟨_, rfl, balanced.setBlack, whole.trans (Same.setColor _ _)⟩
          · cases wrong
      · -- The other one is black, so it has black nodes below it and is there.
        have step (sibling : Balanced parent.sibling .black (height + 1)) :
            ∃ step, rawRemoveFixup alignment node (parent :: rest) = (match step with
              | .up parent => rawRemoveFixup alignment parent rest
              | .done subtree => some (setColor .black (plug subtree rest))) ∧
              Same alignment (parent.plug node) step.tree ∧
              StepOk height parent.data.color step := by
          obtain ⟨step, stepped, stepOk⟩ := @removeFixupStep_ok alignment _ _ ok _ sibling
          refine ⟨step, ?_, removeFixupStep_same stepped, stepOk⟩
          have nonempty : parent.sibling ≠ .nil := by
            intro empty
            rw [empty] at sibling
            cases sibling
          obtain ⟨data, near, far, shape⟩ := exists_link nonempty parent.dir
          have there : rootOf parent.sibling = some data := by rw [shape, rootOf_link]
          rw [rawRemoveFixup, if_neg red, if_neg siblingRed, there, bind_of_some,
            Option.bind_eq_bind, stepped]
          cases step with
          | up subtree => exact Option.bind_some ..
          | done subtree => exact Option.bind_some ..
        rcases above with ⟨parentRed, -, sibling, above⟩ |
          ⟨black, -, ⟨siblingColor, sibling⟩, restFits, above⟩
        · obtain ⟨step, next, same, stepOk⟩ := step sibling
          rw [parentRed] at stepOk
          rw [next]
          cases step with
          | up tree =>
            have lacking : Lacking tree height :=
              ⟨fun _ => stepOk.2, fun plain => (by rw [stepOk.1] at plain; cases plain)⟩
            obtain ⟨result, repaired, balanced, rest⟩ := ih lacking above
            exact ⟨result, repaired, balanced, (same.plug _).trans rest⟩
          | done subtree =>
            obtain ⟨top, subtreeOk, size, -⟩ := stepOk
            rw [size rfl] at subtreeOk
            obtain ⟨whole, balanced⟩ := above.plug subtreeOk fun _ => rfl
            exact ⟨_, rfl, balanced.setBlack, (same.plug _).trans (Same.setColor _ _)⟩
        · obtain ⟨step, next, same, stepOk⟩ :=
            step (sibling.black_of_not_red (by simpa using siblingRed))
          rw [black] at stepOk
          rw [next]
          cases step with
          | up tree =>
            have plain : isRed tree = false := stepOk.1
            have lacking : Lacking tree (height + 1) := by
              refine ⟨fun wrong => (by rw [plain] at wrong; cases wrong), fun _ => ?_⟩
              rw [← setColor_black_of_not_red plain]
              exact stepOk.2
            obtain ⟨result, repaired, balanced, rest⟩ := ih lacking above
            exact ⟨result, repaired, balanced, (same.plug _).trans rest⟩
          | done subtree =>
            obtain ⟨top, subtreeOk, -, size⟩ := stepOk
            rw [size rfl] at subtreeOk
            obtain ⟨whole, balanced⟩ := above.plug subtreeOk fun wrong => by cases wrong
            exact ⟨_, rfl, balanced.setBlack, (same.plug _).trans (Same.setColor _ _)⟩

end MhsRbTree

end Tokuft
