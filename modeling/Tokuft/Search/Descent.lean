import Tokuft.Search.WhichChild
import Mathlib.Data.List.TakeWhile

/-! One descent from the root searches the first basement node that the search has not passed. -/

namespace Tokuft

variable {Key Entry Val Child : Type}

/-- A basement node, its place in the tree, and the pivot behind it in the direction of search. -/
structure SearchPart (Key Entry : Type) where
  path : List Nat
  bn : List (Key × Entry)
  next : Option Key

/-- The pivot at the far end of some bounds. -/
def PivotBounds.after (bounds : PivotBounds Key) : FtSearchDirection → Option Key
  | .left => bounds.ubi
  | .right => bounds.lbe

/-- Two lists, of which the first comes first in the direction of search. -/
def inOrder {Item : Type} (direction : FtSearchDirection) (first second : List Item) : List Item :=
  match direction with
  | .left => first ++ second
  | .right => second ++ first

/-- The basement nodes below some of a node's children, given those below one child. -/
def childParts (direction : FtSearchDirection) (upper : Option Key)
    (parts : Child → PivotBounds Key → List Nat → List (SearchPart Key Entry)) (path : List Nat) :
    Nat → Option Key → List Child → List Key → List (SearchPart Key Entry)
  | place, lower, child :: _, [] => parts child { lbe := lower, ubi := upper } (place :: path)
  | place, lower, child :: rest, pivot :: pivots =>
    inOrder direction (parts child { lbe := lower, ubi := some pivot } (place :: path))
      (childParts direction upper parts path (place + 1) (some pivot) rest pivots)
  | _, _, [], _ => []

/-- The basement nodes of a partition, in the direction of search. -/
def partsOf (direction : FtSearchDirection) :
    (height : Nat) → FtPartition Key Entry height → PivotBounds Key → List Nat →
      List (SearchPart Key Entry)
  | 0, bn, bounds, path => [{ path, bn, next := bounds.after direction }]
  | height + 1, node, bounds, path =>
    let node : FtNode Key Entry height := node
    childParts direction bounds.ubi (partsOf direction height) path 0 bounds.lbe node.children
      node.pivotkeys

variable [LinearOrder Key]

/-- Whether some bounds are in order. -/
def BoundsLe (lower upper : Option Key) : Prop := ∀ low ∈ lower, ∀ high ∈ upper, low ≤ high

/-- The children of a node are in order between its bounds, its pivots between them. -/
def ChildrenOk (ok : PivotBounds Key → Child → Prop) (upper : Option Key) :
    Option Key → List Child → List Key → Prop
  | lower, child :: _, [] => BoundsLe lower upper ∧ ok { lbe := lower, ubi := upper } child
  | lower, child :: rest, pivot :: pivots =>
    BoundsLe lower (some pivot) ∧ ok { lbe := lower, ubi := some pivot } child ∧
      ChildrenOk ok upper (some pivot) rest pivots
  | _, [], _ => False

/-- The keys of a partition are in order between its bounds. -/
def PartitionOk : (height : Nat) → PivotBounds Key → FtPartition Key Entry height → Prop
  | 0, bounds, bn =>
    let bn : List (Key × Entry) := bn
    bn.Pairwise (fun first second => first.1 < second.1) ∧
      ∀ entry ∈ bn, (∀ low ∈ bounds.lbe, low < entry.1) ∧ ∀ high ∈ bounds.ubi, entry.1 ≤ high
  | height + 1, bounds, node =>
    let node : FtNode Key Entry height := node
    ChildrenOk (PartitionOk height) bounds.ubi bounds.lbe node.children node.pivotkeys

/-- A tree whose keys are in order. -/
structure FtTree (Key Entry : Type) [LinearOrder Key] where
  height : Nat
  root : FtNode Key Entry height
  ok : PartitionOk (height + 1) .infiniteBounds root

/-- The basement nodes of a tree, in the direction of search. -/
def FtTree.parts (tree : FtTree Key Entry) (direction : FtSearchDirection) :
    List (SearchPart Key Entry) :=
  partsOf direction (tree.height + 1) tree.root .infiniteBounds []

/-- Whether a search passes over a basement node without looking at it. -/
def SearchPart.skipped (search : FtSearch Key) (part : SearchPart Key Entry) : Bool :=
  part.next.any fun pivot => !search.passes pivot

variable {search : FtSearch Key} {direction : FtSearchDirection}
  {ok : PivotBounds Key → Child → Prop} {children : List Child}

/-- The lower bound of children in order is not above their pivots or the upper bound. -/
theorem ChildrenOk.lower_le {upper lower : Option Key} {pivots : List Key}
    (childrenOk : ChildrenOk ok upper lower children pivots) :
    BoundsLe lower upper ∧ (∀ pivot ∈ pivots, BoundsLe lower (some pivot)) ∧
      (∀ pivot ∈ pivots, BoundsLe (some pivot) upper) ∧ pivots.Pairwise (· ≤ ·) := by
  -- By induction on the pivots: each is between the bounds of the child in front of it.
  induction pivots generalizing lower children with
  | nil =>
    cases children with
    | nil => exact childrenOk.elim
    | cons child rest =>
      exact ⟨childrenOk.1, List.forall_mem_nil _, List.forall_mem_nil _, List.Pairwise.nil⟩
  | cons pivot pivots ih =>
    cases children with
    | nil => exact childrenOk.elim
    | cons child rest =>
      obtain ⟨low, -, others⟩ := childrenOk
      obtain ⟨high, above, within, sorted⟩ := ih others
      have through {bound : Key} (step : BoundsLe (some pivot) (some bound)) :
          BoundsLe lower (some bound) := fun first given other same =>
        le_trans (low first given pivot rfl) (step pivot rfl other same)
      refine ⟨fun first given last top => le_trans (low first given pivot rfl)
          (high pivot rfl last top),
        List.forall_mem_cons.mpr ⟨low, fun other member => through (above other member)⟩,
        List.forall_mem_cons.mpr ⟨high, within⟩,
        List.pairwise_cons.mpr ⟨fun other member => above other member pivot rfl other rfl,
          sorted⟩⟩

/-- Members of two lists in order. -/
@[simp] theorem mem_inOrder {Item : Type} {first second : List Item} {item : Item} :
    item ∈ inOrder direction first second ↔ item ∈ first ∨ item ∈ second := by
  cases direction <;> simp [inOrder, or_comm]

/-- A pivot within bounds. -/
def PivotBounds.Within (bounds : PivotBounds Key) (pivot : Key) : Prop :=
  BoundsLe bounds.lbe (some pivot) ∧ BoundsLe (some pivot) bounds.ubi

/-- Behind a basement node is the far end of the whole, or a pivot inside it. -/
def SearchPart.Inside (direction : FtSearchDirection) (bounds : PivotBounds Key)
    (part : SearchPart Key Entry) : Prop :=
  part.next = bounds.after direction ∨ ∃ pivot, part.next = some pivot ∧ bounds.Within pivot

/-- The basement nodes below children in order are followed by pivots inside the bounds. -/
theorem ChildrenOk.parts_inside
    {parts : Child → PivotBounds Key → List Nat → List (SearchPart Key Entry)} {path : List Nat}
    (inside : ∀ child bounds path, ok bounds child →
      ∀ part ∈ parts child bounds path, part.Inside direction bounds) {upper lower : Option Key}
    {pivots : List Key} {place : Nat} (childrenOk : ChildrenOk ok upper lower children pivots) :
    ∀ part ∈ childParts direction upper parts path place lower children pivots,
      part.Inside direction { lbe := lower, ubi := upper } := by
  -- By induction on the pivots, which bound the children on either side.
  induction pivots generalizing lower children place with
  | nil =>
    cases children with
    | nil => exact childrenOk.elim
    | cons child rest => exact inside child _ _ childrenOk.2
  | cons pivot pivots ih =>
    cases children with
    | nil => exact childrenOk.elim
    | cons child rest =>
      obtain ⟨low, first, others⟩ := childrenOk
      have high := others.lower_le.1
      intro part member
      rcases mem_inOrder.mp member with here | there
      · rcases inside child _ _ first part here with last | ⟨other, next, lows, highs⟩
        · cases direction with
          | left => exact Or.inr ⟨pivot, last, low, high⟩
          | right => exact Or.inl last
        · exact Or.inr ⟨other, next, lows, fun bound given top last =>
            le_trans (highs bound given pivot rfl) (high pivot rfl top last)⟩
      · rcases ih others part there with last | ⟨other, next, lows, highs⟩
        · cases direction with
          | left => exact Or.inl last
          | right => exact Or.inr ⟨pivot, last, low, high⟩
        · exact Or.inr ⟨other, next, fun bound given top last =>
            le_trans (low bound given pivot rfl) (lows pivot rfl top last), highs⟩

/-- The basement nodes of a partition are followed by pivots inside its bounds. -/
theorem partsOf_inside {height : Nat} :
    ∀ (node : FtPartition Key Entry height) (bounds : PivotBounds Key) (path : List Nat),
      PartitionOk height bounds node →
      ∀ part ∈ partsOf direction height node bounds path, part.Inside direction bounds := by
  -- By induction on the height.
  induction height with
  | zero =>
    intro bn bounds path _ part member
    rw [List.mem_singleton.mp member]
    exact Or.inl rfl
  | succ height ih =>
    intro node bounds path ok
    exact ChildrenOk.parts_inside ih ok

variable {bounds : PivotBounds Key} {height : Nat}

/-- Whether the far end of some bounds is not behind the search. -/
def PivotBounds.Open (bounds : PivotBounds Key) (search : FtSearch Key) : Prop :=
  ∀ pivot ∈ bounds.after search.direction, search.passes pivot = true

variable {pivot : Key}

/-- When the far end is behind the search, so is everything inside. -/
theorem SearchPart.Inside.skipped {part : SearchPart Key Entry} (agrees : search.Agrees)
    (inside : part.Inside search.direction bounds)
    (last : bounds.after search.direction = some pivot) (behind : search.passes pivot = false) :
    part.skipped search = true := by
  have refused (other : Key) (next : part.next = some other)
      (fails : search.passes other = false) : part.skipped search = true := by
    rw [SearchPart.skipped, next, Option.any_some, fails]
    rfl
  rcases inside with next | ⟨other, next, lows, highs⟩
  · exact refused pivot (next.trans last) behind
  · refine refused other next ?_
    by_contra taken
    have passes : search.passes other = true := by simpa using taken
    -- The pivot inside is nearer than the far end.
    have further : search.passes pivot = true := by
      cases way : search.direction with
      | left =>
        rw [way] at last
        exact agrees.passes_left way (highs other rfl pivot last) passes
      | right =>
        rw [way] at last
        exact agrees.passes_right way (lows pivot last other rfl) passes
    rw [behind] at further
    cases further

/-- Among nodes in order there is one behind which the far end of the bounds lies. -/
def EndsAt (next : Option Key) (parts : List (SearchPart Key Entry)) : Prop :=
  ∃ front last, parts = front ++ [last] ∧ last.next = next

variable {upper lower : Option Key} {pivots : List Key}

/-- With the far end open, the search finds something that it has not passed. -/
theorem EndsAt.unskipped {parts : List (SearchPart Key Entry)}
    (ends : EndsAt (bounds.after search.direction) parts) (open_ : bounds.Open search) :
    parts.dropWhile (SearchPart.skipped search) ≠ [] := by
  obtain ⟨front, last, rfl, next⟩ := ends
  intro none
  have skipped := List.dropWhile_eq_nil_iff.mp none last (by simp)
  rw [SearchPart.skipped, next] at skipped
  obtain ⟨pivot, given, refused⟩ := Option.any_eq_true _ _ |>.mp skipped
  rw [open_ pivot given] at refused
  cases refused

/-- The basement nodes below children in order end at the far end of their bounds. -/
theorem ChildrenOk.parts_endsAt {direction : FtSearchDirection}
    {parts : Child → PivotBounds Key → List Nat → List (SearchPart Key Entry)}
    (endsAt : ∀ child bounds path, ok bounds child →
      EndsAt (bounds.after direction) (parts child bounds path))
    (childrenOk : ChildrenOk ok upper lower children pivots) (path : List Nat) (place : Nat) :
    EndsAt (PivotBounds.after { lbe := lower, ubi := upper } direction)
      (childParts direction upper parts path place lower children pivots) := by
  -- By induction on the pivots, since the last child ends where all of them do.
  induction pivots generalizing lower children place with
  | nil =>
    cases children with
    | nil => exact childrenOk.elim
    | cons child rest => exact endsAt child _ _ childrenOk.2
  | cons pivot pivots ih =>
    cases children with
    | nil => exact childrenOk.elim
    | cons child rest =>
      obtain ⟨-, first, others⟩ := childrenOk
      cases direction with
      | left =>
        obtain ⟨front, last, shape, next⟩ := ih others (place + 1)
        exact ⟨_ ++ front, last, by rw [childParts, inOrder, shape, List.append_assoc], next⟩
      | right =>
        obtain ⟨front, last, shape, next⟩ := endsAt child _ (place :: path) first
        exact ⟨_ ++ front, last, by rw [childParts, inOrder, shape, List.append_assoc], next⟩

/-- The basement nodes of a partition end at the far end of its bounds. -/
theorem partsOf_endsAt {direction : FtSearchDirection} :
    ∀ (node : FtPartition Key Entry height) (bounds : PivotBounds Key) (path : List Nat),
      PartitionOk height bounds node →
        EndsAt (bounds.after direction) (partsOf direction height node bounds path) := by
  -- By induction on the height.
  induction height with
  | zero =>
    intro bn bounds path _
    exact ⟨[], _, rfl, rfl⟩
  | succ height ih =>
    intro node bounds path ok
    exact ChildrenOk.parts_endsAt ih ok path 0

/-- Whether a child is the last one of its node in a direction. -/
def lastChild (direction : FtSearchDirection) (count place : Nat) : Prop :=
  match direction with
  | .left => place + 1 = count
  | .right => place = 0

section

variable {Item : Type} {passed : Item → Bool} {front : List Item}

/-- What follows after passing over nodes of which some are not passed over. -/
theorem dropWhile_append_of_ne_nil (some : front.dropWhile passed ≠ []) (back : List Item) :
    (front ++ back).dropWhile passed = front.dropWhile passed ++ back := by
  rw [List.dropWhile_append]
  simp [some]

/-- What follows after passing over all nodes of a front. -/
theorem dropWhile_append_of_all (all : ∀ item ∈ front, passed item = true) (back : List Item) :
    (front ++ back).dropWhile passed = back.dropWhile passed := by
  rw [List.dropWhile_append, List.dropWhile_eq_nil_iff.mpr all]
  rfl

end

omit [LinearOrder Key] in
/-- Nodes that end somewhere are some nodes. -/
theorem EndsAt.ne_nil {next : Option Key} {parts : List (SearchPart Key Entry)}
    (ends : EndsAt next parts) : parts ≠ [] := by
  obtain ⟨front, last, rfl, -⟩ := ends
  exact List.append_ne_nil_of_right_ne_nil _ (List.cons_ne_nil _ _)

/-- The child to be searched next is counted on from that among the children behind the first. -/
theorem firstChild_succ
    (later : search.passes pivot = match search.direction with | .left => false | .right => true) :
    firstChild search (pivot :: pivots) = firstChild search pivots + 1 := by
  unfold firstChild
  cases way : search.direction <;> rw [way] at later <;> simp [List.findIdx_cons, later]

/-- The child to be searched next is the first one. -/
theorem firstChild_zero
    (here : search.passes pivot = match search.direction with | .left => true | .right => false) :
    firstChild search (pivot :: pivots) = 0 := by
  unfold firstChild
  cases way : search.direction <;> rw [way] at here <;> simp [List.findIdx_cons, here]

/-- The bounds of a child, from the pivots around it. -/
def childBounds (upper : Option Key) : Option Key → List Key → Nat → PivotBounds Key
  | lower, [], _ => { lbe := lower, ubi := upper }
  | lower, pivot :: _, 0 => { lbe := lower, ubi := some pivot }
  | _, pivot :: pivots, place + 1 => childBounds upper (some pivot) pivots place

/-- The first basement node that is not passed over is below the child that is searched next. -/
theorem ChildrenOk.firstChild_parts (agrees : search.Agrees)
    {parts : Child → PivotBounds Key → List Nat → List (SearchPart Key Entry)}
    (inside : ∀ child bounds path, ok bounds child →
      ∀ part ∈ parts child bounds path, part.Inside search.direction bounds)
    (endsAt : ∀ child bounds path, ok bounds child →
      EndsAt (bounds.after search.direction) (parts child bounds path))
    (childrenOk : ChildrenOk ok upper lower children pivots)
    (open_ : PivotBounds.Open { lbe := lower, ubi := upper } search)
    (sized : children.length = pivots.length + 1) (path : List Nat) (place : Nat) :
    ∃ child rest, children[firstChild search pivots]? = some child ∧
      ok (childBounds upper lower pivots (firstChild search pivots)) child ∧
      (childBounds upper lower pivots (firstChild search pivots)).Open search ∧
      (childParts search.direction upper parts path place lower children pivots).dropWhile
          (SearchPart.skipped search) =
        (parts child (childBounds upper lower pivots (firstChild search pivots))
          ((place + firstChild search pivots) :: path)).dropWhile (SearchPart.skipped search) ++
            rest ∧
      (rest = [] ↔ lastChild search.direction children.length (firstChild search pivots)) := by
  induction pivots generalizing lower children place with
  | nil =>
    rcases children with _ | ⟨child, _ | ⟨other, rest⟩⟩
    · exact childrenOk.elim
    · have none : firstChild search ([] : List Key) = 0 := by
        unfold firstChild; split <;> rfl
      rw [none]
      refine ⟨child, [], rfl, childrenOk.2, open_, (List.append_nil _).symm, iff_of_true rfl ?_⟩
      unfold lastChild
      split <;> rfl
    · cases Nat.succ.inj sized
  | cons pivot pivots ih =>
    cases children with
    | nil => exact childrenOk.elim
    | cons child rest =>
      obtain ⟨low, first, others⟩ := childrenOk
      have size : rest.length = pivots.length + 1 := by simpa using sized
      cases way : search.direction with
      | left =>
        rw [way] at inside endsAt ih
        rw [childParts, inOrder]
        by_cases passes : search.passes pivot = true
        · -- The first child ends behind what was searched already.
          have at_ : firstChild search (pivot :: pivots) = 0 :=
            firstChild_zero (by rw [way, passes])
          have near : PivotBounds.Open { lbe := lower, ubi := some pivot } search := by
            rw [PivotBounds.Open, way]
            rintro other ⟨⟩
            exact passes
          have some := @EndsAt.unskipped _ _ _ search { lbe := lower, ubi := some pivot } _
            (by rw [way]; exact endsAt child _ (place :: path) first) near
          have more := (others.parts_endsAt endsAt path (place + 1)).ne_nil
          rw [at_]
          refine ⟨child, _, rfl, first, near, dropWhile_append_of_ne_nil some _,
            iff_of_false more ?_⟩
          simp only [lastChild, List.length_cons]
          omega
        · have behind : search.passes pivot = false := by simpa using passes
          have at_ := @firstChild_succ _ _ search pivot pivots (by rw [way, behind])
          obtain ⟨found, tail, located, foundOk, near, shape, final⟩ := ih others
            (by rw [PivotBounds.Open, way] at open_ ⊢; exact open_) size (place + 1)
          rw [at_]
          refine ⟨found, tail, located, foundOk, near, ?_, ?_⟩
          · rw [dropWhile_append_of_all, shape, Nat.add_assoc, Nat.add_comm 1]
            · rfl
            · exact fun part member => SearchPart.Inside.skipped agrees
                (by rw [way]; exact inside child _ _ first part member) (by rw [way]; rfl) behind
          · rw [final]
            simp only [lastChild, List.length_cons]
            omega
      | right =>
        rw [way] at inside endsAt ih
        rw [childParts, inOrder]
        by_cases passes : search.passes pivot = true
        · -- The children behind the first are searched before it.
          have at_ := @firstChild_succ _ _ search pivot pivots (by rw [way, passes])
          obtain ⟨found, tail, located, foundOk, near, shape, final⟩ := ih others (by
              rw [PivotBounds.Open, way]
              rintro other ⟨⟩
              exact passes) size (place + 1)
          have some := @EndsAt.unskipped _ _ _ search { lbe := some pivot, ubi := upper } _
            (by rw [way]; exact others.parts_endsAt endsAt path (place + 1)) (by
              rw [PivotBounds.Open, way]
              rintro other ⟨⟩
              exact passes)
          have more := (endsAt child _ (place :: path) first).ne_nil
          rw [at_]
          refine ⟨found, tail ++ parts child { lbe := lower, ubi := pivot } (place :: path),
            located, foundOk, near, ?_, iff_of_false ?_ (Nat.succ_ne_zero _)⟩
          · rw [dropWhile_append_of_ne_nil some, shape, List.append_assoc, Nat.add_assoc,
              Nat.add_comm 1]
            rfl
          · exact List.append_ne_nil_of_right_ne_nil _ more
        · have behind : search.passes pivot = false := by simpa using passes
          have at_ : firstChild search (pivot :: pivots) = 0 :=
            firstChild_zero (by rw [way, behind])
          rw [at_]
          refine ⟨child, [], rfl, first, ?_, ?_, iff_of_true rfl rfl⟩
          · rw [PivotBounds.Open, way] at open_ ⊢
            exact open_
          · rw [List.append_nil]
            refine dropWhile_append_of_all (fun part member => ?_) _
            exact SearchPart.Inside.skipped agrees
              (by rw [way]; exact others.parts_inside inside part member) (by rw [way]; rfl) behind

omit [LinearOrder Key] in
/-- The bounds of a child are those that the search computes for it. -/
theorem childBounds_eq {place : Nat} (within : place ≤ pivots.length) :
    childBounds upper lower pivots place =
      { lbe := if place = 0 then lower else pivots[place - 1]?
        ubi := if place = pivots.length then upper else pivots[place]? } := by
  -- By induction on the pivots in front of the child.
  induction pivots generalizing lower place with
  | nil =>
    obtain rfl : place = 0 := Nat.le_zero.mp within
    rfl
  | cons pivot pivots ih =>
    cases place with
    | zero => simp [childBounds]
    | succ place =>
      rw [childBounds, ih (Nat.le_of_succ_le_succ within)]
      cases place <;> cases pivots <;> simp

/-- Whether a search goes on behind a pivot. -/
def FtSearch.goesOn (search : FtSearch Key) (pivot : Key) : Bool :=
  match search.direction with
  | .left => search.kBound.all fun kBound => decide (pivot < kBound)
  | .right => true

/-- A search that remembers a pivot. -/
def SearchState.saved (state : SearchState Key Entry Val) (pivot : Key) :
    SearchState Key Entry Val :=
  { state with search := { state.search with pivotBound := some pivot } }

section

variable {getf : FtGetCallback Key Val} {node : Partitioned Key Child} {childnum : Nat}
  {state : SearchState Key Entry Val}

/-- The last child of a node leaves no pivot behind. -/
theorem searchedChild_last (last : lastChild state.search.direction node.children.length childnum) :
    searchedChild getf node false bounds childnum (.notFound, state) = (.notFound, state) := by
  -- The last child is the one at the far end, on either side.
  have size := node.sized
  rw [searchedChild, if_neg (not_not.mpr rfl)]
  cases way : state.search.direction with
  | left =>
    rw [way] at last
    have none : node.pivotkeys[childnum]? = none :=
      List.getElem?_eq_none (by simp only [lastChild] at last; omega)
    have outOf : ¬childnum + 1 < node.children.length := by simp only [lastChild] at last; omega
    simp [maybeSearchSaveBound, searchTryAgain, way, none, outOf]
  | right =>
    rw [way] at last
    have none : childnum = 0 := last
    simp [maybeSearchSaveBound, searchTryAgain, way, none]

/-- Any other child leaves the pivot at its far end behind. -/
theorem searchedChild_notLast (within : childnum < node.children.length)
    (notLast : ¬lastChild state.search.direction node.children.length childnum) :
    ∃ pivot, (bounds.nextBounds node childnum).after state.search.direction = some pivot ∧
      searchedChild getf node false (bounds.nextBounds node childnum) childnum
          (.notFound, state) =
        (if state.search.goesOn pivot then .tryAgain else .notFound, state.saved pivot) := by
  -- The pivot left behind is the one in front of the child, or behind it.
  have size := node.sized
  cases way : state.search.direction with
  | left =>
    rw [way] at notLast
    have before : childnum + 1 < node.children.length := by
      simp only [lastChild] at notLast
      omega
    have found : node.pivotkeys[childnum]? = some node.pivotkeys[childnum] :=
      List.getElem?_eq_getElem (by omega)
    refine ⟨node.pivotkeys[childnum], ?_, ?_⟩
    · simp only [PivotBounds.after, PivotBounds.nextBounds, found]
      rw [if_neg (by omega)]
    · rw [searchedChild, if_neg (not_not.mpr rfl)]
      simp [maybeSearchSaveBound, searchTryAgain, way, found, before, FtSearch.goesOn,
        SearchState.saved]
  | right =>
    rw [way] at notLast
    have behind : childnum ≠ 0 := notLast
    have found : node.pivotkeys[childnum - 1]? = some node.pivotkeys[childnum - 1] :=
      List.getElem?_eq_getElem (by omega)
    refine ⟨node.pivotkeys[childnum - 1], ?_, ?_⟩
    · simp only [PivotBounds.after, PivotBounds.nextBounds, found]
      rw [if_neg behind]
    · rw [searchedChild, if_neg (not_not.mpr rfl)]
      simp [maybeSearchSaveBound, searchTryAgain, way, found, behind, FtSearch.goesOn,
        SearchState.saved, Nat.pos_of_ne_zero behind]

end

end Tokuft
