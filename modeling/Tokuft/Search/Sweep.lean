import Tokuft.Search.Tries

/-! A whole search, as one sweep over the basement nodes of the tree. -/

namespace Tokuft

variable {Key Entry Val Child : Type} [LinearOrder Key] {search : FtSearch Key}
  {bounds : PivotBounds Key} {height : Nat}
variable {state : SearchState Key Entry Val}

/-- The bounds between two pivots, the first of which comes first in the direction of search. -/
def PivotBounds.between (direction : FtSearchDirection) (before next : Option Key) :
    PivotBounds Key :=
  match direction with
  | .left => { lbe := before, ubi := next }
  | .right => { lbe := next, ubi := before }

/-- The pivot at the near end of some bounds. -/
def PivotBounds.before (bounds : PivotBounds Key) : FtSearchDirection → Option Key
  | .left => bounds.lbe
  | .right => bounds.ubi

/-- Some bounds in order, with the keys of a basement node between them. -/
structure BasementOk (bounds : PivotBounds Key) (bn : List (Key × Entry)) : Prop where
  ordered : BoundsLe bounds.lbe bounds.ubi
  within : PartitionOk 0 bounds bn

/-- Basement nodes that follow each other from some pivot on, to the end of the tree or before. -/
def PartsOk (direction : FtSearchDirection) :
    Option Key → List (SearchPart Key Entry) → Prop
  | _, [] => True
  | before, part :: more =>
    BasementOk (.between direction before part.next) part.bn ∧
      (part.next = none → more = []) ∧ PartsOk direction part.next more

variable {direction : FtSearchDirection}

/-- Basement nodes that end where others begin go together with them. -/
theorem PartsOk.append {direction : FtSearchDirection} {before : Option Key} {pivot : Key}
    {first second : List (SearchPart Key Entry)} (ok : PartsOk direction before first)
    (ends : EndsAt (some pivot) first) (others : PartsOk direction (some pivot) second) :
    PartsOk direction before (first ++ second) := by
  induction first generalizing before with
  | nil => exact absurd rfl ends.ne_nil
  | cons part more ih =>
    obtain ⟨here, last, rest⟩ := ok
    obtain ⟨front, final, shape, next⟩ := ends
    cases more with
    | nil =>
      obtain ⟨rfl, rfl⟩ :=
        List.append_singleton_inj.mp (show [] ++ [part] = front ++ [final] from shape)
      refine ⟨here, fun none => ?_, by rw [next]; exact others⟩
      rw [next] at none
      cases none
    | cons following more =>
      refine ⟨here, fun none => absurd (last none) (List.cons_ne_nil _ _), ih rest ?_⟩
      cases front with
      | nil => cases shape
      | cons _ front => exact ⟨front, final, (List.cons.inj shape).2, next⟩

/-- The basement nodes below children in order follow each other. -/
theorem ChildrenOk.parts_ok {ok : PivotBounds Key → Child → Prop}
    {parts : Child → PivotBounds Key → List Nat → List (SearchPart Key Entry)} {path : List Nat}
    (endsAt : ∀ child bounds path, ok bounds child →
      EndsAt (bounds.after direction) (parts child bounds path))
    (follow : ∀ child bounds path, ok bounds child → BoundsLe bounds.lbe bounds.ubi →
      PartsOk direction (bounds.before direction) (parts child bounds path))
    {upper lower : Option Key} {children : List Child} {pivots : List Key} {place : Nat}
    (childrenOk : ChildrenOk ok upper lower children pivots) :
    PartsOk direction (PivotBounds.before { lbe := lower, ubi := upper } direction)
      (childParts direction upper parts path place lower children pivots) := by
  induction pivots generalizing lower children place with
  | nil =>
    cases children with
    | nil => exact childrenOk.elim
    | cons child rest => exact follow child _ _ childrenOk.2 childrenOk.1
  | cons pivot pivots ih =>
    cases children with
    | nil => exact childrenOk.elim
    | cons child rest =>
      obtain ⟨low, first, others⟩ := childrenOk
      have here := follow child _ (place :: path) first low
      have there := @ih _ _ (place + 1) others
      cases direction with
      | left => exact here.append (endsAt child _ _ first) there
      | right => exact there.append (others.parts_endsAt endsAt path (place + 1)) here

/-- The basement nodes of a partition follow each other. -/
theorem partsOf_ok {direction : FtSearchDirection} :
    ∀ (node : FtPartition Key Entry height) (bounds : PivotBounds Key) (path : List Nat),
      PartitionOk height bounds node → BoundsLe bounds.lbe bounds.ubi →
        PartsOk direction (bounds.before direction)
          (partsOf direction height node bounds path) := by
  induction height with
  | zero =>
    intro bn bounds path ok ordered
    have same : PivotBounds.between direction (bounds.before direction) (bounds.after direction) =
        bounds := by
      cases direction <;> rfl
    exact ⟨by rw [same]; exact ⟨ordered, ok⟩, fun _ => rfl, trivial⟩
  | succ height ih =>
    intro node bounds path ok _
    exact ChildrenOk.parts_ok (fun child bounds path => partsOf_endsAt child bounds path) ih ok

/-- Search basement nodes one after the other, passing over those behind the search. -/
def searchParts {Val : Type} (getf : FtGetCallback Key Val) (canBulkFetch : Bool) :
    List (SearchPart Key Entry) → SearchState Key Entry Val → FtCode × SearchState Key Entry Val
  | [], state => (.notFound, state)
  | part :: more, state =>
    if part.skipped state.search then searchParts getf canBulkFetch more state
    else
      match tryPart getf canBulkFetch part state, part.next with
      | (some r, state), _ => (r, state)
      | (none, state), none => (.notFound, state)
      | (none, state), some pivot =>
        if state.search.goesOn pivot then searchParts getf canBulkFetch more (state.saved pivot)
        else (.notFound, state)

/-- What is skipped may be passed over. -/
theorem searchParts_dropWhile {getf : FtGetCallback Key Val} {canBulkFetch : Bool}
    {parts : List (SearchPart Key Entry)} :
    searchParts getf canBulkFetch parts state =
      searchParts getf canBulkFetch (parts.dropWhile (SearchPart.skipped state.search)) state := by
  induction parts with
  | nil => rfl
  | cons part more ih =>
    rw [searchParts]
    split
    · rename_i skipped
      rw [List.dropWhile_cons_of_pos skipped, ih]
    · rename_i notSkipped
      rw [List.dropWhile_cons_of_neg notSkipped, searchParts, if_neg notSkipped]

/-- Whether a key comes no later than another one in the direction of search. -/
def FtSearchDirection.le (direction : FtSearchDirection) (near far : Key) : Prop :=
  match direction with
  | .left => near ≤ far
  | .right => far ≤ near

/-- A key comes no later than itself. -/
theorem FtSearchDirection.le_refl {direction : FtSearchDirection} (pivot : Key) :
    direction.le pivot pivot := by
  cases direction <;> exact @Preorder.le_refl _ _ pivot

/-- Keys come in order. -/
theorem FtSearchDirection.le_trans {direction : FtSearchDirection} {x y z : Key}
    (first : direction.le x y) (second : direction.le y z) : direction.le x z := by
  cases direction with
  | left => exact @Preorder.le_trans _ _ _ _ _ first second
  | right => exact @Preorder.le_trans _ _ _ _ _ second first

/-- The near end of some bounds comes no later than the far end. -/
theorem BasementOk.le {before next : Option Key} {bn : List (Key × Entry)}
    (ok : BasementOk (.between direction before next) bn) {near far : Key} (first : near ∈ before)
    (second : far ∈ next) : direction.le near far := by
  cases direction with
  | left => exact ok.ordered near first far second
  | right => exact ok.ordered far second near first

/-- Before a basement node there is none that ends later. -/
theorem PartsOk.next_le {before : Option Key} {front more : List (SearchPart Key Entry)}
    {part : SearchPart Key Entry} (ok : PartsOk direction before (front ++ part :: more))
    {pivot : Key} (next : part.next = some pivot) :
    (∀ near ∈ before, direction.le near pivot) ∧
      ∀ other ∈ front, ∃ near, other.next = some near ∧ direction.le near pivot := by
  induction front generalizing before with
  | nil => exact ⟨fun near first => ok.1.le first next, List.forall_mem_nil _⟩
  | cons other front ih =>
    obtain ⟨here, last, rest⟩ := ok
    obtain ⟨later, others⟩ := ih rest
    cases ends : other.next with
    | none => exact absurd (last ends) (List.append_ne_nil_of_right_ne_nil _ (List.cons_ne_nil _ _))
    | some near =>
      refine ⟨fun first given =>
        FtSearchDirection.le_trans (here.le given ends) (later near ends), ?_⟩
      exact List.forall_mem_cons.mpr ⟨⟨near, ends, later near ends⟩, others⟩

/-- A pivot that is remembered puts everything behind that ends no later. -/
theorem SearchPart.skipped_saved {part : SearchPart Key Entry} {near pivot : Key}
    (next : part.next = some near) (le : state.search.direction.le near pivot) :
    part.skipped (state.saved pivot).search = true := by
  rw [SearchPart.skipped, next, Option.any_some, FtSearch.passes, FtSearch.beyond]
  unfold SearchState.saved
  cases way : state.search.direction <;> rw [way] at le <;> simp [not_lt.mpr le]

/-- The far end of a tree is not behind any search. -/
theorem infiniteBounds_open {search : FtSearch Key} : PivotBounds.infiniteBounds.Open search := by
  intro pivot given
  cases way : search.direction <;> rw [way] at given <;> cases given

/-- What is left after skipping begins with something that is not skipped. -/
theorem not_skipped_of_dropWhile {Item : Type} {passed : Item → Bool} {items : List Item}
    {item : Item} {others : List Item} (shape : items.dropWhile passed = item :: others) :
    passed item = false := by
  have first := List.head?_dropWhile_not passed items
  rw [shape] at first
  exact first

/-- The basement nodes of a tree follow each other. -/
theorem FtTree.parts_ok (tree : FtTree Key Entry) :
    PartsOk direction none (tree.parts direction) := by
  have ok := @partsOf_ok _ _ _ (tree.height + 1) direction tree.root .infiniteBounds
    [] tree.ok nofun
  cases direction <;> exact ok

section tries

variable {getf : FtGetCallback Key Val} {canBulkFetch : Bool} (tree : FtTree Key Entry)

/-- The tries of a search, taken together, are one sweep over the basement nodes. -/
theorem ftSearchTries_eq (decides : getf.Decides) {fuel : Nat}
    {state : SearchState Key Entry Val} (agrees : state.search.Agrees)
    {front back : List (SearchPart Key Entry)}
    (shape : tree.parts state.search.direction = front ++ back)
    (behind : ∀ part ∈ front, part.skipped state.search = true) (enough : back.length ≤ fuel) :
    ∃ bound, ftSearchTries getf canBulkFetch tree.root fuel state =
      some ((searchParts getf canBulkFetch back state).1,
        { (searchParts getf canBulkFetch back state).2 with
          search := { (searchParts getf canBulkFetch back state).2.search with
            pivotBound := bound } }) := by
  induction fuel generalizing state front back with
  | zero =>
    -- Something is always left to be searched.
    have some := (@partsOf_endsAt _ _ _ (tree.height + 1) _ tree.root _ [] tree.ok).unskipped
      (@infiniteBounds_open _ _ state.search)
    obtain rfl : back = [] := List.length_eq_zero_iff.mp (Nat.le_zero.mp enough)
    rw [List.append_nil] at shape
    rw [← shape] at behind
    exact absurd (List.dropWhile_eq_nil_iff.mpr behind) some
  | succ fuel ih =>
    obtain ⟨part, more, outcome, begins, result, descended⟩ :=
      @ftSearchNode_descends _ _ _ _ getf canBulkFetch decides tree.height tree.root
        .infiniteBounds [] state tree.ok agrees infiniteBounds_open
    have left : back.dropWhile (SearchPart.skipped state.search) = part :: more := by
      rw [← begins, ← dropWhile_append_of_all behind back, ← shape]
      rfl
    have searched := not_skipped_of_dropWhile left
    rw [searchParts_dropWhile, left, searchParts, if_neg (Bool.eq_false_iff.mp searched)]
    rw [ftSearchTries, result]
    simp only [bind, Option.bind_some]
    cases descended with
    | @decided r found tried =>
      have final := (@tryPart_final _ _ _ _ getf canBulkFetch state decides part).1 r
        (by rw [tried]; rfl)
      rw [if_neg final.2, tried]
      exact ⟨found.search.pivotBound, rfl⟩
    | @exhausted found tried last =>
      rw [if_neg FtCode.noConfusion, tried, last]
      cases part.next with
      | none => exact ⟨found.search.pivotBound, rfl⟩
      | some pivot =>
        simp only
        split <;> exact ⟨found.search.pivotBound, rfl⟩
    | @again found pivot tried next notLast goesOn =>
      have same := (@tryPart_final _ _ _ _ getf canBulkFetch state decides part).2 (by rw [tried])
      simp only [tried] at same
      rw [if_pos rfl, tried, next]
      simp only [goesOn, if_true]
      have found_direction : found.search.direction = state.search.direction :=
        congrArg FtSearch.direction same
      have direction : (found.saved pivot).search.direction = state.search.direction :=
        found_direction
      have found_agrees : found.search.Agrees := by
        rw [same]
        exact agrees
      have whole : tree.parts state.search.direction =
          (front ++ back.takeWhile (SearchPart.skipped state.search)) ++ part :: more := by
        rw [List.append_assoc, ← left, List.takeWhile_append_dropWhile, shape]
      have earlier := (whole ▸ tree.parts_ok).next_le next
      refine @ih (found.saved pivot) found_agrees
        (front ++ back.takeWhile (SearchPart.skipped state.search) ++ [part]) more ?_
          (fun other member => ?_) ?_
      · rw [direction, whole, List.append_assoc, List.append_assoc]
        simp
      · -- Whatever was searched or passed over ends no later than the pivot.
        rcases List.mem_append.mp member with before | here
        · obtain ⟨near, ends, le⟩ := earlier.2 other before
          exact SearchPart.skipped_saved ends (by rw [same]; exact le)
        · rw [List.mem_singleton.mp here]
          exact SearchPart.skipped_saved next (FtSearchDirection.le_refl pivot)
      · have size := congrArg List.length left
        have shorter := List.Sublist.length_le
          (List.dropWhile_sublist (SearchPart.skipped state.search) (l := back))
        rw [List.length_cons] at size
        omega
    | @stopped found pivot bound tried next stops =>
      rw [if_neg FtCode.noConfusion, tried, next]
      simp only [stops, Bool.false_eq_true, if_false]
      exact ⟨some bound, rfl⟩

end tries

end Tokuft
