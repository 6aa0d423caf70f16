import Tokuft.Search.FtSearch

/-! The child that is searched next is the first that ends behind what was searched already. -/

namespace Tokuft

variable {Key Child : Type} [LinearOrder Key] {search : FtSearch Key} {pivots : List Key}

/-- The comparison of a search goes along with its direction. -/
def FtSearch.Agrees (search : FtSearch Key) : Prop :=
  match search.direction with
  | .left => ∀ x y, x ≤ y → search.compare.holds x = true → search.compare.holds y = true
  | .right => ∀ x y, x ≤ y → search.compare.holds y = true → search.compare.holds x = true

/-- Whether a pivot is not yet behind the search. -/
def FtSearch.beyond (search : FtSearch Key) (pivot : Key) : Bool :=
  match search.direction with
  | .left => search.pivotBound.all fun bound => decide (bound < pivot)
  | .right => search.pivotBound.all fun bound => decide (pivot < bound)

/-- Whether the keys before a pivot, in the direction of the search, are still to be searched. -/
def FtSearch.passes (search : FtSearch Key) (pivot : Key) : Bool :=
  search.compare.holds pivot && search.beyond pivot

variable {x y : Key}

/-- Searching to the right, what passes does so with every greater pivot. -/
theorem FtSearch.Agrees.passes_left (agrees : search.Agrees) (left : search.direction = .left)
    (le : x ≤ y) (passes : search.passes x = true) : search.passes y = true := by
  simp only [FtSearch.passes, FtSearch.beyond, left, Bool.and_eq_true] at passes ⊢
  simp only [FtSearch.Agrees, left] at agrees
  refine ⟨agrees x y le passes.1, ?_⟩
  cases bound : search.pivotBound with
  | none => rfl
  | some bound' =>
    have before := passes.2
    simp only [bound, Option.all_some, decide_eq_true_eq] at before ⊢
    exact lt_of_lt_of_le before le

/-- Searching to the left, what passes does so with every lesser pivot. -/
theorem FtSearch.Agrees.passes_right (agrees : search.Agrees) (right : search.direction = .right)
    (le : x ≤ y) (passes : search.passes y = true) : search.passes x = true := by
  simp only [FtSearch.passes, FtSearch.beyond, right, Bool.and_eq_true] at passes ⊢
  simp only [FtSearch.Agrees, right] at agrees
  refine ⟨agrees x y le passes.1, ?_⟩
  cases bound : search.pivotBound with
  | none => rfl
  | some bound' =>
    have before := passes.2
    simp only [bound, Option.all_some, decide_eq_true_eq] at before ⊢
    exact lt_of_le_of_lt le before

/-- A place between pivots that separates those that fail a test from those that satisfy it. -/
structure Separates (test : Key → Bool) (pivots : List Key) (lo hi : Nat) : Prop where
  before : ∀ place, place < lo → ∀ pivot ∈ pivots[place]?, test pivot = false
  behind : ∀ place, hi ≤ place → ∀ pivot ∈ pivots[place]?, test pivot = true

variable {lo : Nat}

omit [LinearOrder Key] in
/-- Such a place is that of the first pivot that satisfies the test. -/
theorem Separates.eq_findIdx {test : Key → Bool} (separates : Separates test pivots lo lo)
    (within : lo ≤ pivots.length) : lo = pivots.findIdx test := by
  rcases Nat.lt_or_eq_of_le within with inside | last
  · refine ((List.findIdx_eq inside).mpr ⟨?_, fun place early => ?_⟩).symm
    · exact separates.behind lo (Nat.le_refl lo) _ (List.getElem?_eq_getElem inside)
    · exact separates.before place early _ (List.getElem?_eq_getElem _)
  · subst last
    refine (List.findIdx_eq_length_of_false fun pivot member => ?_).symm
    obtain ⟨place, inside, rfl⟩ := List.mem_iff_getElem.mp member
    exact separates.before place inside _ (List.getElem?_eq_getElem inside)

/-- Among sorted pivots, what follows in the list is not less. -/
theorem sorted_le (sorted : pivots.Pairwise (· ≤ ·)) {earlier later : Nat} (le : earlier ≤ later)
    (first : x ∈ pivots[earlier]?) (second : y ∈ pivots[later]?) : x ≤ y := by
  obtain ⟨inside, rfl⟩ := List.getElem?_eq_some_iff.mp first
  obtain ⟨within, rfl⟩ := List.getElem?_eq_some_iff.mp second
  rcases Nat.lt_or_eq_of_le le with before | same
  · exact List.pairwise_iff_getElem.mp sorted earlier later inside within before
  · subst same
    exact le_refl _

/-- The binary search finds the first pivot that it would go to the left of. -/
theorem whichChildBetween_eq
    (rises : ∀ x y, x ≤ y → search.goesLeft x = true → search.goesLeft y = true)
    (sorted : pivots.Pairwise (· ≤ ·)) {fuel hi : Nat} (enough : hi ≤ lo + fuel) (ordered : lo ≤ hi)
    (within : hi ≤ pivots.length) (separates : Separates search.goesLeft pivots lo hi) :
    whichChildBetween search pivots fuel lo hi = pivots.findIdx search.goesLeft := by
  induction fuel generalizing lo hi with
  | zero =>
    have met : lo = hi := by omega
    subst met
    exact separates.eq_findIdx within
  | succ fuel ih =>
    rw [whichChildBetween]
    split
    · rename_i open_
      have middle : (lo + hi) / 2 < pivots.length := by omega
      have found : pivots[(lo + hi) / 2]? = some pivots[(lo + hi) / 2] :=
        List.getElem?_eq_getElem middle
      simp only [found, Option.any_some]
      split
      · -- Everything from the middle on is to the right of the answer.
        rename_i leftwards
        refine ih (by omega) (by omega) (by omega)
          ⟨separates.before, fun place late pivot at_ => ?_⟩
        exact rises _ _ (sorted_le sorted late found at_) leftwards
      · rename_i rightwards
        refine ih (by omega) (by omega) within ⟨fun place early pivot at_ => ?_, separates.behind⟩
        by_contra leftwards
        refine rightwards (rises _ _ (sorted_le sorted (show place ≤ (lo + hi) / 2 by omega) at_
          found) ?_)
        simpa using leftwards
    · have met : lo = hi := by omega
      subst met
      exact separates.eq_findIdx within

/-- Moving to the right ends at the first pivot that is neither refused nor behind the search. -/
theorem moveOverRight_eq {bound : Key} (agrees : search.Agrees) (left : search.direction = .left)
    (saved : search.pivotBound = some bound) (sorted : pivots.Pairwise (· ≤ ·)) {fuel : Nat}
    (enough : pivots.length ≤ lo + fuel) (within : lo ≤ pivots.length)
    (before : ∀ place, place < lo → ∀ pivot ∈ pivots[place]?, search.passes pivot = false)
    (behind : ∀ place, lo ≤ place → ∀ pivot ∈ pivots[place]?, search.compare.holds pivot = true) :
    moveOverRight bound pivots fuel lo = pivots.findIdx search.passes := by
  have beyond (pivot : Key) : search.beyond pivot = decide (bound < pivot) := by
    simp only [FtSearch.beyond, left, saved, Option.all_some]
  -- The answer is reached where a pivot is behind the bound, or where there are no more.
  have reached {lo : Nat} (within : lo ≤ pivots.length)
      (before : ∀ place, place < lo → ∀ pivot ∈ pivots[place]?, search.passes pivot = false)
      (passes : ∀ pivot ∈ pivots[lo]?, search.passes pivot = true) :
      lo = pivots.findIdx search.passes := by
    refine Separates.eq_findIdx ⟨before, fun place late pivot at_ => ?_⟩ within
    obtain ⟨inside, -⟩ := List.getElem?_eq_some_iff.mp at_
    have first : pivots[lo]? = some pivots[lo] := List.getElem?_eq_getElem (by omega)
    exact agrees.passes_left left (sorted_le sorted late first at_) (passes _ first)
  induction fuel generalizing lo with
  | zero =>
    have none : pivots[lo]? = none := List.getElem?_eq_none (by omega)
    exact @reached lo within before fun pivot at_ => by rw [none] at at_; cases at_
  | succ fuel ih =>
    rw [moveOverRight]
    cases at_ : pivots[lo]? with
    | none =>
      rw [Option.any_none, if_neg Bool.false_ne_true]
      exact @reached lo within before fun pivot found => by rw [at_] at found; cases found
    | some pivot =>
      obtain ⟨inside, -⟩ := List.getElem?_eq_some_iff.mp at_
      rw [Option.any_some]
      split
      · rename_i passedOver
        refine ih (by omega) inside (fun place early other found => ?_)
          fun place late => behind place (by omega)
        rcases Nat.lt_or_eq_of_le (Nat.le_of_lt_succ early) with before' | same
        · exact before place before' other found
        · -- The pivot that was moved over is not behind the bound.
          rw [same, at_] at found
          cases found
          rw [FtSearch.passes, beyond, decide_eq_false (not_lt.mpr (of_decide_eq_true passedOver)),
            Bool.and_false]
      · rename_i notOver
        refine reached within before fun other found => ?_
        rw [at_] at found
        cases found
        rw [FtSearch.passes, beyond, behind lo (Nat.le_refl lo) pivot at_, Bool.true_and,
          decide_eq_true_eq]
        simpa using notOver

/-- Moving to the left ends behind the last pivot that passes. -/
theorem moveOverLeft_eq {bound : Key} (agrees : search.Agrees) (right : search.direction = .right)
    (saved : search.pivotBound = some bound) (sorted : pivots.Pairwise (· ≤ ·))
    (within : lo ≤ pivots.length)
    (before : ∀ place, place < lo → ∀ pivot ∈ pivots[place]?, search.compare.holds pivot = true)
    (behind : ∀ place, lo ≤ place → ∀ pivot ∈ pivots[place]?, search.passes pivot = false) :
    moveOverLeft bound pivots lo = pivots.findIdx fun pivot => !search.passes pivot := by
  have beyond (pivot : Key) : search.beyond pivot = decide (pivot < bound) := by
    simp only [FtSearch.beyond, right, saved, Option.all_some]
  induction lo with
  | zero =>
    refine Separates.eq_findIdx ⟨fun place early => absurd early (Nat.not_lt_zero place), ?_⟩
      (Nat.zero_le _)
    exact fun place late pivot at_ => by rw [behind place late pivot at_]; rfl
  | succ lo ih =>
    have at_ : pivots[lo]? = some pivots[lo] := List.getElem?_eq_getElem within
    rw [moveOverLeft, at_, Option.any_some]
    split
    · rename_i passedOver
      refine ih (Nat.le_of_succ_le within) (fun place early => before place (by omega))
        fun place late pivot found => ?_
      rcases Nat.lt_or_eq_of_le late with behind' | same
      · exact behind place behind' pivot found
      · -- The pivot that was moved over is behind the search already.
        rw [← same, at_] at found
        cases found
        rw [FtSearch.passes, beyond, decide_eq_false (not_lt.mpr (of_decide_eq_true passedOver)),
          Bool.and_false]
    · rename_i notOver
      have passes : search.passes pivots[lo] = true := by
        rw [FtSearch.passes, beyond, before lo (Nat.lt_succ_self lo) _ at_, Bool.true_and,
          decide_eq_true_eq]
        simpa using notOver
      refine Separates.eq_findIdx
        ⟨fun place early pivot found => ?_, fun place late pivot found => ?_⟩
        within
      · have le := sorted_le sorted (Nat.le_of_lt_succ early) found at_
        rw [agrees.passes_right right le passes]
        rfl
      · rw [behind place late pivot found]
        rfl

/-- The number of children that lie wholly before what a search has still to look at. -/
def firstChild (search : FtSearch Key) (pivots : List Key) : Nat :=
  match search.direction with
  | .left => pivots.findIdx search.passes
  | .right => pivots.findIdx fun pivot => !search.passes pivot

/-- The search goes on in the first child, in its direction, that it has not yet passed. -/
theorem ftSearchWhichChild_eq (agrees : search.Agrees) (node : Partitioned Key Child)
    (sorted : node.pivotkeys.Pairwise (· ≤ ·)) :
    ftSearchWhichChild node search = firstChild search node.pivotkeys := by
  have size := node.sized
  unfold ftSearchWhichChild
  split
  · rename_i single
    have none : node.pivotkeys = [] := List.length_eq_zero_iff.mp (by omega)
    unfold firstChild
    split <;> rw [none] <;> rfl
  · have start : Separates search.goesLeft node.pivotkeys 0 node.pivotkeys.length := by
      refine ⟨fun place early => absurd early (Nat.not_lt_zero place),
        fun place late pivot at_ => ?_⟩
      obtain ⟨inside, -⟩ := List.getElem?_eq_some_iff.mp at_
      omega
    have found (rises : ∀ x y, x ≤ y → search.goesLeft x = true → search.goesLeft y = true) :=
      whichChildBetween_eq rises sorted (show node.pivotkeys.length ≤ 0 + node.pivotkeys.length by
        omega) (Nat.zero_le _) (Nat.le_refl _) start
    have within := @List.findIdx_le_length _ search.goesLeft node.pivotkeys
    -- What lies before the answer of the binary search fails its test.
    have before : ∀ place, place < node.pivotkeys.findIdx search.goesLeft →
        ∀ pivot ∈ node.pivotkeys[place]?, search.goesLeft pivot = false := by
      intro place early pivot at_
      obtain ⟨inside, rfl⟩ := List.getElem?_eq_some_iff.mp at_
      exact List.not_of_lt_findIdx early
    have behind (rises : ∀ x y, x ≤ y → search.goesLeft x = true → search.goesLeft y = true) :
        ∀ place, node.pivotkeys.findIdx search.goesLeft ≤ place →
          ∀ pivot ∈ node.pivotkeys[place]?, search.goesLeft pivot = true := by
      intro place late pivot at_
      obtain ⟨inside, -⟩ := List.getElem?_eq_some_iff.mp at_
      have first : node.pivotkeys.findIdx search.goesLeft < node.pivotkeys.length := by omega
      exact rises _ _ (sorted_le sorted late (List.getElem?_eq_getElem first) at_)
        (List.findIdx_getElem (w := first))
    have unbounded (none : search.pivotBound = none) (pivot : Key) :
        search.passes pivot = search.compare.holds pivot := by
      rw [FtSearch.passes, FtSearch.beyond]
      cases search.direction <;> simp only [none, Option.all_none, Bool.and_true]
    unfold firstChild
    cases way : search.direction with
    | left =>
      have goes (pivot : Key) : search.goesLeft pivot = search.compare.holds pivot := by
        rw [FtSearch.goesLeft, way]
      have rises : ∀ x y, x ≤ y → search.goesLeft x = true → search.goesLeft y = true := by
        simp only [FtSearch.Agrees, way] at agrees
        intro x y le
        rw [goes, goes]
        exact agrees x y le
      rw [found rises]
      cases saved : search.pivotBound with
      | none =>
        exact congrArg node.pivotkeys.findIdx (funext fun pivot => by
          rw [goes, unbounded saved])
      | some bound =>
        refine moveOverRight_eq agrees way saved sorted (Nat.le_add_left _ _) within
          (fun place early pivot at_ => ?_) fun place late pivot at_ => ?_
        · rw [FtSearch.passes, ← goes, before place early pivot at_, Bool.false_and]
        · rw [← goes]
          exact behind rises place late pivot at_
    | right =>
      have goes (pivot : Key) : search.goesLeft pivot = !search.compare.holds pivot := by
        rw [FtSearch.goesLeft, way]
      have rises : ∀ x y, x ≤ y → search.goesLeft x = true → search.goesLeft y = true := by
        simp only [FtSearch.Agrees, way] at agrees
        intro x y le
        rw [goes, goes, Bool.not_eq_true', Bool.not_eq_true']
        intro refused
        by_contra taken
        rw [agrees x y le (by simpa using taken)] at refused
        cases refused
      rw [found rises]
      cases saved : search.pivotBound with
      | none =>
        exact congrArg node.pivotkeys.findIdx (funext fun pivot => by
          rw [goes, unbounded saved])
      | some bound =>
        refine moveOverLeft_eq agrees way saved sorted within
          (fun place early pivot at_ => ?_) fun place late pivot at_ => ?_
        · have refused := before place early pivot at_
          rw [goes] at refused
          simpa using refused
        · have refused := behind rises place late pivot at_
          rw [goes] at refused
          have fails : search.compare.holds pivot = false := by simpa using refused
          rw [FtSearch.passes, fails, Bool.false_and]

end Tokuft
