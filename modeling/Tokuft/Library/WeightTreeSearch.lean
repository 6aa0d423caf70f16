import Tokuft.Library.SignSearch
import Tokuft.Library.WeightTree

/-! Searching a tree with weights, and visiting a range of its labels. -/

namespace Tokuft

namespace WeightTree

variable {α σ : Type}

/-- Find the first zero, or the place where it would be. -/
def findZero (h : α → Int) : WeightTree α → Option α × Nat
  | null => (none, 0)
  | node _ left label right =>
    if h label < 0 then
      let (found, idx) := right.findZero h
      (found, idx + left.nweight + 1)
    else if 0 < h label then left.findZero h
    else
      match left.findZero h with
      | (some found, idx) => (some found, idx)
      | (none, _) => (some label, left.nweight)

/-- Find the first positive label. -/
def findPlus (h : α → Int) : WeightTree α → Option (α × Nat)
  | null => none
  | node _ left label right =>
    if 0 < h label then
      match left.findPlus h with
      | some found => some found
      | none => some (label, left.nweight)
    else (right.findPlus h).map fun (found, idx) => (found, idx + left.nweight + 1)

/-- Find the last negative label. -/
def findMinus (h : α → Int) : WeightTree α → Option (α × Nat)
  | null => none
  | node _ left label right =>
    if h label < 0 then
      match right.findMinus h with
      | some (found, idx) => some (found, idx + left.nweight + 1)
      | none => some (label, left.nweight)
    else left.findMinus h

variable {h : α → Int}

/-- What rises along a whole rises along both sides of a node, and from side to side. -/
theorem signsRise_node {weight : Nat} {left right : WeightTree α} {label : α}
    (rise : SignsRise h (node weight left label right).toList) :
    SignsRise h left.toList ∧ SignsRise h right.toList ∧
      (∀ other ∈ left.toList, (h other).sign ≤ (h label).sign) ∧
      ∀ other ∈ right.toList, (h label).sign ≤ (h other).sign := by
  obtain ⟨first, rest, across⟩ := List.pairwise_append.mp rise
  obtain ⟨behind, second⟩ := List.pairwise_cons.mp rest
  exact ⟨first, second, fun other member => across other member label List.mem_cons_self, behind⟩

/-- The first place that passes a test is found on the left, at the label or on the right. -/
theorem findIdx_node (p : α → Bool) (weight : Nat) {left : WeightTree α} (right : WeightTree α)
    (label : α) (first : left.Weighted) :
    (node weight left label right).toList.findIdx p =
      if left.toList.findIdx p < left.nweight then left.toList.findIdx p
      else if p label then left.nweight
      else right.toList.findIdx p + left.nweight + 1 := by
  rw [toList_node, List.findIdx_append, first.length]
  split
  · rfl
  · rw [List.findIdx_cons]
    cases p label with
    | true => simp
    | false =>
      simp only [cond_false, Bool.false_eq_true, if_false]
      omega

/-- Values that all fail a test are passed over. -/
theorem findIdx_of_none {p : α → Bool} {tree : WeightTree α} (weighted : tree.Weighted)
    (fails : ∀ label ∈ tree.toList, p label = false) : tree.toList.findIdx p = tree.nweight := by
  rw [← weighted.length]
  exact List.findIdx_eq_length_of_false fails

/-- Searching a tree for a zero finds what a search of the labels in order finds. -/
theorem findZero_eq : ∀ {tree : WeightTree α}, tree.Weighted →
    SignsRise h tree.toList → tree.findZero h = linearZero h tree.toList := by
  intro tree
  induction tree with
  | null => exact fun _ _ => rfl
  | node weight left label right leftIH rightIH =>
    rintro ⟨-, first, second⟩ rise
    obtain ⟨riseLeft, riseRight, below, -⟩ := signsRise_node rise
    have size := first.length
    have bound : left.toList.findIdx (fun v => decide (0 ≤ h v)) ≤ left.toList.length :=
      List.findIdx_le_length
    have place := findIdx_node (fun v => decide (0 ≤ h v)) weight right label first
    rw [toList_node] at place
    rw [findZero, leftIH first riseLeft, rightIH second riseRight]
    simp only [linearZero, toList_node, place]
    by_cases negative : h label < 0
    · -- Everything on the left is negative too.
      have none : left.toList.findIdx (fun v => decide (0 ≤ h v)) = left.nweight := by
        refine findIdx_of_none first fun other member => decide_eq_false ?_
        have le := below other member
        rw [Int.sign_eq_neg_one_of_neg negative] at le
        intro zero
        have := Int.sign_nonneg_iff.mpr zero
        omega
      have fails : ¬ 0 ≤ h label := by omega
      rw [if_pos negative, none, if_neg (Nat.lt_irrefl _), if_neg (by simpa using negative),
        List.getElem?_append_right (by omega), size]
      have offset : right.toList.findIdx (fun v => decide (0 ≤ h v)) + left.nweight + 1 -
          left.nweight = right.toList.findIdx (fun v => decide (0 ≤ h v)) + 1 := by omega
      rw [offset, List.getElem?_cons_succ]
    rw [if_neg negative]
    have passes : decide (0 ≤ h label) = true := decide_eq_true (by omega)
    simp only [passes, if_true]
    by_cases early : left.toList.findIdx (fun v => decide (0 ≤ h v)) < left.nweight
    · rw [if_pos early, List.getElem?_append_left (by omega)]
      by_cases positive : 0 < h label
      · rw [if_pos positive]
      · -- What is not negative on the left is zero too.
        obtain ⟨v, found⟩ : ∃ v, left.toList[left.toList.findIdx fun v => decide (0 ≤ h v)]? =
            some v := ⟨_, List.getElem?_eq_getElem (by omega)⟩
        have notNegative : 0 ≤ h v := by
          obtain ⟨inside, read⟩ := List.getElem?_eq_some_iff.mp found
          have test := List.findIdx_getElem (p := fun v => decide (0 ≤ h v)) (w := inside)
          rw [read] at test
          exact of_decide_eq_true test
        have zero : h v = 0 := by
          have le := below v (List.mem_of_getElem? found)
          have none : h label = 0 := by omega
          rw [none, Int.sign_zero] at le
          have := Int.sign_nonpos_iff.mp le
          omega
        rw [if_neg positive, found]
        simp [Option.filter, zero]
    · have last : left.toList.findIdx (fun v => decide (0 ≤ h v)) = left.nweight := by omega
      have past : left.toList[left.nweight]? = none := List.getElem?_eq_none (by omega)
      rw [last, if_neg (Nat.lt_irrefl _), past, List.getElem?_append_right (by omega), size,
        Nat.sub_self, List.getElem?_cons_zero]
      by_cases positive : 0 < h label
      · have notZero : h label ≠ 0 := by omega
        rw [if_pos positive]
        simp [Option.filter, notZero]
      · have zero : h label = 0 := by omega
        rw [if_neg positive]
        simp [Option.filter, zero]

/-- Searching a tree for a positive label finds the first one. -/
theorem findPlus_eq : ∀ {tree : WeightTree α}, tree.Weighted →
    SignsRise h tree.toList → tree.findPlus h = linearPlus h tree.toList := by
  intro tree
  induction tree with
  | null => exact fun _ _ => rfl
  | node weight left label right leftIH rightIH =>
    rintro ⟨-, first, second⟩ rise
    obtain ⟨riseLeft, riseRight, below, -⟩ := signsRise_node rise
    have size := first.length
    have bound : left.toList.findIdx (fun v => decide (0 < h v)) ≤ left.toList.length :=
      List.findIdx_le_length
    have place := findIdx_node (fun v => decide (0 < h v)) weight right label first
    rw [toList_node] at place
    rw [findPlus, leftIH first riseLeft, rightIH second riseRight]
    simp only [linearPlus, toList_node, place]
    by_cases positive : 0 < h label
    · have passes : decide (0 < h label) = true := decide_eq_true positive
      simp only [if_pos positive, passes, if_true]
      by_cases early : left.toList.findIdx (fun v => decide (0 < h v)) < left.nweight
      · obtain ⟨v, found⟩ : ∃ v, left.toList[left.toList.findIdx fun v => decide (0 < h v)]? =
            some v := ⟨_, List.getElem?_eq_getElem (by omega)⟩
        rw [if_pos early, List.getElem?_append_left (by omega), found]
        rfl
      · have past : left.toList[left.toList.findIdx fun v => decide (0 < h v)]? = none :=
          List.getElem?_eq_none (by omega)
        rw [if_neg early, past, List.getElem?_append_right (by omega), size, Nat.sub_self]
        rfl
    · -- Nothing on the left is positive either.
      have none : left.toList.findIdx (fun v => decide (0 < h v)) = left.nweight := by
        refine findIdx_of_none first fun other member => decide_eq_false ?_
        have le := below other member
        have low := Int.sign_nonpos_iff.mpr (Int.not_lt.mp positive)
        intro above
        have := Int.sign_pos_iff.mpr above
        omega
      have fails : decide (0 < h label) = false := decide_eq_false positive
      have offset : right.toList.findIdx (fun v => decide (0 < h v)) + left.nweight + 1 -
          left.nweight = right.toList.findIdx (fun v => decide (0 < h v)) + 1 := by omega
      simp only [if_neg positive, fails, Bool.false_eq_true, if_false, none, Nat.lt_irrefl]
      rw [List.getElem?_append_right (by omega), size, offset, List.getElem?_cons_succ,
        Option.map_map]
      rfl

/-- Searching a tree for a negative label finds the last one. -/
theorem findMinus_eq : ∀ {tree : WeightTree α}, tree.Weighted →
    SignsRise h tree.toList → tree.findMinus h = linearMinus h tree.toList := by
  intro tree
  induction tree with
  | null => exact fun _ _ => rfl
  | node weight left label right leftIH rightIH =>
    rintro ⟨-, first, second⟩ rise
    obtain ⟨riseLeft, riseRight, below, -⟩ := signsRise_node rise
    have size := first.length
    have bound : left.toList.findIdx (fun v => decide (0 ≤ h v)) ≤ left.toList.length :=
      List.findIdx_le_length
    have bound' : right.toList.findIdx (fun v => decide (0 ≤ h v)) ≤ right.toList.length :=
      List.findIdx_le_length
    have place := findIdx_node (fun v => decide (0 ≤ h v)) weight right label first
    rw [toList_node] at place
    rw [findMinus, leftIH first riseLeft, rightIH second riseRight]
    simp only [linearMinus, toList_node, place]
    by_cases negative : h label < 0
    · have none : left.toList.findIdx (fun v => decide (0 ≤ h v)) = left.nweight := by
        refine findIdx_of_none first fun other member => decide_eq_false ?_
        have le := below other member
        rw [Int.sign_eq_neg_one_of_neg negative] at le
        intro zero
        have := Int.sign_nonneg_iff.mpr zero
        omega
      have fails : decide (0 ≤ h label) = false := decide_eq_false (by omega)
      have later : ¬ right.toList.findIdx (fun v => decide (0 ≤ h v)) + left.nweight + 1 = 0 := by
        omega
      simp only [if_pos negative, none, Nat.lt_irrefl, if_false, fails, Bool.false_eq_true,
        if_neg later]
      by_cases start : right.toList.findIdx (fun v => decide (0 ≤ h v)) = 0
      · -- Nothing on the right is negative, so the label is the last one.
        rw [if_pos start, start, List.getElem?_append_right (by omega), size]
        have offset : 0 + left.nweight + 1 - 1 = left.nweight := by omega
        rw [offset, Nat.sub_self]
        rfl
      · obtain ⟨rest, next⟩ : ∃ rest, right.toList.findIdx (fun v => decide (0 ≤ h v)) = rest + 1 :=
          ⟨right.toList.findIdx (fun v => decide (0 ≤ h v)) - 1, by omega⟩
        obtain ⟨v, found⟩ : ∃ v, right.toList[rest]? = some v :=
          ⟨_, List.getElem?_eq_getElem (by omega)⟩
        have offset : rest + 1 + left.nweight + 1 - 1 - left.nweight = rest + 1 := by omega
        rw [if_neg start, next, Nat.add_sub_cancel, found, List.getElem?_append_right (by omega),
          size, offset, List.getElem?_cons_succ, found]
        simp only [Option.map_some, Option.some.injEq, Prod.mk.injEq, true_and]
        omega
    · have passes : decide (0 ≤ h label) = true := decide_eq_true (by omega)
      have same : (if left.toList.findIdx (fun v => decide (0 ≤ h v)) < left.nweight then
          left.toList.findIdx (fun v => decide (0 ≤ h v)) else left.nweight) =
            left.toList.findIdx (fun v => decide (0 ≤ h v)) := by
        split <;> omega
      simp only [if_neg negative, passes, if_true, same]
      by_cases start : left.toList.findIdx (fun v => decide (0 ≤ h v)) = 0
      · rw [if_pos start, if_pos start]
      · rw [if_neg start, if_neg start, List.getElem?_append_left (by omega)]

/-- Visit labels with their places until a visit says to stop. -/
def visit (f : α → Nat → σ → Int × σ) : List (α × Nat) → σ → Int × σ
  | [], extra => (0, extra)
  | (label, idx) :: rest, extra =>
    let (r, extra) := f label idx extra
    if r ≠ 0 then (r, extra) else visit f rest extra

/-- Visiting labels after others goes on only when nothing said to stop. -/
theorem visit_append (f : α → Nat → σ → Int × σ) : ∀ (first second : List (α × Nat)) (extra : σ),
    visit f (first ++ second) extra =
      if (visit f first extra).1 ≠ 0 then visit f first extra
      else visit f second (visit f first extra).2 := by
  -- By induction on the first labels.
  intro first
  induction first with
  | nil => exact fun _ _ => rfl
  | cons head first ih =>
    intro second extra
    obtain ⟨label, idx⟩ := head
    rw [List.cons_append, visit, visit]
    by_cases stop : (f label idx extra).1 ≠ 0
    · simp only [if_pos stop]
    · simp only [if_neg stop]
      exact ih second _

/-- The labels of a list whose places are in a range, with their places. -/
def inRange (left right : Nat) (labels : List α) (idx : Nat) : List (α × Nat) :=
  (labels.zipIdx idx).filter fun entry => left ≤ entry.2 && entry.2 < right

/-- Visit the labels of a tree whose places are in a range. -/
def iterate (f : α → Nat → σ → Int × σ) (left right : Nat) :
    WeightTree α → Nat → σ → Int × σ
  | null, _, extra => (0, extra)
  | node _ before label behind, idx, extra =>
    let idxRoot := idx + before.nweight
    let (r, extra) :=
      if left < idxRoot then before.iterate f left right idx extra else (0, extra)
    if r ≠ 0 then (r, extra)
    else
      let (r, extra) :=
        if left ≤ idxRoot ∧ idxRoot < right then f label idxRoot extra else (0, extra)
      if r ≠ 0 then (r, extra)
      else if idxRoot + 1 < right then behind.iterate f left right (idxRoot + 1) extra
      else (0, extra)

/-- The places in a range split at a label. -/
theorem inRange_append (left right : Nat) (first second : List α) (idx : Nat) :
    inRange left right (first ++ second) idx =
      inRange left right first idx ++ inRange left right second (idx + first.length) := by
  rw [inRange, List.zipIdx_append, List.filter_append]
  rfl

/-- No place in a list is in a range that lies before it or behind it. -/
theorem inRange_nil {left right : Nat} {labels : List α} {idx : Nat}
    (apart : right ≤ idx ∨ idx + labels.length ≤ left) : inRange left right labels idx = [] := by
  refine List.filter_eq_nil_iff.mpr fun entry member => ?_
  have bounds := List.mem_zipIdx member
  simp only [Bool.and_eq_true, decide_eq_true_eq]
  omega

/-- The first label of a list, and the others. -/
theorem inRange_cons (left right : Nat) (label : α) (labels : List α) (idx : Nat) :
    inRange left right (label :: labels) idx =
      if left ≤ idx ∧ idx < right then (label, idx) :: inRange left right labels (idx + 1)
      else inRange left right labels (idx + 1) := by
  unfold inRange
  rw [List.zipIdx_cons, List.filter_cons]
  simp

/-- Visiting a range of a tree visits the labels of the list whose places are in it. -/
theorem iterate_eq (f : α → Nat → σ → Int × σ) (left right : Nat) :
    ∀ {tree : WeightTree α}, tree.Weighted → ∀ (idx : Nat) (extra : σ),
      tree.iterate f left right idx extra = visit f (inRange left right tree.toList idx) extra := by
  intro tree
  induction tree with
  | null => exact fun _ _ _ => rfl
  | node weight before label behind beforeIH behindIH =>
    rintro ⟨-, first, second⟩ idx extra
    have size := first.length
    -- A side that lies outside the range has nothing to visit.
    have one : (if left < idx + before.nweight then before.iterate f left right idx extra
        else (0, extra)) = visit f (inRange left right before.toList idx) extra := by
      split
      case isTrue => exact beforeIH first idx extra
      case isFalse outside =>
        rw [inRange_nil (by omega)]
        rfl
    have three (extra : σ) : (if idx + before.nweight + 1 < right then
        behind.iterate f left right (idx + before.nweight + 1) extra else (0, extra)) =
          visit f (inRange left right behind.toList (idx + before.nweight + 1)) extra := by
      split
      case isTrue => exact behindIH second _ extra
      case isFalse outside =>
        rw [inRange_nil (by omega)]
        rfl
    simp only [iterate, one, three]
    rw [toList_node, inRange_append, visit_append, inRange_cons, size]
    split
    case isTrue => rfl
    case isFalse =>
      split
      case isTrue => rfl
      case isFalse => rw [if_neg (by simp)]

/-- Visiting what is seen of labels is visiting the labels with what is seen of each. -/
theorem visit_map {β : Type} (view : α → β) (f : β → Nat → σ → Int × σ) :
    ∀ (entries : List (α × Nat)) (extra : σ),
      visit f (entries.map fun entry => (view entry.1, entry.2)) extra =
        visit (fun label => f (view label)) entries extra := by
  intro entries
  induction entries with
  | nil => exact fun _ => rfl
  | cons entry entries ih =>
    intro extra
    simp only [List.map_cons, visit, ih]

/-- The places in a range are the same for what is seen of labels. -/
theorem inRange_map {β : Type} (view : α → β) (left right : Nat) (labels : List α) (idx : Nat) :
    inRange left right (labels.map view) idx =
      (inRange left right labels idx).map fun entry => (view entry.1, entry.2) := by
  unfold inRange
  rw [List.zipIdx_map, List.filter_map]
  rfl

end WeightTree

end Tokuft
