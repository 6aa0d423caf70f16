import Mathlib.Data.List.Basic
import Mathlib.Data.Int.Order.Basic

/-! Searching values by the sign that a function gives them, in an array by bisection. -/

namespace Tokuft

variable {α : Type}

/-- The signs of values do not fall. -/
def SignsRise (h : α → Int) (values : List α) : Prop :=
  values.Pairwise fun a b => (h a).sign ≤ (h b).sign

/-- The first value that is zero, and the place of the first that is not negative. -/
def linearZero (h : α → Int) (values : List α) : Option α × Nat :=
  let idx := values.findIdx fun v => decide (0 ≤ h v)
  (values[idx]?.filter fun v => decide (h v = 0), idx)

/-- The first value that is positive, with its place. -/
def linearPlus (h : α → Int) (values : List α) : Option (α × Nat) :=
  let idx := values.findIdx fun v => decide (0 < h v)
  values[idx]?.map fun v => (v, idx)

/-- The last value of those that are negative, with its place. -/
def linearMinus (h : α → Int) (values : List α) : Option (α × Nat) :=
  let idx := values.findIdx fun v => decide (0 ≤ h v)
  if idx = 0 then none else values[idx - 1]?.map fun v => (v, idx - 1)

section View

variable {β : Type} (view : α → β) (h : β → Int) (values : List α)

/-- What is seen of values rises as the values do. -/
theorem signsRise_map : SignsRise h (values.map view) ↔ SignsRise (fun v => h (view v)) values :=
  List.pairwise_map

/-- Searching what is seen of values for a zero sees what is found among the values. -/
theorem linearZero_map : linearZero h (values.map view) =
    ((linearZero (fun v => h (view v)) values).1.map view,
      (linearZero (fun v => h (view v)) values).2) := by
  simp only [linearZero, List.findIdx_map, List.getElem?_map, Option.filter_map]
  rfl

/-- Searching what is seen of values for a positive one sees what is found among the values. -/
theorem linearPlus_map : linearPlus h (values.map view) =
    (linearPlus (fun v => h (view v)) values).map fun found => (view found.1, found.2) := by
  simp only [linearPlus, List.findIdx_map, List.getElem?_map, Option.map_map]
  rfl

/-- Searching what is seen of values for a negative one sees what is found among the values. -/
theorem linearMinus_map : linearMinus h (values.map view) =
    (linearMinus (fun v => h (view v)) values).map fun found => (view found.1, found.2) := by
  have same : (values.map view).findIdx (fun v => decide (0 ≤ h v)) =
      values.findIdx fun v => decide (0 ≤ h (view v)) := List.findIdx_map _ _ _
  simp only [linearMinus, same]
  split
  · rfl
  · simp only [List.getElem?_map, Option.map_map]
    rfl

end View

/-- Bisect for a value that is not negative, with the last positive and the last zero seen. -/
def zeroLoop (h : α → Int) (cell : Nat → Option α) :
    Nat → Nat → Nat → Option Nat → Option Nat → Option (Option Nat × Option Nat)
  | 0, _, _, bestPos, bestZero => some (bestPos, bestZero)
  | fuel + 1, min, limit, bestPos, bestZero =>
    if min ≠ limit then do
      let mid := (min + limit) / 2
      let v ← cell mid
      if h v < 0 then zeroLoop h cell fuel (mid + 1) limit bestPos bestZero
      else if 0 < h v then zeroLoop h cell fuel min mid (some mid) bestZero
      else zeroLoop h cell fuel min mid bestPos (some mid)
    else some (bestPos, bestZero)

/-- Bisect for the first positive value. -/
def plusLoop (h : α → Int) (cell : Nat → Option α) :
    Nat → Nat → Nat → Option Nat → Option (Option Nat)
  | 0, _, _, best => some best
  | fuel + 1, min, limit, best =>
    if min ≠ limit then do
      let mid := (min + limit) / 2
      let v ← cell mid
      if 0 < h v then plusLoop h cell fuel min mid (some mid)
      else plusLoop h cell fuel (mid + 1) limit best
    else some best

/-- Bisect for the last negative value. -/
def minusLoop (h : α → Int) (cell : Nat → Option α) :
    Nat → Nat → Nat → Option Nat → Option (Option Nat)
  | 0, _, _, best => some best
  | fuel + 1, min, limit, best =>
    if min ≠ limit then do
      let mid := (min + limit) / 2
      let v ← cell mid
      if h v < 0 then minusLoop h cell fuel (mid + 1) limit (some mid)
      else minusLoop h cell fuel min mid best
    else some best

/-- Find a zero among the cells of an array, or the place where it would be. -/
def findZeroArray (h : α → Int) (cell : Nat → Option α) (start num : Nat) :
    Option (Option α × Nat) := do
  let (bestPos, bestZero) ← zeroLoop h cell num start (start + num) none none
  match bestZero, bestPos with
  | some found, _ => return (some (← cell found), found - start)
  | none, some pos => return (none, pos - start)
  | none, none => return (none, num)

/-- Find the first positive value among the cells of an array. -/
def findPlusArray (h : α → Int) (cell : Nat → Option α) (start num : Nat) :
    Option (Option (α × Nat)) := do
  match ← plusLoop h cell num start (start + num) none with
  | some best => return some (← cell best, best - start)
  | none => return none

/-- Find the last negative value among the cells of an array. -/
def findMinusArray (h : α → Int) (cell : Nat → Option α) (start num : Nat) :
    Option (Option (α × Nat)) := do
  match ← minusLoop h cell num start (start + num) none with
  | some best => return some (← cell best, best - start)
  | none => return none

/-- Values that fail a test come before all that pass it. -/
def Splits (p : α → Bool) (values : List α) : Prop :=
  values.Pairwise fun a b => p a = true → p b = true

/-- Whether a value passes is told by its place. -/
theorem Splits.getElem_iff {p : α → Bool} {values : List α} (splits : Splits p values) {i : Nat}
    (inside : i < values.length) : p values[i] = true ↔ values.findIdx p ≤ i := by
  constructor
  · intro passes
    by_contra early
    -- What is before the first that passes fails.
    have fails := List.not_of_lt_findIdx (Nat.lt_of_not_le early)
    rw [passes] at fails
    cases fails
  · intro reached
    have first := List.findIdx_getElem
      (w := Nat.lt_of_le_of_lt reached inside)
    rcases Nat.lt_or_eq_of_le reached with later | same
    · exact List.pairwise_iff_getElem.mp splits _ _ _ inside later first
    · simpa only [same] using first

section Rise

variable {h : α → Int} {values : List α}

/-- When signs do not fall, values that are not negative come last. -/
theorem SignsRise.notNegative (rise : SignsRise h values) :
    Splits (fun v => decide (0 ≤ h v)) values := by
  refine List.Pairwise.imp (fun {a b} le first => ?_) rise
  have zero : 0 ≤ (h a).sign := Int.sign_nonneg_iff.mpr (of_decide_eq_true first)
  exact decide_eq_true (Int.sign_nonneg_iff.mp (Int.le_trans zero le))

/-- When signs do not fall, positive values come last. -/
theorem SignsRise.positive (rise : SignsRise h values) :
    Splits (fun v => decide (0 < h v)) values := by
  refine List.Pairwise.imp (fun {a b} le first => ?_) rise
  have one : 0 < (h a).sign := Int.sign_pos_iff.mpr (of_decide_eq_true first)
  exact decide_eq_true (Int.sign_pos_iff.mp (Int.lt_of_lt_of_le one le))

variable {cell : Nat → Option α} {start : Nat}

/-- The array holds the values from some cell on. -/
def Held (cell : Nat → Option α) (start : Nat) (values : List α) : Prop :=
  ∀ i, i < values.length → cell (start + i) = values[i]?

/-- A cell between two bounds holds a value. -/
theorem Held.read (held : Held cell start values) {place : Nat} (low : start ≤ place)
    (high : place < start + values.length) :
    ∃ inside : place - start < values.length, cell place = some values[place - start] := by
  have inside : place - start < values.length := by omega
  refine ⟨inside, ?_⟩
  have found := held (place - start) inside
  rw [Nat.add_sub_cancel' low, List.getElem?_eq_getElem inside] at found
  exact found

/-- What a bisection for a zero has noted is the value at its limit. -/
def NotedZero (h : α → Int) (values : List α) (start limit : Nat) (bestPos bestZero : Option Nat) :
    Prop :=
  (limit = start + values.length ∧ bestPos = none ∧ bestZero = none) ∨
    ∃ v, values[limit - start]? = some v ∧
      ((h v = 0 ∧ bestZero = some limit) ∨ (0 < h v ∧ bestPos = some limit ∧ bestZero = none))

section

variable (held : Held cell start values) (rise : SignsRise h values)
include held rise

/-- A bisection for a zero ends at the first value that is not negative. -/
theorem zeroLoop_eq {fuel : Nat} :
    ∀ {min limit : Nat} {bestPos bestZero : Option Nat}, limit ≤ min + fuel → start ≤ min →
      min ≤ start + values.findIdx (fun v => decide (0 ≤ h v)) →
      start + values.findIdx (fun v => decide (0 ≤ h v)) ≤ limit →
      limit ≤ start + values.length → NotedZero h values start limit bestPos bestZero →
      ∃ pos zero, zeroLoop h cell fuel min limit bestPos bestZero = some (pos, zero) ∧
        NotedZero h values start (start + values.findIdx fun v => decide (0 ≤ h v)) pos zero := by
  -- The place that is looked for stays between the bounds, which meet there.
  induction fuel with
  | zero =>
    intro min limit bestPos bestZero enough _ low high _ noted
    have same : limit = start + values.findIdx fun v => decide (0 ≤ h v) := by omega
    exact ⟨bestPos, bestZero, rfl, same ▸ noted⟩
  | succ fuel ih =>
    intro min limit bestPos bestZero enough after low high inside noted
    rw [zeroLoop]
    by_cases meet : min = limit
    · have same : limit = start + values.findIdx fun v => decide (0 ≤ h v) := by omega
      rw [if_neg (not_not.mpr meet)]
      exact ⟨bestPos, bestZero, rfl, same ▸ noted⟩
    · obtain ⟨within, found⟩ := held.read (show start ≤ (min + limit) / 2 by omega)
        (by omega)
      have place := rise.notNegative.getElem_iff within
      rw [if_pos meet]
      simp only [found, Option.bind_eq_bind, Option.bind_some]
      by_cases negative : h values[(min + limit) / 2 - start] < 0
      · -- A negative value is before the place.
        have before : ¬ values.findIdx (fun v => decide (0 ≤ h v)) ≤ (min + limit) / 2 - start := by
          intro reached
          have := of_decide_eq_true (place.mpr reached)
          omega
        rw [if_pos negative]
        exact ih (by omega) (by omega) (by omega) high inside noted
      · have reached := place.mp (decide_eq_true (by omega))
        have read : values[(min + limit) / 2 - start]? = some values[(min + limit) / 2 - start] :=
          List.getElem?_eq_getElem within
        rw [if_neg negative]
        by_cases positive : 0 < h values[(min + limit) / 2 - start]
        · -- No zero was seen, since zeros come before positive values.
          have none : bestZero = none := by
            rcases noted with ⟨-, -, none⟩ | ⟨v, there, ⟨zero, -⟩ | ⟨-, -, none⟩⟩
            · exact none
            · obtain ⟨later, rfl⟩ := List.getElem?_eq_some_iff.mp there
              have still := List.pairwise_iff_getElem.mp rise.positive _ _ within later
                (by omega) (decide_eq_true positive)
              have := of_decide_eq_true still
              omega
            · exact none
          rw [if_pos positive]
          exact ih (by omega) after (by omega) (by omega) (by omega)
            (.inr ⟨_, read, .inr ⟨positive, rfl, none⟩⟩)
        · rw [if_neg positive]
          exact ih (by omega) after (by omega) (by omega) (by omega)
            (.inr ⟨_, read, .inl ⟨by omega, rfl⟩⟩)

/-- Searching an array for a zero finds what a search of the values in order finds. -/
theorem findZeroArray_eq :
    findZeroArray h cell start values.length = some (linearZero h values) := by
  have bound : values.findIdx (fun v => decide (0 ≤ h v)) ≤ values.length :=
    List.findIdx_le_length
  have noted : NotedZero h values start (start + values.length) none none := .inl ⟨rfl, rfl, rfl⟩
  obtain ⟨pos, zero, loop, noted⟩ := zeroLoop_eq held rise (Nat.le_refl (start + values.length))
    (Nat.le_refl _) (by omega) (by omega) (Nat.le_refl _) noted
  simp only [findZeroArray, loop, Option.bind_eq_bind, Option.bind_some, linearZero]
  rcases noted with ⟨all, rfl, rfl⟩ | ⟨v, there, ⟨isZero, rfl⟩ | ⟨positive, rfl, rfl⟩⟩
  · -- Every value is negative.
    have past : values.findIdx (fun v => decide (0 ≤ h v)) = values.length := by omega
    simp [past]
  · rw [Nat.add_sub_cancel_left] at there
    obtain ⟨inside, -⟩ := List.getElem?_eq_some_iff.mp there
    have found := held _ inside
    rw [there] at found
    simp [found, there, isZero, Option.filter]
  · rw [Nat.add_sub_cancel_left] at there
    have notZero : h v ≠ 0 := by omega
    simp [there, notZero, Option.filter]

/-- A bisection for a positive value ends at the first one. -/
theorem plusLoop_eq {fuel : Nat} :
    ∀ {min limit : Nat} {best : Option Nat}, limit ≤ min + fuel → start ≤ min →
      min ≤ start + values.findIdx (fun v => decide (0 < h v)) →
      start + values.findIdx (fun v => decide (0 < h v)) ≤ limit →
      limit ≤ start + values.length →
      best = (if limit = start + values.length then none else some limit) →
      plusLoop h cell fuel min limit best =
        some (if values.findIdx (fun v => decide (0 < h v)) = values.length then none
          else some (start + values.findIdx fun v => decide (0 < h v))) := by
  induction fuel with
  | zero =>
    intro min limit best enough _ low high _ noted
    have same : limit = start + values.findIdx fun v => decide (0 < h v) := by omega
    simp only [plusLoop, noted, same, Nat.add_left_cancel_iff]
  | succ fuel ih =>
    intro min limit best enough after low high inside noted
    rw [plusLoop]
    by_cases meet : min = limit
    · have same : limit = start + values.findIdx fun v => decide (0 < h v) := by omega
      rw [if_neg (not_not.mpr meet)]
      simp only [noted, same, Nat.add_left_cancel_iff]
    · obtain ⟨within, found⟩ := held.read (show start ≤ (min + limit) / 2 by omega)
        (by omega)
      have place := rise.positive.getElem_iff within
      rw [if_pos meet]
      simp only [found, Option.bind_eq_bind, Option.bind_some]
      by_cases positive : 0 < h values[(min + limit) / 2 - start]
      · have reached := place.mp (decide_eq_true positive)
        rw [if_pos positive]
        exact ih (by omega) after (by omega) (by omega) (by omega) (by rw [if_neg (by omega)])
      · -- A value that is not positive is before the place.
        have before : ¬ values.findIdx (fun v => decide (0 < h v)) ≤ (min + limit) / 2 - start :=
          fun reached => positive (of_decide_eq_true (place.mpr reached))
        rw [if_neg positive]
        exact ih (by omega) (by omega) (by omega) high inside noted

/-- Searching an array for a positive value finds the first one. -/
theorem findPlusArray_eq :
    findPlusArray h cell start values.length = some (linearPlus h values) := by
  -- The loop keeps the first place between its bounds.
  have bound : values.findIdx (fun v => decide (0 < h v)) ≤ values.length :=
    List.findIdx_le_length
  have loop := plusLoop_eq held rise (Nat.le_refl (start + values.length)) (Nat.le_refl _)
    (by omega) (by omega) (Nat.le_refl _) rfl
  rw [if_pos rfl] at loop
  simp only [findPlusArray, loop, Option.bind_eq_bind, Option.bind_some, linearPlus]
  by_cases past : values.findIdx (fun v => decide (0 < h v)) = values.length
  · simp [past]
  · have inside : values.findIdx (fun v => decide (0 < h v)) < values.length := by omega
    have found := held _ inside
    rw [List.getElem?_eq_getElem inside] at found
    simp [past, found, inside]

/-- A bisection for a negative value ends behind the last one. -/
theorem minusLoop_eq {fuel : Nat} :
    ∀ {min limit : Nat} {best : Option Nat}, limit ≤ min + fuel → start ≤ min →
      min ≤ start + values.findIdx (fun v => decide (0 ≤ h v)) →
      start + values.findIdx (fun v => decide (0 ≤ h v)) ≤ limit →
      limit ≤ start + values.length →
      best = (if min = start then none else some (min - 1)) →
      minusLoop h cell fuel min limit best =
        some (if values.findIdx (fun v => decide (0 ≤ h v)) = 0 then none
          else some (start + values.findIdx (fun v => decide (0 ≤ h v)) - 1)) := by
  induction fuel with
  | zero =>
    intro min limit best enough _ low high _ noted
    have same : min = start + values.findIdx fun v => decide (0 ≤ h v) := by omega
    simp only [minusLoop, noted, same, Nat.add_eq_left]
  | succ fuel ih =>
    intro min limit best enough after low high inside noted
    rw [minusLoop]
    by_cases meet : min = limit
    · have same : min = start + values.findIdx fun v => decide (0 ≤ h v) := by omega
      rw [if_neg (not_not.mpr meet)]
      simp only [noted, same, Nat.add_eq_left]
    · obtain ⟨within, found⟩ := held.read (show start ≤ (min + limit) / 2 by omega)
        (by omega)
      have place := rise.notNegative.getElem_iff within
      rw [if_pos meet]
      simp only [found, Option.bind_eq_bind, Option.bind_some]
      by_cases negative : h values[(min + limit) / 2 - start] < 0
      · -- A negative value is before the place.
        have before : ¬ values.findIdx (fun v => decide (0 ≤ h v)) ≤ (min + limit) / 2 - start := by
          intro reached
          have := of_decide_eq_true (place.mpr reached)
          omega
        rw [if_pos negative]
        refine ih (by omega) (by omega) (by omega) high inside ?_
        rw [if_neg (by omega), Nat.add_sub_cancel]
      · have reached := place.mp (decide_eq_true (by omega))
        rw [if_neg negative]
        exact ih (by omega) after low (by omega) (by omega) noted

/-- Searching an array for a negative value finds the last one. -/
theorem findMinusArray_eq :
    findMinusArray h cell start values.length = some (linearMinus h values) := by
  -- The loop keeps the last place between its bounds.
  have bound : values.findIdx (fun v => decide (0 ≤ h v)) ≤ values.length :=
    List.findIdx_le_length
  have loop := minusLoop_eq held rise (Nat.le_refl (start + values.length)) (Nat.le_refl _)
    (by omega) (by omega) (Nat.le_refl _) rfl
  rw [if_pos rfl] at loop
  simp only [findMinusArray, loop, Option.bind_eq_bind, Option.bind_some, linearMinus]
  by_cases none : values.findIdx (fun v => decide (0 ≤ h v)) = 0
  · simp [none]
  · have inside : values.findIdx (fun v => decide (0 ≤ h v)) - 1 < values.length := by omega
    have found := held _ inside
    have same : start + values.findIdx (fun v => decide (0 ≤ h v)) - 1 =
        start + (values.findIdx (fun v => decide (0 ≤ h v)) - 1) := by omega
    have offset : start + (values.findIdx (fun v => decide (0 ≤ h v)) - 1) - start =
        values.findIdx (fun v => decide (0 ≤ h v)) - 1 := by omega
    rw [List.getElem?_eq_getElem inside] at found
    simp only [if_neg none, same, found, Option.bind_some, offset,
      List.getElem?_eq_getElem inside, Option.map_some, Option.pure_def]

end

end Rise

end Tokuft
