import Mathlib.Tactic.Order
import Tokuft.Search.Keysrange
import Tokuft.Util.OmtMarksExact

/-! Which messages of a buffer go to one basement node, as two bounds in a tree of messages. -/

namespace Tokuft

/-- The number of a message, as the 64 bits that it takes. -/
abbrev MSN := Fin (2 ^ 64)

/-- The greatest number that a message can have. -/
def maxMsn : MSN := ⟨2 ^ 64 - 1, by decide⟩

/-- What orders a message in a buffer. -/
structure BufferEntry (Key : Type) where
  key : Key
  msn : MSN
  deriving DecidableEq

/-- A buffer, by the message that is read at an offset. -/
structure MessageBuffer (Key : Type) where
  getBufferEntry : Nat → BufferEntry Key

section

variable {Key : Type} [LinearOrder Key]

/-- How one message compares with another, by the key and then by the number. -/
def keyMsnCmp (a b : BufferEntry Key) : Int :=
  let r := compareKeys a.key b.key
  if r = 0 then if b.msn < a.msn then 1 else if a.msn < b.msn then -1 else 0 else r

/-- How the message at an offset compares with a key and a number. -/
def msgBufferKeyMsnHeaviside (msgBuffer : MessageBuffer Key) (extra : BufferEntry Key)
    (offset : Nat) : Int :=
  keyMsnCmp (msgBuffer.getBufferEntry offset) extra

/-- Find the first message with a key above a bound. -/
def findAbove (messageTree : Omt Nat) (msgBuffer : MessageBuffer Key) (bound : Key) :
    Option (Option (Nat × Nat)) :=
  -- No message with the key of the bound has a number above the greatest one.
  messageTree.find (msgBufferKeyMsnHeaviside msgBuffer { key := bound, msn := maxMsn }) 1

/-- The first index behind the messages that are not above the upper bound. -/
def upperBoundExclusive (messageTree : Omt Nat) (msgBuffer : MessageBuffer Key) :
    Option Key → Option Nat
  | none => some messageTree.size
  | some ubi => do
    match ← findAbove messageTree msgBuffer ubi with
    | none => some messageTree.size
    | some (_, ube) => some ube

/-- Whether a key is above the upper bound, if there is one. -/
def isBeyond (ubi : Option Key) (key : Key) : Bool :=
  ubi.any fun ubi => decide (0 < compareKeys key ubi)

/-- The indexes in a tree of messages between which the messages of a basement node are. -/
def findBoundsWithinMessageTree (messageTree : Omt Nat) (msgBuffer : MessageBuffer Key)
    (bounds : PivotBounds Key) : Option (Nat × Nat) :=
  match bounds.lbe with
  | none => do
    let ube ← upperBoundExclusive messageTree msgBuffer bounds.ubi
    some (0, ube)
  | some lbe => do
    match ← findAbove messageTree msgBuffer lbe with
    | none => some (0, 0)
    | some (foundLb, lbi) =>
      -- What is found above the lower bound may be above the upper bound, too.
      if isBeyond bounds.ubi (msgBuffer.getBufferEntry foundLb).key then some (0, 0)
      else do
        let ube ← upperBoundExclusive messageTree msgBuffer bounds.ubi
        some (lbi, ube)

/-- The keys between two bounds. -/
def PivotBounds.Holds (bounds : PivotBounds Key) (key : Key) : Prop :=
  (∀ lbe ∈ bounds.lbe, lbe < key) ∧ ∀ ubi ∈ bounds.ubi, key ≤ ubi

/-- The messages at some offsets are in order. -/
def SortedByKeyMsn (msgBuffer : MessageBuffer Key) (offsets : List Nat) : Prop :=
  offsets.Pairwise fun a b =>
    keyMsnCmp (msgBuffer.getBufferEntry a) (msgBuffer.getBufferEntry b) ≤ 0

/-- A key is above another when it compares so. -/
theorem compareKeys_pos {a b : Key} : 0 < compareKeys a b ↔ b < a := by
  unfold compareKeys
  split
  · rename_i below
    exact iff_of_false (by decide) (lt_asymm below)
  · split <;> simp [*]

/-- A key is below another when it compares so. -/
theorem compareKeys_neg {a b : Key} : compareKeys a b < 0 ↔ a < b := by
  unfold compareKeys
  split
  · simp [*]
  · split <;> simp [*]

/-- A message is above another by its key, or by its number when the keys are the same. -/
theorem keyMsnCmp_pos {a b : BufferEntry Key} :
    0 < keyMsnCmp a b ↔ b.key < a.key ∨ (a.key = b.key ∧ b.msn < a.msn) := by
  have above := compareKeys_pos (a := a.key) (b := b.key)
  have below := compareKeys_neg (a := a.key) (b := b.key)
  rw [keyMsnCmp]
  rcases lt_trichotomy a.key b.key with less | same | greater
  · -- The keys decide, and they say that it is below.
    have negative := below.mpr less
    simp only [if_neg (show compareKeys a.key b.key ≠ 0 by omega)]
    exact iff_of_false (by omega) (by rintro (more | ⟨same, -⟩) <;> order)
  · have zero : compareKeys a.key b.key = 0 := by
      have notAbove := mt above.mp (by order)
      have notBelow := mt below.mp (by order)
      omega
    rw [if_pos zero]
    simp only [same, lt_irrefl, false_or, true_and]
    split
    · simp [*]
    · split <;> simp [*]
  · have positive := above.mpr greater
    simp only [if_neg (show compareKeys a.key b.key ≠ 0 by omega)]
    exact iff_of_true positive (Or.inl greater)

/-- Comparing the other way around turns the sign. -/
theorem keyMsnCmp_neg {a b : BufferEntry Key} : keyMsnCmp a b < 0 ↔ 0 < keyMsnCmp b a := by
  have flipped : keyMsnCmp b a = -keyMsnCmp a b := by
    rcases lt_trichotomy a.key b.key with less | same | greater
    · simp [keyMsnCmp, compareKeys, less, lt_asymm less]
    · rcases lt_trichotomy a.msn b.msn with less | number | greater
      · simp [keyMsnCmp, compareKeys, same, less, lt_asymm less]
      · simp [keyMsnCmp, compareKeys, same, number]
      · simp [keyMsnCmp, compareKeys, same, greater, lt_asymm greater]
    · simp [keyMsnCmp, compareKeys, greater, lt_asymm greater]
  omega

variable {msgBuffer : MessageBuffer Key} {offsets : List Nat} {bound : Key}

/-- A message is above a bound with the greatest number exactly when its key is above. -/
theorem heaviside_pos {offset : Nat} :
    0 < msgBufferKeyMsnHeaviside msgBuffer { key := bound, msn := maxMsn } offset ↔
      bound < (msgBuffer.getBufferEntry offset).key := by
  rw [msgBufferKeyMsnHeaviside, keyMsnCmp_pos]
  constructor
  · rintro (above | ⟨-, number⟩)
    · exact above
    · -- With the same key, no number is above the greatest one.
      have fits := (msgBuffer.getBufferEntry offset).msn.isLt
      have number : 2 ^ 64 - 1 < (msgBuffer.getBufferEntry offset).msn.val := number
      omega
  · exact Or.inl

/-- In sorted messages the keys do not fall. -/
theorem SortedByKeyMsn.keys (sorted : SortedByKeyMsn msgBuffer offsets) :
    offsets.Pairwise fun a b =>
      (msgBuffer.getBufferEntry a).key ≤ (msgBuffer.getBufferEntry b).key := by
  refine sorted.imp fun {a b} low => ?_
  by_contra above
  exact absurd (keyMsnCmp_pos.mpr (Or.inl (lt_of_not_ge above))) (not_lt.mpr low)

/-- How sorted messages compare with a key and a number does not fall. -/
theorem SortedByKeyMsn.signsRise (sorted : SortedByKeyMsn msgBuffer offsets)
    (extra : BufferEntry Key) :
    SignsRise (msgBufferKeyMsnHeaviside msgBuffer extra) offsets := by
  refine sorted.imp fun {a b} low => ?_
  have notAbove := mt keyMsnCmp_pos.mpr (not_lt.mpr low)
  rw [not_or] at notAbove
  -- What is above the key and number stays above, and what is below was below.
  have rises : 0 < msgBufferKeyMsnHeaviside msgBuffer extra a →
      0 < msgBufferKeyMsnHeaviside msgBuffer extra b := by
    simp only [msgBufferKeyMsnHeaviside, keyMsnCmp_pos]
    intro above
    rcases above with key | ⟨same, number⟩
    · exact Or.inl (by order)
    · rcases lt_or_eq_of_le (le_of_not_gt notAbove.1) with less | equal
      · exact Or.inl (by order)
      · have numbers := not_and.mp notAbove.2 equal
        exact Or.inr ⟨by order, by order⟩
  have falls : msgBufferKeyMsnHeaviside msgBuffer extra b < 0 →
      msgBufferKeyMsnHeaviside msgBuffer extra a < 0 := by
    simp only [msgBufferKeyMsnHeaviside, keyMsnCmp_neg, keyMsnCmp_pos]
    intro below
    rcases below with key | ⟨same, number⟩
    · exact Or.inl (by order)
    · rcases lt_or_eq_of_le (le_of_not_gt notAbove.1) with less | equal
      · exact Or.inl (by order)
      · have numbers := not_and.mp notAbove.2 equal
        exact Or.inr ⟨by order, by order⟩
  rcases lt_trichotomy
    (msgBufferKeyMsnHeaviside msgBuffer extra a) 0 with negative | zero | positive
  · rw [Int.sign_eq_neg_one_of_neg negative]
    have signs := Int.sign_trichotomy (msgBufferKeyMsnHeaviside msgBuffer extra b)
    omega
  · rw [zero, Int.sign_zero]
    exact Int.sign_nonneg_iff.mpr (by omega)
  · rw [Int.sign_eq_one_of_pos positive, Int.sign_eq_one_of_pos (rises positive)]

/-- The index of the first message with a key above a bound. -/
def firstAbove (msgBuffer : MessageBuffer Key) (offsets : List Nat) (bound : Key) : Nat :=
  offsets.findIdx fun offset => decide (bound < (msgBuffer.getBufferEntry offset).key)

variable {messageTree : Omt Nat}

/-- The search above a bound finds the first message above it, if there is one. -/
theorem findAbove_eq (has : messageTree.HasValues offsets)
    (sorted : SortedByKeyMsn msgBuffer offsets) :
    findAbove messageTree msgBuffer bound =
      some (offsets[firstAbove msgBuffer offsets bound]?.map fun offset =>
        (offset, firstAbove msgBuffer offsets bound)) := by
  rw [findAbove, has.find_eq (sorted.signsRise _) (by decide), if_neg (by decide), linearPlus]
  simp only [heaviside_pos]
  rfl

/-- Before the first message above a bound no key is above, and from it on all are. -/
theorem firstAbove_le_iff (sorted : SortedByKeyMsn msgBuffer offsets) {i offset : Nat}
    (here : offsets[i]? = some offset) :
    firstAbove msgBuffer offsets bound ≤ i ↔ bound < (msgBuffer.getBufferEntry offset).key := by
  obtain ⟨inside, rfl⟩ := List.getElem?_eq_some_iff.mp here
  constructor
  · intro behind
    have found : firstAbove msgBuffer offsets bound < offsets.length := by omega
    have above := of_decide_eq_true (List.findIdx_getElem (w := found))
    rcases Nat.lt_or_eq_of_le behind with later | same
    · have rises := List.pairwise_iff_getElem.mp sorted.keys _ i found inside later
      exact lt_of_lt_of_le above rises
    · simp only [← same]
      exact above
  · intro above
    by_contra early
    have fails := List.not_of_lt_findIdx (show i < firstAbove msgBuffer offsets bound by omega)
    exact absurd above (of_decide_eq_false fails)

/-- The upper bound is found where the first message above it is. -/
theorem upperBoundExclusive_eq (has : messageTree.HasValues offsets)
    (sorted : SortedByKeyMsn msgBuffer offsets) (ubi : Option Key) :
    ∃ ube ≤ offsets.length, upperBoundExclusive messageTree msgBuffer ubi = some ube ∧
      ∀ i offset, offsets[i]? = some offset →
        (i < ube ↔ ∀ bound ∈ ubi, (msgBuffer.getBufferEntry offset).key ≤ bound) := by
  have inside {i offset : Nat} (here : offsets[i]? = some offset) : i < offsets.length :=
    (List.getElem?_eq_some_iff.mp here).1
  cases ubi with
  | none =>
    refine ⟨offsets.length, Nat.le_refl _, by rw [upperBoundExclusive, has.size], ?_⟩
    exact fun i offset here => iff_of_true (inside here) nofun
  | some bound =>
    refine ⟨firstAbove msgBuffer offsets bound, List.findIdx_le_length, ?_, ?_⟩
    · rw [upperBoundExclusive, findAbove_eq has sorted, bind_of_some]
      by_cases found : firstAbove msgBuffer offsets bound < offsets.length
      · rw [List.getElem?_eq_getElem found]
        rfl
      · -- Without a message above the bound the search goes up to the end.
        have bounded : firstAbove msgBuffer offsets bound ≤ offsets.length :=
          List.findIdx_le_length
        rw [List.getElem?_eq_none (by omega), Option.map_none]
        show some messageTree.size = some _
        rw [has.size, Nat.le_antisymm bounded (Nat.le_of_not_lt found)]
    · intro i offset here
      rw [← not_le, firstAbove_le_iff sorted here, not_lt]
      exact ⟨fun below other same => Option.mem_some_iff.mp same ▸ below, fun all => all bound rfl⟩

/-- A key is beyond the upper bound when it is above it. -/
theorem isBeyond_iff (ubi : Option Key) (key : Key) :
    isBeyond ubi key = true ↔ ∃ bound, ubi = some bound ∧ bound < key := by
  cases ubi with
  | none => simp [isBeyond]
  | some bound => simp [isBeyond, compareKeys_pos]

/-- Two indexes are the ends of what lies between two bounds, and in order. -/
structure IsRange (msgBuffer : MessageBuffer Key) (offsets : List Nat) (bounds : PivotBounds Key)
    (lbi ube : Nat) : Prop where
  positions : ∀ i, (lbi ≤ i ∧ i < ube) ↔
    ∃ offset, offsets[i]? = some offset ∧ bounds.Holds (msgBuffer.getBufferEntry offset).key
  ordered : lbi ≤ ube
  empty : (∀ offset ∈ offsets, ¬bounds.Holds (msgBuffer.getBufferEntry offset).key) → lbi = ube

/-- Positions in order are a range, since the first of them would hold what is
between the bounds. -/
theorem isRange_of_positions {bounds : PivotBounds Key} {lbi ube : Nat} (ordered : lbi ≤ ube)
    (positions : ∀ i, (lbi ≤ i ∧ i < ube) ↔
      ∃ offset, offsets[i]? = some offset ∧ bounds.Holds (msgBuffer.getBufferEntry offset).key) :
    IsRange msgBuffer offsets bounds lbi ube := by
  refine ⟨positions, ordered, fun none => ?_⟩
  by_contra different
  obtain ⟨offset, here, holds⟩ := (positions lbi).mp ⟨Nat.le_refl _, by omega⟩
  exact none offset (List.mem_of_getElem? here) holds

/-- When no key lies between the bounds, the empty range is their range. -/
theorem isRange_empty {bounds : PivotBounds Key}
    (none : ∀ offset ∈ offsets, ¬bounds.Holds (msgBuffer.getBufferEntry offset).key) :
    IsRange msgBuffer offsets bounds 0 0 := by
  refine isRange_of_positions (Nat.le_refl 0) fun i => iff_of_false (by omega) ?_
  rintro ⟨offset, here, holds⟩
  exact none offset (List.mem_of_getElem? here) holds

/-- The bounds in a sorted tree of messages are the ends of the messages between the pivots. -/
theorem findBoundsWithinMessageTree_exact {messageTree : Omt Nat}
    (has : messageTree.HasValues offsets) (sorted : SortedByKeyMsn msgBuffer offsets)
    (bounds : PivotBounds Key) :
    ∃ lbi ube, findBoundsWithinMessageTree messageTree msgBuffer bounds = some (lbi, ube) ∧
      IsRange msgBuffer offsets bounds lbi ube := by
  obtain ⟨lbe, ubi⟩ := bounds
  obtain ⟨ube, bounded, found, upper⟩ := upperBoundExclusive_eq has sorted ubi
  rw [findBoundsWithinMessageTree]
  cases lbe with
  | none =>
    refine ⟨0, ube, by simp only [found, bind_runs],
      isRange_of_positions (Nat.zero_le _) fun i => ?_⟩
    constructor
    · rintro ⟨-, below⟩
      have here := List.getElem?_eq_getElem (show i < offsets.length by omega)
      exact ⟨_, here, nofun, (upper i _ here).mp below⟩
    · rintro ⟨offset, here, -, holds⟩
      exact ⟨Nat.zero_le i, (upper i offset here).mpr holds⟩
  | some bound =>
    simp only [findAbove_eq has sorted, bind_runs]
    by_cases some : firstAbove msgBuffer offsets bound < offsets.length
    · have first := List.getElem?_eq_getElem some
      rw [first, Option.map_some]
      have above := (firstAbove_le_iff sorted first).mp (Nat.le_refl _)
      simp only
      split
      · -- The first message above the lower bound is above the upper bound, so all are.
        rename_i beyond
        refine ⟨0, 0, rfl, isRange_empty fun offset member holds => ?_⟩
        obtain ⟨top, rfl, greater⟩ := (isBeyond_iff _ _).mp beyond
        obtain ⟨i, here⟩ := List.getElem?_of_mem member
        have behind := (firstAbove_le_iff sorted here).mpr (holds.1 bound rfl)
        have rises : (msgBuffer.getBufferEntry
            offsets[firstAbove msgBuffer offsets bound]).key ≤
            (msgBuffer.getBufferEntry offset).key := by
          obtain ⟨inside, rfl⟩ := List.getElem?_eq_some_iff.mp here
          rcases Nat.lt_or_eq_of_le behind with later | same
          · exact List.pairwise_iff_getElem.mp sorted.keys _ i some inside later
          · simp only [same]
            exact le_refl _
        exact absurd (lt_of_lt_of_le greater rises) (not_lt.mpr (holds.2 top rfl))
      · rename_i within
        have inRange : firstAbove msgBuffer offsets bound < ube := by
          refine (upper _ _ first).mpr fun top isTop => ?_
          by_contra greater
          exact within ((isBeyond_iff _ _).mpr ⟨top, isTop, lt_of_not_ge greater⟩)
        refine ⟨_, ube, by rw [found, Option.bind_some],
          isRange_of_positions (Nat.le_of_lt inRange) fun i => ?_⟩
        constructor
        · rintro ⟨behind, below⟩
          have here := List.getElem?_eq_getElem (show i < offsets.length by omega)
          refine ⟨_, here, fun other same => ?_, (upper i _ here).mp below⟩
          rw [← Option.mem_some_iff.mp same]
          exact (firstAbove_le_iff sorted here).mp behind
        · rintro ⟨offset, here, low, high⟩
          exact ⟨(firstAbove_le_iff sorted here).mpr (low bound rfl),
            (upper i offset here).mpr high⟩
    · -- No message is above the lower bound.
      rw [List.getElem?_eq_none (by omega), Option.map_none]
      refine ⟨0, 0, rfl, isRange_empty fun offset member holds => ?_⟩
      obtain ⟨i, here⟩ := List.getElem?_of_mem member
      have inside := (List.getElem?_eq_some_iff.mp here).1
      have behind := (firstAbove_le_iff sorted here).mpr (holds.1 bound rfl)
      omega

end

/-- A buffer with two messages for the key one, and one message for the key two. -/
def threeMessages : MessageBuffer Nat where
  getBufferEntry offset := if offset = 0 then ⟨1, 5⟩ else if offset = 64 then ⟨1, 6⟩ else ⟨2, 4⟩

/-- An array of the offsets of three messages. -/
def threeOffsets : Omt Nat := ⟨4, .array 0 3 [some 0, some 64, some 128, none]⟩

/-- The messages of the key one are a range of the three. -/
theorem findBoundsWithinMessageTree_one : ∃ lbi ube,
    findBoundsWithinMessageTree threeOffsets threeMessages ⟨some 0, some 1⟩ = some (lbi, ube) ∧
      IsRange threeMessages [0, 64, 128] ⟨some 0, some 1⟩ lbi ube := by
  have has : threeOffsets.HasValues [0, 64, 128] := .array ⟨[], [none], rfl, rfl, rfl, rfl⟩
  have sorted : SortedByKeyMsn threeMessages [0, 64, 128] := by
    unfold SortedByKeyMsn
    decide
  exact findBoundsWithinMessageTree_exact has sorted ⟨some 0, some 1⟩

end Tokuft
