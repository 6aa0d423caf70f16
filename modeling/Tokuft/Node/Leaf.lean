import Tokuft.Basic

/-! Leaves, whose basement nodes are separated by pivots, and the child that may hold a key. -/

namespace Tokuft

/-- How many bytes a key takes, which is a number of 32 bits. -/
structure KeySizes (Key : Type) where
  key : Key → Nat
  fits : ∀ k, key k < 2 ^ 32

/-- A leaf entry, as the bytes that it is packed into. -/
abbrev LeafEntry := Bytes

/-- The number of bytes of a leaf entry. -/
def leafentryDisksize (le : LeafEntry) : Nat := le.length

/-- A key with its leaf entry. -/
abbrev Klpair (Key : Type) := Key × LeafEntry

/-- What a key and its leaf entry take, with the offset of the entry. -/
def klpairDisksize {Key : Type} (sizes : KeySizes Key) (klpair : Klpair Key) : Nat :=
  leafentryDisksize klpair.2 + 4 + sizes.key klpair.1

/-- A basement node. -/
structure BasementNode (Key : Type) where
  klpairs : List (Klpair Key)
  maxMsnApplied : Nat
  seqinsert : Nat
  deriving DecidableEq, Repr

/-- A basement node without entries, to which no message has been applied. -/
def BasementNode.createEmpty {Key : Type} : BasementNode Key where
  klpairs := []
  maxMsnApplied := 0
  seqinsert := 0

/-- A leaf that is fully in memory. -/
structure LeafNode (Key : Type) where
  basements : List (BasementNode Key)
  pivotkeys : List Key
  maxMsnAppliedToNodeOnDisk : Nat
  deriving DecidableEq, Repr

/-- The entries of a leaf in order. -/
def LeafNode.klpairs {Key : Type} (leaf : LeafNode Key) : List (Klpair Key) :=
  leaf.basements.flatMap BasementNode.klpairs

/-- An entry of a basement node is one of its leaf. -/
theorem LeafNode.mem_klpairs {Key : Type} {leaf : LeafNode Key} {i : Nat}
    {basement : BasementNode Key} (here : leaf.basements[i]? = some basement)
    {klpair : Klpair Key} (entry : klpair ∈ basement.klpairs) : klpair ∈ leaf.klpairs :=
  List.mem_flatMap.mpr ⟨basement, List.mem_of_getElem? here, entry⟩

variable {Key : Type} [LinearOrder Key]

/-- Search between two pivots for the first one that is not less than a key. -/
def searchPivots (pivotkeys : List Key) (key : Key) : Nat → Nat → Nat → Option Nat
  | 0, lo, _ => some lo
  | fuel + 1, lo, hi =>
    if lo < hi then do
      let mi := (lo + hi) / 2
      let pivot ← pivotkeys[mi]?
      if pivot < key then searchPivots pivotkeys key fuel (mi + 1) hi
      else if key < pivot then searchPivots pivotkeys key fuel lo mi
      else some mi
    else some lo

/-- The child of a node that a key belongs to, where a pivot after the last
child is not looked at. -/
def ftnodeWhichChild (pivotkeys : List Key) (nChildren : Nat) (key : Key) : Option Nat :=
  if nChildren ≤ 1 then some 0
  else do
    let n := nChildren - 1
    let last ← pivotkeys[n - 1]?
    -- The last pivot is looked at first, for keys that come in order.
    if last < key then some n
    else searchPivots pivotkeys key n 0 (n - 1)

/-- A key belongs to a child: it is more than the pivots before it and no more than its own. -/
structure Belongs (pivotkeys : List Key) (nChildren : Nat) (key : Key) (i : Nat) : Prop where
  inside : i < nChildren
  above : ∀ j pivot, j < i → pivotkeys[j]? = some pivot → pivot < key
  below : ∀ pivot, i + 1 < nChildren → pivotkeys[i]? = some pivot → key ≤ pivot

variable {pivotkeys : List Key} {nChildren i : Nat} {key : Key}

/-- Among pivots that increase, a later one is larger. -/
theorem pivots_lt (rise : pivotkeys.Pairwise (· < ·)) {j k : Nat} (before : j < k) {one other : Key}
    (first : pivotkeys[j]? = some one) (second : pivotkeys[k]? = some other) : one < other := by
  obtain ⟨inside, rfl⟩ := List.getElem?_eq_some_iff.mp first
  obtain ⟨within, rfl⟩ := List.getElem?_eq_some_iff.mp second
  exact List.pairwise_iff_getElem.mp rise j k inside within before

section

variable (rise : pivotkeys.Pairwise (· < ·)) (enough : nChildren ≤ pivotkeys.length + 1)
  (belongs : Belongs pivotkeys nChildren key i)
include rise enough belongs

/-- The binary search ends at the child that the key belongs to. -/
theorem searchPivots_eq {fuel : Nat} : ∀ {lo hi : Nat}, hi ≤ lo + fuel →
      lo ≤ i → i ≤ hi → hi + 1 < nChildren → searchPivots pivotkeys key fuel lo hi = some i := by
  induction fuel with
  | zero =>
    intro lo hi short low high _
    exact congrArg some (by omega)
  | succ fuel ih =>
    intro lo hi short low high inside
    rw [searchPivots]
    by_cases open_ : lo < hi
    · obtain ⟨pivot, found⟩ : ∃ pivot, pivotkeys[(lo + hi) / 2]? = some pivot :=
        ⟨_, List.getElem?_eq_getElem (by omega)⟩
      obtain ⟨own, ownFound⟩ : ∃ own, pivotkeys[i]? = some own :=
        ⟨_, List.getElem?_eq_getElem (by omega)⟩
      have upper := belongs.below own (by omega) ownFound
      simp only [if_pos open_, found, bind_runs]
      by_cases less : pivot < key
      -- A pivot that is less than the key is before the child.
      · have before : (lo + hi) / 2 < i := by
          by_contra late
          rcases Nat.lt_or_eq_of_le (Nat.le_of_not_lt late) with later | same
          · exact absurd (pivots_lt rise later ownFound found) (not_lt_of_ge (less.le.trans upper))
          · rw [← same, ownFound] at found
            cases found
            exact absurd less (not_lt_of_ge upper)
        rw [if_pos less]
        exact ih (by omega) (by omega) high inside
      -- Any other pivot is not before the child.
      · have after : i ≤ (lo + hi) / 2 := by
          by_contra early
          exact less (belongs.above _ pivot (Nat.lt_of_not_le early) found)
        rw [if_neg less]
        by_cases greater : key < pivot
        · rw [if_pos greater]
          exact ih (by omega) low after (by omega)
        · rw [if_neg greater]
          refine congrArg some (Nat.le_antisymm (Nat.le_of_not_lt fun later => ?_) after)
          exact greater (upper.trans_lt (pivots_lt rise later ownFound found))
    · rw [if_neg open_]
      exact congrArg some (by omega)

/-- The search for a child finds the one that the key belongs to. -/
theorem ftnodeWhichChild_eq :
    ftnodeWhichChild pivotkeys nChildren key = some i := by
  have inside := belongs.inside
  rw [ftnodeWhichChild]
  by_cases single : nChildren ≤ 1
  · rw [if_pos single]
    exact congrArg some (by omega)
  · obtain ⟨last, found⟩ : ∃ last, pivotkeys[nChildren - 1 - 1]? = some last :=
      ⟨_, List.getElem?_eq_getElem (by omega)⟩
    simp only [if_neg single, found, bind_runs]
    by_cases beyond : last < key
    -- A key beyond the last pivot belongs to the last child.
    · rw [if_pos beyond]
      refine congrArg some (Nat.le_antisymm (Nat.le_of_not_lt fun early => ?_) (by omega))
      obtain ⟨own, ownFound⟩ : ∃ own, pivotkeys[i]? = some own :=
        ⟨_, List.getElem?_eq_getElem (by omega)⟩
      have upper := belongs.below own (by omega) ownFound
      rcases Nat.lt_or_eq_of_le (show i ≤ nChildren - 1 - 1 by omega) with before | same
      · exact absurd (beyond.trans_le upper) (not_lt_of_gt (pivots_lt rise before ownFound found))
      · rw [← same, ownFound] at found
        cases found
        exact absurd beyond (not_lt_of_ge upper)
    · rw [if_neg beyond]
      have early : i ≤ nChildren - 1 - 1 := by
        by_contra late
        exact beyond (belongs.above _ last (by omega) found)
      exact searchPivots_eq rise enough belongs (by omega) (Nat.zero_le _) early (by omega)

end

/-- Some child holds any key. -/
theorem exists_belongs (positive : 0 < nChildren) (enough : nChildren ≤ pivotkeys.length + 1)
    (rise : pivotkeys.Pairwise (· < ·)) (key : Key) : ∃ i, Belongs pivotkeys nChildren key i := by
  -- The child is behind as many of its pivots as are less than the key.
  obtain ⟨count, same⟩ : ∃ count, nChildren = count + 1 := ⟨nChildren - 1, by omega⟩
  subst same
  induction count with
  | zero => exact ⟨0, Nat.zero_lt_one, fun _ _ early => absurd early (Nat.not_lt_zero _),
      fun _ more => absurd more (Nat.lt_irrefl _)⟩
  | succ count ih =>
    obtain ⟨i, belongs⟩ := ih (Nat.succ_pos _) (by omega)
    obtain ⟨last, found⟩ : ∃ last, pivotkeys[count]? = some last :=
      ⟨_, List.getElem?_eq_getElem (by omega)⟩
    have inside := belongs.inside
    by_cases beyond : last < key
    · refine ⟨count + 1, Nat.lt_succ_self _, fun j pivot early here => ?_,
        fun _ more => absurd more (Nat.lt_irrefl _)⟩
      rcases Nat.lt_or_eq_of_le (Nat.le_of_lt_succ early) with before | rfl
      · exact (pivots_lt rise before here found).trans beyond
      · rw [found] at here
        cases here
        exact beyond
    · refine ⟨i, by omega, belongs.above, fun pivot _ here => ?_⟩
      rcases Nat.lt_or_eq_of_le (Nat.le_of_lt_succ inside) with before | rfl
      · exact belongs.below pivot (by omega) here
      · rw [found] at here
        cases here
        exact not_lt.mp beyond

end Tokuft
