import Tokuft.Node.Leaf

/-! Leaves whose entries increase and are separated by the pivots. -/

namespace Tokuft

namespace LeafNode

variable {Key : Type} [LinearOrder Key]

/-- The basement nodes of a leaf divide increasing entries, and a pivot may follow the last one. -/
structure Divided (leaf : LeafNode Key) : Prop where
  children : leaf.basements ≠ []
  pivotCount : leaf.pivotkeys.length + 1 = leaf.basements.length ∨
    leaf.pivotkeys.length = leaf.basements.length
  keysRise : leaf.klpairs.Pairwise fun one other => one.1 < other.1
  pivotsRise : leaf.pivotkeys.Pairwise (· < ·)
  separated : ∀ (i j : Nat) (basement : BasementNode Key) (pivot : Key),
    leaf.basements[i]? = some basement → leaf.pivotkeys[j]? = some pivot →
    ∀ klpair ∈ basement.klpairs, (i ≤ j → klpair.1 ≤ pivot) ∧ (j < i → pivot < klpair.1)

/-- Every entry of a leaf is found in the basement node that holds it. -/
def Routes (leaf : LeafNode Key) : Prop :=
  ∀ (i : Nat) (basement : BasementNode Key), leaf.basements[i]? = some basement →
    ∀ klpair ∈ basement.klpairs,
      ftnodeWhichChild leaf.pivotkeys leaf.basements.length klpair.1 = some i

variable {leaf : LeafNode Key}

/-- There are pivots for all basement nodes but the last one. -/
theorem Divided.enough (divided : leaf.Divided) :
    leaf.basements.length ≤ leaf.pivotkeys.length + 1 := by
  have counts := divided.pivotCount
  omega

/-- The entries of a divided leaf are found. -/
theorem Divided.routes (divided : leaf.Divided) : leaf.Routes := by
  intro i basement here klpair member
  refine ftnodeWhichChild_eq divided.pivotsRise divided.enough ⟨?_, ?_, ?_⟩
  · exact (List.getElem?_eq_some_iff.mp here).1
  · exact fun j pivot early found => (divided.separated i j basement pivot here found klpair
      member).2 early
  · exact fun pivot _ found => (divided.separated i i basement pivot here found klpair member).1
      (Nat.le_refl i)

/-- Basement nodes hold entries of those of a leaf, from one of these on. -/
def TakenFrom (leaf : LeafNode Key) (first : Nat) (basements : List (BasementNode Key)) : Prop :=
  ∀ (i : Nat) (basement : BasementNode Key), basements[i]? = some basement →
    ∃ old, leaf.basements[first + i]? = some old ∧
      ∀ klpair ∈ basement.klpairs, klpair ∈ old.klpairs ∧
        basement.maxMsnApplied = old.maxMsnApplied

/-- Basement nodes and pivots that are taken from a divided leaf at one place are divided. -/
theorem Divided.taken (divided : leaf.Divided) {part : LeafNode Key} (first : Nat)
    (children : part.basements ≠ [])
    (pivotCount : part.pivotkeys.length + 1 = part.basements.length ∨
      part.pivotkeys.length = part.basements.length)
    (entries : part.klpairs.Sublist leaf.klpairs)
    (basements : TakenFrom leaf first part.basements)
    (pivots : ∃ count, part.pivotkeys = (leaf.pivotkeys.take count).drop first) :
    part.Divided := by
  -- A part of what rises also rises.
  obtain ⟨count, same⟩ := pivots
  refine ⟨children, pivotCount, divided.keysRise.sublist entries, ?_, ?_⟩
  · rw [same]
    exact divided.pivotsRise.sublist ((List.drop_sublist _ _).trans (List.take_sublist _ _))
  · intro i j basement pivot here found klpair member
    obtain ⟨old, oldHere, all⟩ := basements i basement here
    have oldFound : leaf.pivotkeys[first + j]? = some pivot := by
      rw [same, List.getElem?_drop] at found
      rw [← found, List.getElem?_take_of_lt]
      have inside := (List.getElem?_eq_some_iff.mp found).1
      rw [List.length_take] at inside
      omega
    have sides := divided.separated _ _ old pivot oldHere oldFound klpair (all klpair member).1
    exact ⟨fun le => sides.1 (by omega), fun lt => sides.2 (by omega)⟩

/-- The last of increasing entries is the largest, and what follows is larger. -/
theorem around_last (before after : List (Klpair Key)) {last : Klpair Key}
    (rise : (before ++ after).Pairwise fun one other => one.1 < other.1)
    (final : before.getLast? = some last) :
    (∀ klpair ∈ before, klpair.1 ≤ last.1) ∧ ∀ klpair ∈ after, last.1 < klpair.1 := by
  obtain ⟨early, rfl⟩ := List.getLast?_eq_some_iff.mp final
  rw [List.pairwise_append, List.pairwise_append] at rise
  obtain ⟨⟨_, _, less⟩, _, more⟩ := rise
  refine ⟨fun klpair member => ?_, fun klpair member => more last (by simp) klpair member⟩
  rcases List.mem_append.mp member with old | same
  · exact le_of_lt (less klpair old last List.mem_cons_self)
  · exact le_of_eq (congrArg Prod.fst (List.mem_singleton.mp same))

end LeafNode

end Tokuft
