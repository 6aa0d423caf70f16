import Tokuft.Node.LeafRebalance

/-! Splitting a leaf in two, and the place at which it is split. -/

namespace Tokuft

/-- Where a leaf is split. -/
inductive SplitMode where
  | evenly
  | leftHeavy
  | rightHeavy
  deriving DecidableEq, Repr

/-- A node in the cachetable that is locked while another one is put there. -/
structure DependentPair where
  dirty : Bool
  /-- A checkpoint waits for the node. -/
  checkpointPending : Bool

/-- Where the right part of a leaf goes. -/
inductive SplitInto (Key : Type) where
  /-- Into a new node of a dictionary, which is put into the cachetable that the leaf is in. -/
  | newNode (basementnodesize : Nat) (pair : DependentPair)
  /-- Into a node that was emptied. -/
  | existing (nodeb : LeafNode Key)

/-- The leaf is cloned for a checkpoint before it is split. -/
def SplitInto.Clones {Key : Type} : SplitInto Key → Prop
  | newNode _ pair => pair.dirty ∧ pair.checkpointPending
  | existing _ => False

instance {Key : Type} : ∀ into : SplitInto Key, Decidable into.Clones
  | .newNode _ _ => inferInstanceAs (Decidable (_ ∧ _))
  | .existing _ => inferInstanceAs (Decidable False)

namespace LeafNode

variable {Key : Type} (sizes : KeySizes Key)

/-- The last of a number of basement nodes. -/
def lastOf (leaf : LeafNode Key) : Nat → Option (BasementNode Key)
  | 0 => none
  | count + 1 => leaf.basements[count]?

/-- What the entries of a leaf take. -/
def ftleafDiskSize (leaf : LeafNode Key) : Nat :=
  (leaf.basements.map fun basement => (basement.klpairs.map (klpairDisksize sizes)).sum).sum

/-- Add up entries until half of the size is reached, and tell at which one. -/
def sizeSoFar (half : Nat) : List (Klpair Key) → Nat → Nat → Option Nat × Nat
  | [], _, size => (none, size)
  | klpair :: rest, j, size =>
    let size := (size + klpairDisksize sizes klpair) % 2 ^ 32
    if half ≤ size then (some j, size) else sizeSoFar half rest (j + 1) size

/-- The basement node and the entry in it at which half of the size is reached. -/
def reachHalf (half : Nat) : List (BasementNode Key) → Nat → Nat → Option (Nat × Nat)
  | [], _, _ => none
  | basement :: rest, i, size =>
    match sizeSoFar sizes half basement.klpairs 0 size with
    | (some j, _) => some (i, j)
    | (none, size) => reachHalf half rest (i + 1) size

/-- How many basement nodes go to the left, and how many entries of the last of these. -/
def ftleafGetSplitLoc (leaf : LeafNode Key) : SplitMode → Option (Nat × Nat)
  | .leftHeavy => do
    let numLeftBns := leaf.basements.length
    let last ← leaf.lastOf numLeftBns
    if last.klpairs.length = 0 then
      let last ← leaf.lastOf (numLeftBns - 1)
      some (numLeftBns - 1, last.klpairs.length)
    else some (numLeftBns, last.klpairs.length)
  | .rightHeavy => do
    let first ← leaf.lastOf 1
    return (1, if first.klpairs.length = 0 then 0 else 1)
  | .evenly => do
    let sumlesizes := leaf.ftleafDiskSize sizes
    let (i, j) ← reachHalf sizes (sumlesizes / 2) leaf.basements 0 0
    let basement ← leaf.lastOf (i + 1)
    if i + 1 = leaf.basements.length ∧ j + 1 = basement.klpairs.length then
      -- It makes no sense to split after the last entry.
      if 1 < j + 1 then some (i + 1, j)
      else if 1 < i + 1 then
        let previous ← leaf.lastOf i
        some (i, previous.klpairs.length)
      else none
    else some (i + 1, j + 1)

/-- Divide pivots at an index, where the other pivots stay what they are if there are none. -/
def splitPivotsAt (pivotkeys other : List Key) (i : Nat) : List Key × List Key :=
  if i < pivotkeys.length then (pivotkeys.take i, pivotkeys.drop i) else (pivotkeys, other)

/-- Put an empty node into the cachetable, and write the leaf for a checkpoint that waits for it. -/
def cachetablePutEmptyNodeWithDepNodes (basementnodesize : Nat) (pair : DependentPair)
    (leaf : LeafNode Key) : Option (LeafNode Key) :=
  -- The clone that is written is made of the leaf after a rebalance.
  if pair.dirty ∧ pair.checkpointPending then leafRebalance sizes basementnodesize leaf
  else some leaf

/-- Split a leaf where its entries tell, into itself and a new leaf or one that was emptied. -/
def splitAtLoc (leaf : LeafNode Key) (nodeb : Option (LeafNode Key)) (mode : SplitMode) :
    Option (LeafNode Key × LeafNode Key × Key) := do
  let maxMsn := leaf.maxMsnAppliedToNodeOnDisk
  let (numLeftBns, numLeftLes) ← leaf.ftleafGetSplitLoc sizes mode
  let last ← leaf.lastOf numLeftBns
  let splitOnBoundary := numLeftLes = 0 ∨ numLeftLes = last.klpairs.length
  let numChildrenInB := leaf.basements.length - numLeftBns + if splitOnBoundary then 0 else 1
  -- For an uneven split, there is at least one basement node.
  invariant (numChildrenInB = 0 → mode = .leftHeavy)
  let numChildrenInB := if numChildrenInB = 0 then 1 else numChildrenInB
  let divided := if splitOnBoundary then [] else
    [{ last with klpairs := last.klpairs.drop numLeftLes, seqinsert := 0 }]
  let moved := divided ++ leaf.basements.drop numLeftBns
  invariant (moved.length ≤ numChildrenInB)
  let last := if splitOnBoundary then last else
    { last with klpairs := last.klpairs.take numLeftLes }
  let splitIdx := numLeftBns - if splitOnBoundary then 0 else 1
  let (pivotkeys, others) := splitPivotsAt leaf.pivotkeys ((nodeb.map pivotkeys).getD []) splitIdx
  let splitk ←
    if splitOnBoundary ∧ numLeftBns < leaf.basements.length then pivotkeys[numLeftBns - 1]?
    else last.klpairs.getLast?.map Prod.fst
  return ({
      basements := leaf.basements.take (numLeftBns - 1) ++ [last]
      pivotkeys
      maxMsnAppliedToNodeOnDisk := maxMsn },
    { basements := moved ++ List.replicate (numChildrenInB - moved.length) .createEmpty
      pivotkeys := others
      maxMsnAppliedToNodeOnDisk := maxMsn },
    splitk)

/-- Split a leaf, where the place of the split is found after a new node was put. -/
def ftleafSplit (leaf : LeafNode Key) (into : SplitInto Key) (mode : SplitMode) :
    Option (LeafNode Key × LeafNode Key × Key) :=
  match into with
  | .newNode basementnodesize pair => do
    let leaf ← leaf.cachetablePutEmptyNodeWithDepNodes sizes basementnodesize pair
    leaf.splitAtLoc sizes none mode
  | .existing nodeb => leaf.splitAtLoc sizes (some nodeb) mode

variable {sizes : KeySizes Key} {leaf : LeafNode Key} {mode : SplitMode}

/-- A leaf that a split of some mode can divide, as the leaves that are split are. -/
def Splittable (sizes : KeySizes Key) (leaf : LeafNode Key) : SplitMode → Prop
  | .leftHeavy => 1 < leaf.basements.length ∨ 1 ≤ leaf.klpairs.length
  | .rightHeavy => 1 < leaf.basements.length ∨ 2 ≤ leaf.klpairs.length
  | .evenly => 2 ≤ leaf.klpairs.length ∧ (leaf.klpairs.map (klpairDisksize sizes)).sum < 2 ^ 32

/-- Adding up entries either stops at one of them or adds up all of them. -/
theorem sizeSoFar_spec (sizes : KeySizes Key) (half : Nat) (klpairs : List (Klpair Key)) : ∀ j size,
    size + (klpairs.map (klpairDisksize sizes)).sum < 2 ^ 32 →
    (∃ k s, sizeSoFar sizes half klpairs j size = (some (j + k), s) ∧ k < klpairs.length) ∨
    (sizeSoFar sizes half klpairs j size =
        (none, size + (klpairs.map (klpairDisksize sizes)).sum) ∧
      (klpairs ≠ [] → size + (klpairs.map (klpairDisksize sizes)).sum < half)) := by
  -- By induction on the entries, with the size as accumulator.
  induction klpairs with
  | nil => exact fun j size _ => .inr ⟨rfl, fun some => absurd rfl some⟩
  | cons klpair rest ih =>
    intro j size small
    rw [List.map_cons, List.sum_cons, ← Nat.add_assoc] at small ⊢
    rw [sizeSoFar, Nat.mod_eq_of_lt (show size + klpairDisksize sizes klpair < 2 ^ 32 by omega)]
    by_cases reached : half ≤ size + klpairDisksize sizes klpair
    · exact .inl ⟨0, _, if_pos reached, Nat.succ_pos _⟩
    · simp only [if_neg reached]
      rcases ih (j + 1) _ small with ⟨k, s, stops, inside⟩ | ⟨ends, less⟩
      · exact .inl ⟨k + 1, s, by rw [stops, Nat.add_right_comm j 1 k, Nat.add_assoc],
          Nat.succ_lt_succ inside⟩
      · refine .inr ⟨ends, fun _ => ?_⟩
        cases rest with
        | nil => simpa using reached
        | cons next rest => exact less (List.cons_ne_nil _ _)

/-- Half of the size is reached at an entry, unless there are none. -/
theorem reachHalf_spec (half : Nat) (basements : List (BasementNode Key)) : ∀ i size,
    size + ((basements.flatMap BasementNode.klpairs).map (klpairDisksize sizes)).sum < 2 ^ 32 →
    half ≤ size + ((basements.flatMap BasementNode.klpairs).map (klpairDisksize sizes)).sum →
    basements.flatMap BasementNode.klpairs ≠ [] →
    ∃ k j basement, reachHalf sizes half basements i size = some (i + k, j) ∧
      basements[k]? = some basement ∧ j < basement.klpairs.length := by
  induction basements with
  | nil => exact fun i size _ _ some => absurd rfl some
  | cons basement rest ih =>
    intro i size small enough some
    rw [List.flatMap_cons, List.map_append, List.sum_append, ← Nat.add_assoc] at small enough
    rw [reachHalf]
    rcases sizeSoFar_spec sizes half basement.klpairs 0 size (by omega) with
      ⟨k, s, stops, inside⟩ | ⟨ends, less⟩
    · rw [stops]
      exact ⟨0, 0 + k, basement, rfl, rfl, by rw [Nat.zero_add]; exact inside⟩
    · rw [ends]
      -- The entries of the first basement node do not reach half of the size, so others do.
      have later : rest.flatMap BasementNode.klpairs ≠ [] := by
        intro nothing
        rw [nothing] at enough
        have some' : basement.klpairs ≠ [] := by
          intro empty
          rw [List.flatMap_cons, empty, nothing] at some
          exact some rfl
        have := less some'
        simp only [List.map_nil, List.sum_nil] at enough
        omega
      obtain ⟨k, j, other, found, here, inside⟩ := ih (i + 1) _ small enough later
      exact ⟨k + 1, j, other, by dsimp only; rw [found, Nat.add_right_comm i 1 k, Nat.add_assoc],
        here, inside⟩

/-- The size of a leaf is that of its entries. -/
theorem ftleafDiskSize_eq (leaf : LeafNode Key) :
    leaf.ftleafDiskSize sizes = (leaf.klpairs.map (klpairDisksize sizes)).sum := by
  rw [ftleafDiskSize, klpairs, List.map_flatMap, List.flatMap_def, List.sum_flatten,
    List.map_map]
  rfl

/-- A place to split is within a basement node, and leaves something on the right in general. -/
structure Located (leaf : LeafNode Key) (mode : SplitMode) (count les : Nat)
    (last : BasementNode Key) : Prop where
  here : leaf.basements[count]? = some last
  within : les ≤ last.klpairs.length
  whole : les = 0 ∨ les = last.klpairs.length → count + 1 < leaf.basements.length ∨
    (mode = .leftHeavy ∧ last.klpairs ≠ [])

/-- A leaf with only one basement node has the entries of that one. -/
theorem klpairs_single {basement : BasementNode Key} (only : leaf.basements.length = 1)
    (here : leaf.basements[0]? = some basement) : leaf.klpairs = basement.klpairs := by
  obtain ⟨one, same⟩ := List.length_eq_one_iff.mp only
  rw [same] at here
  cases here
  rw [klpairs, same, List.flatMap_singleton]

/-- A leaf that can be divided is split at some place. -/
theorem ftleafGetSplitLoc_located (children : leaf.basements ≠ [])
    (splittable : Splittable sizes leaf mode) :
    ∃ count les last, leaf.ftleafGetSplitLoc sizes mode = some (count + 1, les) ∧
      Located leaf mode count les last := by
  obtain ⟨n, length⟩ : ∃ n, leaf.basements.length = n + 1 :=
    ⟨leaf.basements.length - 1, by have := List.length_pos_iff.mpr children; omega⟩
  obtain ⟨first, atFirst⟩ : ∃ first, leaf.basements[0]? = some first :=
    ⟨_, List.getElem?_eq_getElem (by omega)⟩
  cases mode with
  | leftHeavy =>
    obtain ⟨last, here⟩ : ∃ last, leaf.basements[n]? = some last :=
      ⟨_, List.getElem?_eq_getElem (by omega)⟩
    simp only [ftleafGetSplitLoc, length, lastOf, here, bind_runs]
    by_cases empty : last.klpairs.length = 0
    -- The last basement node is empty, so there is one before it.
    · obtain ⟨m, same⟩ : ∃ m, n = m + 1 := by
        refine ⟨n - 1, (Nat.sub_add_cancel (Nat.pos_of_ne_zero fun zero => ?_)).symm⟩
        subst zero
        rcases splittable with more | entries
        · omega
        · rw [klpairs_single length here, empty] at entries
          omega
      subst same
      obtain ⟨previous, before⟩ : ∃ previous, leaf.basements[m]? = some previous :=
        ⟨_, List.getElem?_eq_getElem (by omega)⟩
      refine ⟨m, previous.klpairs.length, previous, ?_, before, Nat.le_refl _,
        fun _ => .inl (by omega)⟩
      rw [if_pos empty, Nat.add_sub_cancel]
      simp only [before, Option.bind_some]
    · exact ⟨n, last.klpairs.length, last, if_neg empty, here, Nat.le_refl _,
        fun _ => .inr ⟨rfl, List.length_pos_iff.mp (Nat.pos_of_ne_zero empty)⟩⟩
  | rightHeavy =>
    refine ⟨0, if first.klpairs.length = 0 then 0 else 1, first, ?_, atFirst, ?_,
      fun boundary => ?_⟩
    · simp only [ftleafGetSplitLoc, lastOf, atFirst, Option.bind_eq_bind, Option.bind_some]
      rfl
    · split <;> omega
    · left
      by_contra single
      have only : leaf.basements.length = 1 := by omega
      rcases splittable with more | entries
      · omega
      · rw [klpairs_single only atFirst] at entries
        rw [if_neg (by omega)] at boundary
        omega
  | evenly =>
    obtain ⟨several, small⟩ := splittable
    have some_ : leaf.klpairs ≠ [] := List.length_pos_iff.mp (by omega)
    obtain ⟨k, j, basement, found, here, inside⟩ := reachHalf_spec
      ((leaf.klpairs.map (klpairDisksize sizes)).sum / 2) leaf.basements 0 0
      (by rw [Nat.zero_add]; exact small) (by rw [Nat.zero_add]; exact Nat.div_le_self _ _) some_
    have bound := (List.getElem?_eq_some_iff.mp here).1
    rw [Nat.zero_add] at found
    simp only [ftleafGetSplitLoc, ftleafDiskSize_eq, found, bind_runs, lastOf, here]
    by_cases final : k + 1 = leaf.basements.length ∧ j + 1 = basement.klpairs.length
    · rw [if_pos final]
      by_cases before : 1 < j + 1
      · exact ⟨k, j, basement, if_pos before, here, by omega, fun boundary => by omega⟩
      · rw [if_neg before]
        by_cases earlier : 1 < k + 1
        · obtain ⟨m, rfl⟩ : ∃ m, k = m + 1 := ⟨k - 1, by omega⟩
          obtain ⟨previous, there⟩ : ∃ previous, leaf.basements[m]? = some previous :=
            ⟨_, List.getElem?_eq_getElem (by omega)⟩
          refine ⟨m, previous.klpairs.length, previous, ?_, there, Nat.le_refl _,
            fun _ => .inl (by omega)⟩
          rw [if_pos earlier]
          simp only [there, Option.bind_some]
        -- The only entry of a leaf cannot be divided, but there are more.
        · obtain rfl : k = 0 := by omega
          rw [klpairs_single final.1.symm here] at several
          omega
    · rw [if_neg final]
      exact ⟨k, j + 1, basement, rfl, here, by omega, fun boundary => .inl (by omega)⟩

end LeafNode

end Tokuft
