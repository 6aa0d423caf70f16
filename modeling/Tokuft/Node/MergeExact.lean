import Tokuft.Node.LeafSplitExact
import Tokuft.Node.Merge

/-! A merge of two nodes keeps what is in them, and finds it where it is. -/

namespace Tokuft

namespace LeafNode

variable {Key : Type} [LinearOrder Key] {a b : LeafNode Key} {k : Key}

/-- Two leaves with a key between them, which a pivot behind the last basement
node may be behind. -/
structure Siblings (k : Key) (a b : LeafNode Key) : Prop where
  dividedA : a.Divided
  dividedB : b.Divided
  lowKeys : ∀ klpair ∈ a.klpairs, klpair.1 ≤ k
  lowPivots : ∀ j pivot, j + 1 < a.basements.length → a.pivotkeys[j]? = some pivot → pivot < k
  highKeys : ∀ klpair ∈ b.klpairs, k < klpair.1
  highPivots : ∀ pivot ∈ b.pivotkeys, k < pivot

/-- A leaf that ends with a pivot can be followed by a leaf with larger keys. -/
theorem Divided.append (dividedA : a.Divided) (dividedB : b.Divided)
    (full : a.pivotkeys.length = a.basements.length)
    (lowKeys : ∀ klpair ∈ a.klpairs, klpair.1 ≤ k) (lowPivots : ∀ pivot ∈ a.pivotkeys, pivot ≤ k)
    (highKeys : ∀ klpair ∈ b.klpairs, k < klpair.1)
    (highPivots : ∀ pivot ∈ b.pivotkeys, k < pivot) (maxMsn : Nat) :
    ({ basements := a.basements ++ b.basements, pivotkeys := a.pivotkeys ++ b.pivotkeys,
       maxMsnAppliedToNodeOnDisk := maxMsn } : LeafNode Key).Divided where
  children := fun none => dividedA.children (List.append_eq_nil_iff.mp none).1
  pivotCount := by
    have counts := dividedB.pivotCount
    simp only [List.length_append]
    omega
  keysRise := by
    rw [klpairs, List.flatMap_append, List.pairwise_append]
    exact ⟨dividedA.keysRise, dividedB.keysRise, fun one low other high =>
      lt_of_le_of_lt (lowKeys one low) (highKeys other high)⟩
  pivotsRise := by
    rw [List.pairwise_append]
    exact ⟨dividedA.pivotsRise, dividedB.pivotsRise, fun one low other high =>
      lt_of_le_of_lt (lowPivots one low) (highPivots other high)⟩
  separated := by
    intro i j basement pivot here found klpair entry
    -- The basement node and the pivot are each of the one leaf or of the other.
    rcases Nat.lt_or_ge i a.basements.length with early | late <;>
      rcases Nat.lt_or_ge j a.pivotkeys.length with low | high
    · rw [List.getElem?_append_left early] at here
      rw [List.getElem?_append_left low] at found
      exact dividedA.separated i j basement pivot here found klpair entry
    · rw [List.getElem?_append_left early] at here
      rw [List.getElem?_append_right high] at found
      have less := lt_of_le_of_lt (lowKeys klpair (mem_klpairs here entry))
        (highPivots pivot (List.mem_of_getElem? found))
      exact ⟨fun _ => le_of_lt less, fun before => by omega⟩
    · rw [List.getElem?_append_right late] at here
      rw [List.getElem?_append_left low] at found
      have more := lt_of_le_of_lt (lowPivots pivot (List.mem_of_getElem? found))
        (highKeys klpair (mem_klpairs here entry))
      exact ⟨fun before => by omega, fun _ => more⟩
    · rw [List.getElem?_append_right late] at here
      rw [List.getElem?_append_right high, full] at found
      have sides := dividedB.separated _ _ basement pivot here found klpair entry
      exact ⟨fun le => sides.1 (by omega), fun lt => sides.2 (by omega)⟩

/-- Replacing the pivot behind the last basement node, or adding it, leaves it as the last one. -/
theorem replacePivotAt_eq (divided : a.Divided) (key : Key) :
    replacePivotAt a.pivotkeys key (a.basements.length - 1) =
      some (a.pivotkeys.take (a.basements.length - 1) ++ [key]) := by
  have positive := List.length_pos_iff.mpr divided.children
  rw [replacePivotAt]
  rcases divided.pivotCount with fewer | same
  · have final : a.basements.length - 1 = a.pivotkeys.length := by omega
    rw [if_neg (by omega), final, invariant_of rfl, List.take_length,
      List.insertIdx_length_self]
    rfl
  · rw [if_pos (by omega), List.set_eq_take_append_cons_drop, if_pos (by omega),
      List.drop_of_length_le (by omega)]

/-- The pivots before the last basement node, from a leaf that may have another one. -/
theorem eraseSurplus_eq (divided : a.Divided) :
    (if a.basements.length - 1 < a.pivotkeys.length then
        a.pivotkeys.eraseIdx (a.basements.length - 1) else a.pivotkeys) =
      a.pivotkeys.take (a.basements.length - 1) := by
  have positive := List.length_pos_iff.mpr divided.children
  rcases divided.pivotCount with fewer | same
  · rw [if_neg (by omega), List.take_of_length_le (by omega)]
  · rw [if_pos (by omega), List.eraseIdx_eq_take_drop_succ, List.drop_of_length_le (by omega),
      List.append_nil]

/-- The pivots of a leaf but the one behind its last basement node are less than a key. -/
theorem Siblings.takenPivots (siblings : Siblings k a b) :
    ∀ pivot ∈ a.pivotkeys.take (a.basements.length - 1), pivot < k := by
  intro pivot member
  obtain ⟨j, found⟩ := List.getElem?_of_mem member
  have bound := (List.getElem?_eq_some_iff.mp found).1
  rw [List.length_take] at bound
  rw [List.getElem?_take_of_lt (by omega)] at found
  exact siblings.lowPivots j pivot (by omega) found

/-- A leaf whose last basement node has entries is divided with its last key as a pivot. -/
theorem Divided.capped (divided : a.Divided) {last : BasementNode Key} {final : Klpair Key}
    (here : a.basements.getLast? = some last) (ends : last.klpairs.getLast? = some final) :
    ({ a with pivotkeys := a.pivotkeys.take (a.basements.length - 1) ++ [final.1] } :
      LeafNode Key).Divided := by
  have positive := List.length_pos_iff.mpr divided.children
  have counts := divided.pivotCount
  have at_ : a.basements[a.basements.length - 1]? = some last := by
    rw [← List.getLast?_eq_getElem?, here]
  have entry : final ∈ last.klpairs := List.mem_of_getLast? ends
  have allEnds : a.klpairs.getLast? = some final := by
    obtain ⟨early, same⟩ := List.getLast?_eq_some_iff.mp here
    rw [klpairs, same, List.flatMap_append, List.getLast?_append, List.flatMap_singleton, ends,
      Option.some_or]
  have largest := (around_last _ [] (by rw [List.append_nil]; exact divided.keysRise)
    allEnds).1
  -- The pivots before the last basement node are less than its last key.
  have below : ∀ j pivot, (a.pivotkeys.take (a.basements.length - 1))[j]? = some pivot →
      a.pivotkeys[j]? = some pivot ∧ j < a.basements.length - 1 := by
    intro j pivot found
    have bound := (List.getElem?_eq_some_iff.mp found).1
    rw [List.length_take] at bound
    rw [List.getElem?_take_of_lt (by omega)] at found
    exact ⟨found, by omega⟩
  have length : (a.pivotkeys.take (a.basements.length - 1)).length = a.basements.length - 1 := by
    rw [List.length_take]
    omega
  refine ⟨divided.children, .inr ?_, divided.keysRise, ?_, ?_⟩
  · rw [List.length_append, length, List.length_singleton]
    exact Nat.sub_add_cancel positive
  · rw [List.pairwise_append]
    refine ⟨divided.pivotsRise.sublist (List.take_sublist _ _), List.pairwise_singleton _ _,
      fun pivot member other only => ?_⟩
    obtain ⟨j, found⟩ := List.getElem?_of_mem member
    obtain ⟨old, before⟩ := below j pivot found
    rw [List.mem_singleton.mp only]
    exact (divided.separated _ j last pivot at_ old final entry).2 before
  · intro i j basement pivot there found klpair inBasement
    have bound : i < a.basements.length := (List.getElem?_eq_some_iff.mp there).1
    rcases Nat.lt_or_ge j (a.basements.length - 1) with low | high
    · rw [List.getElem?_append_left (by omega)] at found
      exact divided.separated i j basement pivot there (below j pivot found).1 klpair inBasement
    · rw [List.getElem?_append_right (by omega)] at found
      have inside := (List.getElem?_eq_some_iff.mp found).1
      rw [List.length_singleton] at inside
      obtain rfl : j = a.basements.length - 1 := by omega
      rw [length, Nat.sub_self] at found
      cases found
      exact ⟨fun _ => largest klpair (mem_klpairs there inBasement), fun before => by omega⟩

/-- A merge puts the entries of two leaves one after the other into a divided leaf. -/
theorem mergeLeafNodes_eq (siblings : Siblings k a b) :
    ∃ merged, mergeLeafNodes a b =
        some (merged, { b with basements := [], pivotkeys := [] }) ∧
      merged.Divided ∧ merged.klpairs = a.klpairs ++ b.klpairs := by
  have positive := List.length_pos_iff.mpr siblings.dividedA.children
  have positiveB := List.length_pos_iff.mpr siblings.dividedB.children
  obtain ⟨last, here⟩ : ∃ last, a.basements.getLast? = some last :=
    ⟨_, List.getLast?_eq_some_getLast siblings.dividedA.children⟩
  obtain ⟨early, same⟩ := List.getLast?_eq_some_iff.mp here
  rw [mergeLeafNodes]
  simp only [invariant_of positive, invariant_of positiveB, here, bind_runs]
  by_cases some_ : 0 < last.klpairs.length
  -- The last key of the first leaf separates it from the second.
  · obtain ⟨final, ends⟩ : ∃ final, last.klpairs.getLast? = some final :=
      ⟨_, List.getLast?_eq_some_getLast (List.length_pos_iff.mp some_)⟩
    have capped := siblings.dividedA.capped here ends
    simp only [if_pos some_, ends, Option.bind_some, replacePivotAt_eq siblings.dividedA]
    refine ⟨_, rfl, capped.append siblings.dividedB ?full siblings.lowKeys ?low
      siblings.highKeys siblings.highPivots _, ?contents⟩
    case full =>
      have counts := siblings.dividedA.pivotCount
      rw [List.length_append, List.length_take, List.length_singleton]
      show _ = a.basements.length
      omega
    case low =>
      intro pivot member
      rcases List.mem_append.mp member with old | new
      · exact le_of_lt (siblings.takenPivots pivot old)
      · rw [List.mem_singleton.mp new]
        refine siblings.lowKeys final (List.mem_flatMap.mpr ⟨last, ?_, List.mem_of_getLast? ends⟩)
        exact List.mem_of_getLast? here
    case contents =>
      rw [klpairs, List.flatMap_append]
      rfl
  -- Without a key to separate it, the empty last basement node is left out.
  · have empty : last.klpairs = [] := List.length_eq_zero_iff.mp (by omega)
    simp only [if_neg some_, eraseSurplus_eq siblings.dividedA]
    have shorter : a.basements.dropLast = early := by rw [same, List.dropLast_concat]
    have count : a.basements.length - 1 = early.length := by
      rw [same, List.length_append, List.length_singleton, Nat.add_sub_cancel]
    have full : (a.pivotkeys.take early.length).length = early.length := by
      have counts := siblings.dividedA.enough
      rw [List.length_take]
      omega
    have contents : early.flatMap BasementNode.klpairs = a.klpairs := by
      rw [klpairs, same, List.flatMap_append, List.flatMap_singleton, empty, List.append_nil]
    refine ⟨_, rfl, ?divided, ?contents⟩
    case contents =>
      rw [klpairs, List.flatMap_append, shorter, contents]
      rfl
    case divided =>
      rw [shorter, count]
      rcases List.eq_nil_or_concat early with rfl | ⟨_, _, some'⟩
      · rw [List.length_nil, List.take_zero]
        exact ⟨siblings.dividedB.children, siblings.dividedB.pivotCount,
          siblings.dividedB.keysRise, siblings.dividedB.pivotsRise,
          siblings.dividedB.separated⟩
      · have part : ({ a with basements := early, pivotkeys := a.pivotkeys.take early.length } :
            LeafNode Key).Divided := by
          refine siblings.dividedA.taken 0 ?_ (.inr ?_) ?_ ?_ ⟨early.length, rfl⟩
          · simp [some']
          · exact full
          · exact contents ▸ List.Sublist.refl _
          · intro i basement found
            refine ⟨basement, ?_, taken_same rfl⟩
            rw [Nat.zero_add, same, List.getElem?_append_left
              (List.getElem?_eq_some_iff.mp found).1]
            exact found
        refine part.append siblings.dividedB full ?_ ?_ siblings.highKeys siblings.highPivots _
        · intro klpair member
          exact siblings.lowKeys klpair (contents ▸ member)
        · intro pivot member
          exact le_of_lt (siblings.takenPivots pivot (count ▸ member))

/-- Balancing divides the entries of two leaves by a new key. -/
theorem balanceLeafNodes_eq {sizes : KeySizes Key} (siblings : Siblings k a b)
    (several : 2 ≤ (a.klpairs ++ b.klpairs).length)
    (small : ((a.klpairs ++ b.klpairs).map (klpairDisksize sizes)).sum < 2 ^ 32) :
    ∃ left right splitk, balanceLeafNodes sizes a b = some (left, right, splitk) ∧
      left.klpairs ++ right.klpairs = a.klpairs ++ b.klpairs ∧
      (∀ klpair ∈ left.klpairs, klpair.1 ≤ splitk) ∧
      (∀ klpair ∈ right.klpairs, splitk < klpair.1) ∧ left.Divided ∧ right.Divided := by
  -- The two leaves are merged and split again in the middle.
  obtain ⟨merged, merges, divided, contents⟩ := mergeLeafNodes_eq siblings
  have splittable : Splittable sizes merged .evenly := by
    rw [Splittable, contents]
    exact ⟨several, small⟩
  obtain ⟨left, right, splitk, split, two⟩ := splitAtLoc_inTwo divided
    (some { b with basements := [], pivotkeys := [] }) (fun _ same => by cases same; rfl)
    splittable
  refine ⟨left, right, splitk, ?_, two.contents.trans contents, two.left, two.right, two.dividedA,
    two.dividedB⟩
  rw [balanceLeafNodes, merges]
  exact split

end LeafNode

variable {Key Child : Type} [LinearOrder Key]

/-- A merge keeps the entries of two leaves, in one leaf or in two with a key between them. -/
inductive LeavesKept (a b : LeafNode Key) : Reaction (Ftnode Key Child) Key → Prop
  | merged {node : LeafNode Key} {rest : Ftnode Key Child}
      (contents : node.klpairs = a.klpairs ++ b.klpairs) (divided : node.Divided)
      (routes : node.Routes) : LeavesKept a b ⟨.leaf node, rest, true, false, none⟩
  | separate {left right : LeafNode Key} {splitk : Key} {didRebalance : Bool}
      (contents : left.klpairs ++ right.klpairs = a.klpairs ++ b.klpairs)
      (low : ∀ klpair ∈ left.klpairs, klpair.1 ≤ splitk)
      (high : ∀ klpair ∈ right.klpairs, splitk < klpair.1)
      (dividedLeft : left.Divided) (dividedRight : right.Divided)
      (routesLeft : left.Routes) (routesRight : right.Routes) :
      LeavesKept a b ⟨.leaf left, .leaf right, false, didRebalance, some splitk⟩

/-- A merge keeps the children of two nodes in one, and what each of them is for. -/
inductive NonleavesKept (k : Key) (a b : NonleafNode Key Child) :
    Reaction (Ftnode Key Child) Key → Prop
  | merged {height : Nat} {node : NonleafNode Key Child} {rest : Ftnode Key Child}
      (contents : node.children = a.children ++ b.children)
      (pivotCount : node.pivotkeys.length + 1 = node.children.length)
      (pivotsRise : node.pivotkeys.Pairwise (· < ·))
      (routes : ∀ key, ftnodeWhichChild node.pivotkeys node.children.length key =
        if key ≤ k then ftnodeWhichChild a.pivotkeys a.children.length key
        else (ftnodeWhichChild b.pivotkeys b.children.length key).map (a.children.length + ·)) :
      NonleavesKept k a b ⟨.nonleaf height node, rest, true, false, none⟩

/-- Two nodes that are not leaves, with a key between them. -/
structure NonleafNode.Siblings (k : Key) (a b : NonleafNode Key Child) : Prop where
  pivotCountA : a.pivotkeys.length + 1 = a.children.length
  pivotCountB : b.pivotkeys.length + 1 = b.children.length
  pivotsRiseA : a.pivotkeys.Pairwise (· < ·)
  pivotsRiseB : b.pivotkeys.Pairwise (· < ·)
  lowPivots : ∀ pivot ∈ a.pivotkeys, pivot < k
  highPivots : ∀ pivot ∈ b.pivotkeys, k < pivot

/-- Two nodes of one height with a key between them. -/
inductive Siblings (k : Key) : Ftnode Key Child → Ftnode Key Child → Prop
  | leaves {a b : LeafNode Key} (siblings : LeafNode.Siblings k a b) :
      Siblings k (.leaf a) (.leaf b)
  | nonleaves {height : Nat} {a b : NonleafNode Key Child} (siblings : a.Siblings k b) :
      Siblings k (.nonleaf height a) (.nonleaf height b)

/-- What is in two nodes is kept. -/
def Kept (k : Key) : Ftnode Key Child → Ftnode Key Child → Reaction (Ftnode Key Child) Key → Prop
  | .leaf a, .leaf b => LeavesKept a b
  | .nonleaf _ a, .nonleaf _ b => NonleavesKept k a b
  | _, _ => fun _ => False

/-- Two leaves that are balanced take less than 2³² bytes. -/
def BalancedSmall (sizes : KeySizes Key) (nodesize : Nat) :
    Ftnode Key Child → Ftnode Key Child → Prop
  | .leaf a, .leaf b => LeafNode.leafReaction sizes nodesize a b = .rebalance →
    ((a.klpairs ++ b.klpairs).map (klpairDisksize sizes)).sum < 2 ^ 32
  | _, _ => True

section Nonleaf

variable {a b : NonleafNode Key Child} {k : Key}

/-- A merge puts the children and pivots of two nodes one after the other, around their key. -/
theorem maybeMergePinnedNonleafNodes_eq (siblings : a.Siblings k b) :
    maybeMergePinnedNonleafNodes k a b = some {
      a := { a with
        children := a.children ++ b.children
        pivotkeys := a.pivotkeys ++ k :: b.pivotkeys }
      b := { b with children := [] }
      didMerge := true
      didRebalance := false
      splitk := none } := by
  have counts := siblings.pivotCountA
  have final : a.children.length - 1 = a.pivotkeys.length := by omega
  simp only [maybeMergePinnedNonleafNodes, invariant_of (show 0 < a.children.length by omega),
    invariant_of (Nat.le_of_eq final), Option.bind_eq_bind, Option.bind_some]
  rw [final, List.insertIdx_length_self, List.append_assoc, List.singleton_append]
  rfl

/-- The pivots of both nodes increase together with the key between them. -/
theorem pivotsRise_around (siblings : a.Siblings k b) :
    (a.pivotkeys ++ k :: b.pivotkeys).Pairwise (· < ·) := by
  rw [List.pairwise_append, List.pairwise_cons]
  refine ⟨siblings.pivotsRiseA, ⟨siblings.highPivots, siblings.pivotsRiseB⟩,
    fun low inA high inB => ?_⟩
  rcases List.mem_cons.mp inB with rfl | later
  · exact siblings.lowPivots low inA
  · exact (siblings.lowPivots low inA).trans (siblings.highPivots high later)

/-- Every key goes to the child it went to before. -/
theorem routes_around (siblings : a.Siblings k b) (key : Key) :
    ftnodeWhichChild (a.pivotkeys ++ k :: b.pivotkeys) (a.children ++ b.children).length key =
      if key ≤ k then ftnodeWhichChild a.pivotkeys a.children.length key
      else (ftnodeWhichChild b.pivotkeys b.children.length key).map (a.children.length + ·) := by
  have countA := siblings.pivotCountA
  have countB := siblings.pivotCountB
  have rise := pivotsRise_around siblings
  have enough : (a.children ++ b.children).length ≤
      (a.pivotkeys ++ k :: b.pivotkeys).length + 1 := by
    simp only [List.length_append, List.length_cons]
    omega
  by_cases low : key ≤ k
  · rw [if_pos low]
    obtain ⟨i, belongs⟩ := exists_belongs (show 0 < a.children.length by omega) (by omega)
      siblings.pivotsRiseA key
    rw [ftnodeWhichChild_eq siblings.pivotsRiseA (by omega) belongs]
    have inside := belongs.inside
    refine ftnodeWhichChild_eq rise enough ⟨?_, fun j pivot early found => ?_,
      fun pivot _ found => ?_⟩
    · rw [List.length_append]
      omega
    · rw [List.getElem?_append_left (by omega)] at found
      exact belongs.above j pivot early found
    · rcases Nat.lt_or_ge i a.pivotkeys.length with early | late
      · rw [List.getElem?_append_left early] at found
        exact belongs.below pivot (by omega) found
      -- The last child of the first node is in front of the key between the nodes.
      · obtain rfl : i = a.pivotkeys.length := by omega
        rw [List.getElem?_append_right late, Nat.sub_self, List.getElem?_cons_zero] at found
        cases found
        exact low
  · rw [if_neg low]
    have high := not_le.mp low
    obtain ⟨i, belongs⟩ := exists_belongs (show 0 < b.children.length by omega) (by omega)
      siblings.pivotsRiseB key
    rw [ftnodeWhichChild_eq siblings.pivotsRiseB (by omega) belongs, Option.map_some]
    have inside := belongs.inside
    refine ftnodeWhichChild_eq rise enough ⟨?_, fun j pivot early found => ?_,
      fun pivot more found => ?_⟩
    · rw [List.length_append]
      omega
    · rcases Nat.lt_trichotomy j a.pivotkeys.length with inA | rfl | inB
      · rw [List.getElem?_append_left inA] at found
        exact (siblings.lowPivots pivot (List.mem_of_getElem? found)).trans high
      · rw [List.getElem?_append_right (Nat.le_refl _), Nat.sub_self,
          List.getElem?_cons_zero] at found
        cases found
        exact high
      · rw [List.getElem?_append_right (Nat.le_of_lt inB),
          show j - a.pivotkeys.length = j - a.pivotkeys.length - 1 + 1 by omega,
          List.getElem?_cons_succ] at found
        exact belongs.above _ pivot (by omega) found
    · rw [List.length_append] at more
      rw [List.getElem?_append_right (by omega),
        show a.children.length + i - a.pivotkeys.length = i + 1 by omega,
        List.getElem?_cons_succ] at found
      exact belongs.below pivot (by omega) found

end Nonleaf

/-- The larger of two message numbers. -/
theorem msnMax_eq (msnA msnB : Nat) : (if msnB < msnA then msnA else msnB) = max msnA msnB := by
  split <;> omega

/-- A leaf stays divided with another message number. -/
theorem LeafNode.Divided.withMsn {leaf : LeafNode Key} (divided : leaf.Divided) (maxMsn : Nat) :
    { leaf with maxMsnAppliedToNodeOnDisk := maxMsn }.Divided :=
  ⟨divided.children, divided.pivotCount, divided.keysRise, divided.pivotsRise, divided.separated⟩

/-- A merge of two nodes with a key between them keeps their entries or children in one node, or
their entries in two leaves with a key between them, finds each where it is, and notes the larger
message number in nodes that were changed. -/
theorem maybeMergePinnedNodes_exact {sizes : KeySizes Key} {nodesize : Nat} {k : Key}
    {a b : Ftnode Key Child} (siblings : Siblings k a b)
    (small : BalancedSmall sizes nodesize a b) :
    ∃ reaction, maybeMergePinnedNodes sizes k nodesize a b = some reaction ∧
      Kept k a b reaction ∧
      if reaction.didMerge || reaction.didRebalance then
        reaction.a.maxMsn = max a.maxMsn b.maxMsn ∧ reaction.b.maxMsn = max a.maxMsn b.maxMsn
      else reaction.a = a ∧ reaction.b = b ∧ reaction.splitk = some k := by
  cases siblings with
  | @leaves a b siblings =>
    simp only [maybeMergePinnedNodes, LeafNode.maybeMergePinnedLeafNodes]
    cases reacts : LeafNode.leafReaction sizes nodesize a b with
    | nothing =>
      refine ⟨_, rfl, ?_, rfl, rfl, rfl⟩
      exact .separate rfl siblings.lowKeys siblings.highKeys siblings.dividedA siblings.dividedB
        siblings.dividedA.routes siblings.dividedB.routes
    | rebalance =>
      -- Leaves are balanced only when they have at least two entries.
      have several : 2 ≤ (a.klpairs ++ b.klpairs).length := by
        rw [LeafNode.leafReaction] at reacts
        by_cases large : 1 < (a.klpairs.length + b.klpairs.length) % 2 ^ 32
        · have := Nat.mod_le (a.klpairs.length + b.klpairs.length) (2 ^ 32)
          rw [List.length_append]
          omega
        · rw [if_neg fun both => large both.1] at reacts
          cases reacts
      obtain ⟨left, right, splitk, balanced, contents, low, high, dividedLeft, dividedRight⟩ :=
        LeafNode.balanceLeafNodes_eq siblings several (small reacts)
      simp only [balanced, bind_runs]
      refine ⟨_, rfl, ?_, msnMax_eq _ _, msnMax_eq _ _⟩
      exact .separate contents low high (dividedLeft.withMsn _) (dividedRight.withMsn _)
        (dividedLeft.withMsn _).routes (dividedRight.withMsn _).routes
    | merge =>
      obtain ⟨merged, merges, divided, contents⟩ := LeafNode.mergeLeafNodes_eq siblings
      simp only [merges, bind_runs]
      refine ⟨_, rfl, ?_, msnMax_eq _ _, msnMax_eq _ _⟩
      exact .merged contents (divided.withMsn _) (divided.withMsn _).routes
  | @nonleaves height a b siblings =>
    simp only [maybeMergePinnedNodes, invariant_of, bind_runs,
      maybeMergePinnedNonleafNodes_eq siblings]
    refine ⟨_, rfl, ?_, msnMax_eq _ _, msnMax_eq _ _⟩
    refine .merged rfl ?_ (pivotsRise_around siblings) (routes_around siblings)
    have countA := siblings.pivotCountA
    have countB := siblings.pivotCountB
    simp only [List.length_append, List.length_cons]
    omega

/-- A leaf with one entry. -/
def oneRow (key maxMsn : Nat) : Ftnode Nat Unit :=
  .leaf ⟨[⟨[(key, [7])], maxMsn, 0⟩], [], maxMsn⟩

/-- Two leaves with an entry each are divided by the first key. -/
theorem siblings_oneRow :
    Siblings 1 (oneRow 1 5) (oneRow 2 6) :=
  .leaves {
    dividedA := ⟨List.cons_ne_nil _ _, .inl rfl, by decide, .nil, fun _ _ _ _ _ no => nomatch no⟩
    dividedB := ⟨List.cons_ne_nil _ _, .inl rfl, by decide, .nil, fun _ _ _ _ _ no => nomatch no⟩
    lowKeys := by decide
    lowPivots := fun _ _ _ no => nomatch no
    highKeys := by decide
    highPivots := fun _ no => nomatch no }

/-- In large nodes the two entries come together. -/
theorem maybeMergePinnedNodes_exact_merged :
    ∃ reaction, maybeMergePinnedNodes LeafNode.eightBytes 1 1000
        (oneRow 1 5) (oneRow 2 6) = some reaction ∧
      Kept 1 (oneRow 1 5) (oneRow 2 6) reaction ∧
      if reaction.didMerge || reaction.didRebalance then
        reaction.a.maxMsn = max 5 6 ∧ reaction.b.maxMsn = max 5 6
      else reaction.a = oneRow 1 5 ∧ reaction.b = oneRow 2 6 ∧
        reaction.splitk = some 1 :=
  maybeMergePinnedNodes_exact siblings_oneRow fun _ => by decide

/-- In small nodes the two leaves stay as they are, with their own message numbers. -/
theorem maybeMergePinnedNodes_untouched :
    Siblings 1 (oneRow 1 5) (oneRow 2 6) ∧
    ¬∃ reaction, maybeMergePinnedNodes LeafNode.eightBytes 1 200
        (oneRow 1 5) (oneRow 2 6) = some reaction ∧
      reaction.a.maxMsn = max 5 6 ∧ reaction.b.maxMsn = max 5 6 := by
  refine ⟨siblings_oneRow, ?_⟩
  rintro ⟨reaction, reacts, larger, -⟩
  have stays : (maybeMergePinnedNodes LeafNode.eightBytes 1 200
      (oneRow 1 5) (oneRow 2 6)).map (fun reaction => reaction.a.maxMsn) =
    some 5 := by decide
  rw [reacts, Option.map_some, larger] at stays
  revert stays
  decide

end Tokuft
