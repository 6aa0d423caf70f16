import Tokuft.Node.LeafRebalanceExact
import Tokuft.Node.LeafSplit

/-! A split of a leaf keeps its entries, and finds them where they are. -/

namespace Tokuft

namespace LeafNode

variable {Key : Type} {sizes : KeySizes Key}

variable {leaf : LeafNode Key} {nodeb : Option (LeafNode Key)} {mode : SplitMode}
  {count les : Nat} {last : BasementNode Key}

/-- Pivots are divided at an index when there are no other pivots yet. -/
theorem splitPivotsAt_eq (pivotkeys : List Key) (i : Nat) :
    splitPivotsAt pivotkeys [] i = (pivotkeys.take i, pivotkeys.drop i) := by
  rw [splitPivotsAt]
  split
  · rfl
  · rename_i beyond
    rw [List.take_of_length_le (by omega), List.drop_of_length_le (by omega)]

/-- A leaf that was emptied has no pivots. -/
theorem emptied_pivotkeys (emptied : ∀ b ∈ nodeb, b.pivotkeys = []) :
    (nodeb.map pivotkeys).getD [] = [] := by
  rcases Option.eq_none_or_eq_some nodeb with rfl | ⟨b, rfl⟩
  · rfl
  · exact emptied b rfl

/-- The basement nodes of a leaf around one of them. -/
theorem basements_around (here : leaf.basements[count]? = some last) :
    leaf.basements = leaf.basements.take count ++ [last] ++ leaf.basements.drop (count + 1) := by
  obtain ⟨inside, same⟩ := List.getElem?_eq_some_iff.mp here
  conv => lhs; rw [← List.take_append_drop count leaf.basements]
  rw [List.drop_eq_getElem_cons inside, same, List.append_assoc, List.singleton_append]

/-- Basement nodes of a leaf keep their message numbers. -/
theorem keepsMsn_of_taken {first : Nat} {basements : List (BasementNode Key)}
    (taken : TakenFrom leaf first basements) {basement : BasementNode Key}
    (member : basement ∈ basements) {klpair : Klpair Key} (entry : klpair ∈ basement.klpairs) :
    ∃ old ∈ leaf.basements, klpair ∈ old.klpairs ∧
      basement.maxMsnApplied = old.maxMsnApplied := by
  obtain ⟨i, here⟩ := List.getElem?_of_mem member
  obtain ⟨old, found, all⟩ := taken i basement here
  exact ⟨old, List.mem_of_getElem? found, all klpair entry⟩

/-- A basement node that is the same as that of the leaf is taken from it. -/
theorem taken_same {basement old : BasementNode Key} (same : basement = old) :
    ∀ klpair ∈ basement.klpairs, klpair ∈ old.klpairs ∧
      basement.maxMsnApplied = old.maxMsnApplied :=
  fun _ member => ⟨same ▸ member, congrArg _ same⟩

/-- The first basement nodes are taken from the leaf, also with a part of the last one. -/
theorem taken_left (here : leaf.basements[count]? = some last) {part : BasementNode Key}
    (some : ∀ klpair ∈ part.klpairs, klpair ∈ last.klpairs ∧
      part.maxMsnApplied = last.maxMsnApplied) :
    TakenFrom leaf 0 (leaf.basements.take count ++ [part]) := by
  -- Up to the last one they are the basement nodes of the leaf, and the last may be a part.
  intro i basement found
  have inside := (List.getElem?_eq_some_iff.mp here).1
  rw [Nat.zero_add]
  rcases Nat.lt_or_ge i count with early | final
  · rw [List.getElem?_append_left (by simp; omega), List.getElem?_take_of_lt early] at found
    exact ⟨basement, found, taken_same rfl⟩
  · rw [List.getElem?_append_right (by simp; omega), List.length_take,
      Nat.min_eq_left (by omega)] at found
    have bound := (List.getElem?_eq_some_iff.mp found).1
    obtain rfl : i = count := by
      rw [List.length_singleton] at bound
      omega
    rw [Nat.sub_self] at found
    cases found
    exact ⟨last, here, some⟩

/-- The basement nodes from one on are taken from the leaf. -/
theorem taken_right (first : Nat) : TakenFrom leaf first (leaf.basements.drop first) := by
  intro i basement found
  rw [List.getElem?_drop] at found
  exact ⟨basement, found, taken_same rfl⟩

variable [LinearOrder Key]

/-- Two leaves have the entries of a leaf, divided by a key. -/
structure SplitInTwo (leaf a b : LeafNode Key) (splitk : Key) : Prop where
  contents : a.klpairs ++ b.klpairs = leaf.klpairs
  left : ∀ klpair ∈ a.klpairs, klpair.1 ≤ splitk
  right : ∀ klpair ∈ b.klpairs, splitk < klpair.1
  dividedA : a.Divided
  dividedB : b.Divided
  surplus : a.pivotkeys.length = a.basements.length → a.pivotkeys.getLast? = some splitk ∨
    (leaf.pivotkeys.length = leaf.basements.length ∧ a.pivotkeys = leaf.pivotkeys)
  routesA : a.Routes
  routesB : b.Routes
  keepsMsn : ∀ basement ∈ a.basements ++ b.basements, ∀ klpair ∈ basement.klpairs,
    ∃ old ∈ leaf.basements, klpair ∈ old.klpairs ∧ basement.maxMsnApplied = old.maxMsnApplied
  nodeMsn : a.maxMsnAppliedToNodeOnDisk = leaf.maxMsnAppliedToNodeOnDisk ∧
    b.maxMsnAppliedToNodeOnDisk = leaf.maxMsnAppliedToNodeOnDisk

/-- Two leaves whose basement nodes and pivots are taken from one leaf split it in two. -/
theorem splitInTwo_of_taken (firstB : Nat) (divided : leaf.Divided) {a b : LeafNode Key}
    {splitk : Key} (contents : a.klpairs ++ b.klpairs = leaf.klpairs)
    (left : ∀ klpair ∈ a.klpairs, klpair.1 ≤ splitk)
    (right : ∀ klpair ∈ b.klpairs, splitk < klpair.1)
    (children : a.basements ≠ [] ∧ b.basements ≠ [])
    (countA : a.pivotkeys.length + 1 = a.basements.length ∨
      a.pivotkeys.length = a.basements.length)
    (countB : b.pivotkeys.length + 1 = b.basements.length ∨
      b.pivotkeys.length = b.basements.length)
    (takenA : TakenFrom leaf 0 a.basements) (takenB : TakenFrom leaf firstB b.basements)
    (pivotsA : ∃ count, a.pivotkeys = (leaf.pivotkeys.take count).drop 0)
    (pivotsB : ∃ count, b.pivotkeys = (leaf.pivotkeys.take count).drop firstB)
    (surplus : a.pivotkeys.length = a.basements.length → a.pivotkeys.getLast? = some splitk ∨
      (leaf.pivotkeys.length = leaf.basements.length ∧ a.pivotkeys = leaf.pivotkeys))
    (nodeMsn : a.maxMsnAppliedToNodeOnDisk = leaf.maxMsnAppliedToNodeOnDisk ∧
      b.maxMsnAppliedToNodeOnDisk = leaf.maxMsnAppliedToNodeOnDisk) :
    SplitInTwo leaf a b splitk := by
  -- What is taken from a divided leaf is divided itself.
  have dividedA : a.Divided := divided.taken 0 children.1 countA
    (contents ▸ List.sublist_append_left _ _) takenA pivotsA
  have dividedB : b.Divided := divided.taken firstB children.2 countB
    (contents ▸ List.sublist_append_right _ _) takenB pivotsB
  refine ⟨contents, left, right, dividedA, dividedB, surplus, dividedA.routes, dividedB.routes,
    fun basement member klpair entry => ?_, nodeMsn⟩
  rcases List.mem_append.mp member with inA | inB
  · exact keepsMsn_of_taken takenA inA entry
  · exact keepsMsn_of_taken takenB inB entry

section

variable (divided : leaf.Divided) (emptied : ∀ b ∈ nodeb, b.pivotkeys = [])
  (located : leaf.ftleafGetSplitLoc sizes mode = some (count + 1, les))
  (here : leaf.basements[count]? = some last)
include divided emptied located here

/-- A split between two basement nodes takes the pivot between them as its key. -/
theorem splitAtLoc_between (boundary : les = 0 ∨ les = last.klpairs.length)
    (more : count + 1 < leaf.basements.length) :
    ∃ a b splitk, leaf.splitAtLoc sizes nodeb mode = some (a, b, splitk) ∧
      SplitInTwo leaf a b splitk := by
  -- The pivot behind the last basement node on the left is the key of the split.
  have enough := divided.enough
  have counts := divided.pivotCount
  obtain ⟨pivot, found⟩ : ∃ pivot, leaf.pivotkeys[count]? = some pivot :=
    ⟨_, List.getElem?_eq_getElem (by omega)⟩
  have positive : ¬leaf.basements.length - (count + 1) + 0 = 0 := by omega
  have length : (leaf.basements.drop (count + 1)).length ≤
      leaf.basements.length - (count + 1) + 0 :=
    Nat.le_of_eq List.length_drop
  have split : leaf.splitAtLoc sizes nodeb mode = some ({
        basements := leaf.basements.take count ++ [last]
        pivotkeys := leaf.pivotkeys.take (count + 1)
        maxMsnAppliedToNodeOnDisk := leaf.maxMsnAppliedToNodeOnDisk },
      { basements := leaf.basements.drop (count + 1)
        pivotkeys := leaf.pivotkeys.drop (count + 1)
        maxMsnAppliedToNodeOnDisk := leaf.maxMsnAppliedToNodeOnDisk }, pivot) := by
    simp only [splitAtLoc, located, lastOf, here, bind_runs, if_pos boundary,
      invariant_of fun zero => absurd zero positive, if_neg positive, List.nil_append,
      invariant_of length, Nat.sub_zero, emptied_pivotkeys emptied, splitPivotsAt_eq,
      if_pos (And.intro boundary more), Nat.add_sub_cancel]
    rw [List.getElem?_take_of_lt (Nat.lt_succ_self count), found, List.length_drop]
    simp only [Nat.add_zero, Nat.sub_self, List.replicate_zero, List.append_nil]
    rfl
  have around := basements_around here
  refine ⟨_, _, _, split,
    splitInTwo_of_taken (count + 1) divided ?contents ?left ?right ?children ?countA
    ?countB (taken_left here (taken_same rfl)) (taken_right (count + 1)) ⟨count + 1, rfl⟩
    ⟨leaf.pivotkeys.length, by rw [List.take_length]⟩ ?surplus ⟨rfl, rfl⟩⟩
  case contents =>
    rw [klpairs, klpairs, ← List.flatMap_append, ← around]
    rfl
  case left =>
    intro klpair member
    obtain ⟨basement, inA, entry⟩ := List.mem_flatMap.mp member
    obtain ⟨i, at_⟩ := List.getElem?_of_mem inA
    obtain ⟨old, oldHere, all⟩ := taken_left here (taken_same rfl) i basement at_
    have bound := (List.getElem?_eq_some_iff.mp at_).1
    rw [List.length_append, List.length_singleton, List.length_take] at bound
    rw [Nat.zero_add] at oldHere
    exact (divided.separated i count old pivot oldHere found klpair (all klpair entry).1).1
      (by omega)
  case right =>
    intro klpair member
    obtain ⟨basement, inB, entry⟩ := List.mem_flatMap.mp member
    obtain ⟨i, at_⟩ := List.getElem?_of_mem inB
    rw [List.getElem?_drop] at at_
    exact (divided.separated _ count basement pivot at_ found klpair entry).2 (by omega)
  case children =>
    refine ⟨by simp, fun none => ?_⟩
    rw [List.drop_eq_nil_iff] at none
    omega
  case countA =>
    right
    rw [List.length_append, List.length_singleton, List.length_take, List.length_take]
    omega
  case countB =>
    rw [List.length_drop, List.length_drop]
    omega
  case surplus =>
    intro _
    left
    rw [List.take_add_one, found, Option.toList_some, List.getLast?_concat]

/-- A split inside a basement node takes the last key on the left. -/
theorem splitAtLoc_inside (some_ : 0 < les) (part : les < last.klpairs.length) :
    ∃ a b splitk, leaf.splitAtLoc sizes nodeb mode = some (a, b, splitk) ∧
      SplitInTwo leaf a b splitk := by
  -- The basement node is cut, and its parts go to either side.
  have enough := divided.enough
  have counts := divided.pivotCount
  have inRange := (List.getElem?_eq_some_iff.mp here).1
  have inside : ¬(les = 0 ∨ les = last.klpairs.length) := by omega
  have positive : ¬leaf.basements.length - (count + 1) + 1 = 0 := by omega
  have length : (({ last with klpairs := last.klpairs.drop les, seqinsert := 0 } ::
      leaf.basements.drop (count + 1) : List (BasementNode Key))).length ≤
      leaf.basements.length - (count + 1) + 1 :=
    Nat.le_of_eq (by rw [List.length_cons, List.length_drop])
  obtain ⟨final, ends⟩ : ∃ final, (last.klpairs.take les).getLast? = some final :=
    ⟨_, List.getLast?_eq_some_getLast (List.length_pos_iff.mp (by rw [List.length_take]; omega))⟩
  have split : leaf.splitAtLoc sizes nodeb mode = some ({
        basements := leaf.basements.take count ++ [{ last with klpairs := last.klpairs.take les }]
        pivotkeys := leaf.pivotkeys.take count
        maxMsnAppliedToNodeOnDisk := leaf.maxMsnAppliedToNodeOnDisk },
      { basements := { last with klpairs := last.klpairs.drop les, seqinsert := 0 } ::
          leaf.basements.drop (count + 1)
        pivotkeys := leaf.pivotkeys.drop count
        maxMsnAppliedToNodeOnDisk := leaf.maxMsnAppliedToNodeOnDisk }, final.1) := by
    simp only [splitAtLoc, located, lastOf, here, Option.bind_eq_bind, Option.bind_some,
      if_neg inside, invariant_of fun zero => absurd zero positive, if_neg positive,
      List.singleton_append, invariant_of length, emptied_pivotkeys emptied,
      splitPivotsAt_eq, if_neg fun both => inside (And.left both), Nat.add_sub_cancel, ends,
      Option.map_some]
    rw [List.length_cons, List.length_drop, Nat.sub_self, List.replicate_zero, List.append_nil]
    rfl
  have contents : (leaf.basements.take count ++
        [{ last with klpairs := last.klpairs.take les }]).flatMap BasementNode.klpairs ++
      ({ last with klpairs := last.klpairs.drop les, seqinsert := 0 } ::
        leaf.basements.drop (count + 1)).flatMap BasementNode.klpairs = leaf.klpairs := by
    conv => rhs; rw [klpairs, basements_around here]
    simp only [List.flatMap_append, List.flatMap_cons, List.flatMap_nil, List.append_nil,
      List.append_assoc]
    rw [← List.append_assoc (last.klpairs.take les), List.take_append_drop]
  have rise := divided.keysRise
  rw [← contents] at rise
  obtain ⟨left, right⟩ := around_last _ _ rise (show _ = some final by
    rw [List.flatMap_append, List.getLast?_append, List.flatMap_singleton, ends,
      Option.some_or])
  refine ⟨_, _, _, split, splitInTwo_of_taken count divided contents left right
    ⟨by simp, List.cons_ne_nil _ _⟩ ?countA ?countB
    (taken_left here fun klpair member => ⟨List.mem_of_mem_take member, rfl⟩) ?takenB
    ⟨count, rfl⟩ ⟨leaf.pivotkeys.length, by rw [List.take_length]⟩ ?surplus ⟨rfl, rfl⟩⟩
  case countA =>
    left
    rw [List.length_append, List.length_singleton, List.length_take, List.length_take]
    omega
  case countB =>
    rw [List.length_drop, List.length_cons, List.length_drop]
    omega
  case takenB =>
    intro i basement found
    cases i with
    | zero =>
      cases found
      exact ⟨last, here, fun klpair member => ⟨List.mem_of_mem_drop member, rfl⟩⟩
    | succ i =>
      rw [List.getElem?_cons_succ, List.getElem?_drop, Nat.add_right_comm] at found
      exact ⟨basement, found, taken_same rfl⟩
  case surplus =>
    intro same
    rw [List.length_append, List.length_singleton, List.length_take, List.length_take] at same
    omega

end

/-- A split that leaves everything on the left takes the last key. -/
theorem splitAtLoc_whole (divided : leaf.Divided) (emptied : ∀ b ∈ nodeb, b.pivotkeys = [])
    (located : leaf.ftleafGetSplitLoc sizes .leftHeavy = some (count + 1, les))
    (here : leaf.basements[count]? = some last)
    (boundary : les = 0 ∨ les = last.klpairs.length) (some_ : last.klpairs ≠ [])
    (all : count + 1 = leaf.basements.length) :
    ∃ a b splitk, leaf.splitAtLoc sizes nodeb .leftHeavy = some (a, b, splitk) ∧
      SplitInTwo leaf a b splitk := by
  -- The right side gets an empty basement node.
  have counts := divided.pivotCount
  obtain ⟨final, ends⟩ : ∃ final, last.klpairs.getLast? = some final :=
    ⟨_, List.getLast?_eq_some_getLast some_⟩
  have notLess : ¬count + 1 < leaf.basements.length := by omega
  have nothing : leaf.basements.drop (count + 1) = [] := List.drop_of_length_le (by omega)
  have none : leaf.basements.length - (count + 1) + 0 = 0 := by omega
  have around := basements_around here
  rw [nothing, List.append_nil] at around
  have split : leaf.splitAtLoc sizes nodeb .leftHeavy = some ({
        basements := leaf.basements
        pivotkeys := leaf.pivotkeys
        maxMsnAppliedToNodeOnDisk := leaf.maxMsnAppliedToNodeOnDisk },
      { basements := [.createEmpty]
        pivotkeys := []
        maxMsnAppliedToNodeOnDisk := leaf.maxMsnAppliedToNodeOnDisk }, final.1) := by
    simp only [splitAtLoc, located, lastOf, here, bind_runs, if_pos boundary, none, nothing,
      Nat.sub_zero, emptied_pivotkeys emptied, splitPivotsAt_eq,
      if_neg fun both => notLess (And.right both), Nat.add_sub_cancel, ends, Option.map_some,
      ← around]
    rw [List.take_of_length_le (by omega), List.drop_of_length_le (by omega)]
    rfl
  obtain ⟨left, right⟩ := around_last leaf.klpairs []
    (by rw [List.append_nil]; exact divided.keysRise) (show _ = some final by
      rw [klpairs, around, List.flatMap_append, List.getLast?_append, List.flatMap_singleton,
        ends, Option.some_or])
  refine ⟨_, _, _, split, splitInTwo_of_taken count divided (List.append_nil _) left
    right ⟨divided.children, List.cons_ne_nil _ _⟩ divided.pivotCount (.inl rfl)
    (fun i basement found => ⟨basement, (Nat.zero_add i).symm ▸ found, taken_same rfl⟩) ?takenB
    ⟨leaf.pivotkeys.length, List.take_length.symm⟩ ⟨count, ?pivotsB⟩
    (fun same => .inr ⟨same, rfl⟩) ⟨rfl, rfl⟩⟩
  case takenB =>
    intro i basement found
    obtain ⟨bound, rfl⟩ := List.getElem?_eq_some_iff.mp found
    obtain rfl : i = 0 := Nat.lt_one_iff.mp bound
    exact ⟨last, here, fun _ member => by cases member⟩
  case pivotsB =>
    rw [List.drop_of_length_le (List.length_take_le _ _)]

/-- A leaf that can be divided is split in two, wherever the place of the split is found. -/
theorem splitAtLoc_inTwo (divided : leaf.Divided) (nodeb : Option (LeafNode Key))
    (emptied : ∀ b ∈ nodeb, b.pivotkeys = []) (splittable : Splittable sizes leaf mode) :
    ∃ a b splitk, leaf.splitAtLoc sizes nodeb mode = some (a, b, splitk) ∧
      SplitInTwo leaf a b splitk := by
  -- The place is between two basement nodes, inside one, or behind all entries.
  obtain ⟨count, les, last, located, here, within, whole⟩ :=
    ftleafGetSplitLoc_located divided.children splittable
  by_cases boundary : les = 0 ∨ les = last.klpairs.length
  · by_cases more : count + 1 < leaf.basements.length
    · exact splitAtLoc_between divided emptied located here boundary more
    · obtain ⟨rfl, some_⟩ := (whole boundary).resolve_left more
      have inside := (List.getElem?_eq_some_iff.mp here).1
      exact splitAtLoc_whole divided emptied located here boundary some_ (by omega)
  · exact splitAtLoc_inside divided emptied located here (by omega) (by omega)

/-- A split of some mode can divide a leaf, also when a clone of it leaves no
empty basement node. -/
def SplittableInto (sizes : KeySizes Key) (leaf : LeafNode Key) (into : SplitInto Key) :
    SplitMode → Prop
  | .leftHeavy => (¬into.Clones ∧ 1 < leaf.basements.length) ∨ 1 ≤ leaf.klpairs.length
  | .rightHeavy => (¬into.Clones ∧ 1 < leaf.basements.length) ∨ 2 ≤ leaf.klpairs.length
  | .evenly => 2 ≤ leaf.klpairs.length ∧ (leaf.klpairs.map (klpairDisksize sizes)).sum < 2 ^ 32

/-- What is to be split of a leaf: the leaf, rebalanced if it is cloned. -/
structure Prepared (sizes : KeySizes Key) (leaf : LeafNode Key) (into : SplitInto Key)
    (before : LeafNode Key) : Prop where
  klpairs : before.klpairs = leaf.klpairs
  same : ¬into.Clones → before = leaf
  rebalanced : ∀ basementnodesize pair, into = .newNode basementnodesize pair → into.Clones →
    Rebalanced sizes basementnodesize leaf before

/-- A leaf is split after a new node was put, which keeps its entries. -/
theorem ftleafSplit_prepares (divided : leaf.Divided) (into : SplitInto Key)
    (counts : ∀ basementnodesize pair, into = .newNode basementnodesize pair → into.Clones →
      CountsExactly sizes basementnodesize leaf.klpairs) :
    ∃ before nodeb, Prepared sizes leaf into before ∧ before.Divided ∧
      leaf.ftleafSplit sizes into mode = before.splitAtLoc sizes nodeb mode ∧
      ∀ b ∈ nodeb, into = .existing b := by
  cases into with
  | existing b =>
    exact ⟨leaf, some b, ⟨rfl, fun _ => rfl, fun _ _ wrong => by cases wrong⟩, divided, rfl,
      fun other same => congrArg _ (Option.some.inj same)⟩
  | newNode basementnodesize pair =>
    rw [ftleafSplit, cachetablePutEmptyNodeWithDepNodes]
    by_cases clones : pair.dirty ∧ pair.checkpointPending
    · -- The clone of the leaf is made after a rebalance.
      obtain ⟨before, rebalances, fine⟩ :=
        rebalanced_of_countsExactly divided.children (counts basementnodesize pair rfl clones)
      rw [if_pos clones, rebalances]
      refine ⟨before, none, ⟨fine.contents, fun wrong => absurd clones wrong, ?_⟩,
        fine.divided divided.keysRise, rfl, fun b wrong => by cases wrong⟩
      rintro _ _ ⟨⟩ -
      exact fine
    · rw [if_neg clones]
      exact ⟨leaf, none, ⟨rfl, fun _ => rfl, fun _ _ _ yes => absurd yes clones⟩, divided, rfl,
        fun b wrong => by cases wrong⟩

omit [LinearOrder Key] in
/-- The leaf that is split can be divided where the given one can be. -/
theorem Prepared.splittable {into : SplitInto Key} {before : LeafNode Key}
    (prepared : Prepared sizes leaf into before)
    (splittable : SplittableInto sizes leaf into mode) :
    Splittable sizes before mode := by
  -- A leaf that was cloned has the same entries, in other basement nodes.
  cases mode with
  | leftHeavy =>
    refine splittable.imp (fun more => ?_) fun entries => prepared.klpairs ▸ entries
    rw [prepared.same more.1]
    exact more.2
  | rightHeavy =>
    refine splittable.imp (fun more => ?_) fun entries => prepared.klpairs ▸ entries
    rw [prepared.same more.1]
    exact more.2
  | evenly =>
    rw [Splittable, prepared.klpairs]
    exact splittable

/-- A split of a leaf that can be divided keeps its entries in order, takes a key between the two
leaves, and finds every entry in the basement node that holds it. Only for a checkpoint that waits
for the leaf are its basement nodes others, with the largest of their message numbers. -/
theorem ftleafSplit_exact (divided : leaf.Divided) (into : SplitInto Key)
    (emptied : ∀ b, into = .existing b → b.pivotkeys = [])
    (counts : ∀ basementnodesize pair, into = .newNode basementnodesize pair → into.Clones →
      CountsExactly sizes basementnodesize leaf.klpairs)
    (splittable : SplittableInto sizes leaf into mode) :
    ∃ before a b splitk, Prepared sizes leaf into before ∧
      leaf.ftleafSplit sizes into mode = some (a, b, splitk) ∧
      a.klpairs ++ b.klpairs = leaf.klpairs ∧ SplitInTwo before a b splitk := by
  obtain ⟨before, nodeb, prepared, beforeDivided, same, existing⟩ :=
    ftleafSplit_prepares divided into counts
  obtain ⟨a, b, splitk, split, two⟩ := splitAtLoc_inTwo beforeDivided nodeb
    (fun b member => emptied b (existing b member)) (prepared.splittable splittable)
  exact ⟨before, a, b, splitk, prepared, same.trans split, two.contents.trans prepared.klpairs, two⟩

/-- A leaf with one basement node. -/
def ofBasement (basement : BasementNode Nat) : LeafNode Nat where
  basements := [basement]
  pivotkeys := []
  maxMsnAppliedToNodeOnDisk := 5

/-- A leaf with one basement node whose entries increase is divided. -/
theorem divided_ofBasement {basement : BasementNode Nat}
    (rise : basement.klpairs.Pairwise fun one other => one.1 < other.1) :
    (ofBasement basement).Divided where
  children := List.cons_ne_nil _ _
  pivotCount := .inl rfl
  keysRise := by
    rw [klpairs, ofBasement, List.flatMap_singleton]
    exact rise
  pivotsRise := .nil
  separated := fun _ _ _ _ _ found => nomatch found

/-- Keys of eight bytes. -/
def eightBytes : KeySizes Nat := ⟨fun _ => 8, fun _ => by decide⟩

/-- A leaf with two basement nodes to which different messages have been applied. -/
def twoBasements : LeafNode Nat where
  basements := [⟨[(1, [7]), (2, [8])], 3, 0⟩, ⟨[(3, [9])], 5, 0⟩]
  pivotkeys := [2]
  maxMsnAppliedToNodeOnDisk := 5

/-- Its entries increase, and its pivot is between its basement nodes. -/
theorem divided_twoBasements : twoBasements.Divided where
  children := List.cons_ne_nil _ _
  pivotCount := .inl rfl
  keysRise := by decide
  pivotsRise := List.pairwise_singleton _ _
  separated := by
    intro i j basement pivot here found klpair member
    obtain ⟨only, rfl⟩ := List.getElem?_eq_some_iff.mp found
    obtain rfl : j = 0 := Nat.lt_one_iff.mp only
    have all : ∀ place : Fin 2, ∀ klpair ∈ (twoBasements.basements[place.val]).klpairs,
        (place.val ≤ 0 → klpair.1 ≤ 2) ∧ (0 < place.val → 2 < klpair.1) := by decide
    obtain ⟨inside, rfl⟩ := List.getElem?_eq_some_iff.mp here
    exact all ⟨i, inside⟩ klpair member

/-- A checkpoint waits for the leaf, which is split into a new node of small basement nodes. -/
def clonesFirst : SplitInto Nat := .newNode 30 ⟨true, true⟩

/-- Its entries are divided between two leaves after a rebalance. -/
theorem ftleafSplit_exact_two : ∃ before a b splitk,
    Prepared eightBytes twoBasements clonesFirst before ∧
    twoBasements.ftleafSplit eightBytes clonesFirst .evenly = some (a, b, splitk) ∧
    a.klpairs ++ b.klpairs = twoBasements.klpairs ∧ SplitInTwo before a b splitk :=
  ftleafSplit_exact divided_twoBasements clonesFirst (fun _ wrong => by cases wrong)
    (fun _ _ same _ => by cases same; exact ⟨by decide, by decide, by decide, by decide⟩)
    ⟨by decide, by decide⟩

/-- There is nothing to the left of the only basement node when it is empty, and an entry to which
the third message was the last one finds itself in a basement node with five. -/
theorem ftleafSplit_empty_or_cloned :
    ((ofBasement .createEmpty).Divided ∧
      ¬∃ a b splitk, (ofBasement .createEmpty).ftleafSplit eightBytes (.newNode 30 ⟨true, false⟩)
          .leftHeavy = some (a, b, splitk) ∧
        SplitInTwo (ofBasement .createEmpty) a b splitk) ∧
    twoBasements.Divided ∧
      ¬∃ a b splitk, twoBasements.ftleafSplit eightBytes clonesFirst .evenly =
          some (a, b, splitk) ∧
        SplitInTwo twoBasements a b splitk := by
  refine ⟨⟨divided_ofBasement .nil, ?_⟩, divided_twoBasements, ?_⟩
  · rintro ⟨a, b, splitk, split, -⟩
    have aborts : (ofBasement .createEmpty).ftleafSplit eightBytes (.newNode 30 ⟨true, false⟩)
        .leftHeavy = none := by
      decide
    cases aborts.symm.trans split
  · rintro ⟨a, b, splitk, split, two⟩
    have numbers : (twoBasements.ftleafSplit eightBytes clonesFirst .evenly).map
        (fun (a, _) => a.basements.head?) = some (some ⟨[(1, [7]), (2, [8])], 5, 0⟩) := by
      decide
    rw [split, Option.map_some, Option.some.injEq] at numbers
    obtain ⟨old, there, holds, same⟩ := two.keepsMsn ⟨[(1, [7]), (2, [8])], 5, 0⟩
      (List.mem_append_left _ (List.mem_of_mem_head? numbers)) (1, [7]) List.mem_cons_self
    -- Only the first basement node held the entry, with another number.
    have none : ∀ old ∈ twoBasements.basements, (1, [7]) ∈ old.klpairs → old.maxMsnApplied ≠ 5 := by
      decide
    exact none old there holds same.symm

end LeafNode

end Tokuft
