import Tokuft.Node.Leaf
import Tokuft.Library.GreedyGroups

/-! Cutting the entries of a leaf into groups, one for each of its new basement nodes. -/

namespace Tokuft

/-- The arrays of a rebalance, and where its loop is in them. -/
structure RebalanceArrays where
  /-- For each pivot, the index of the entry that it is the key of. -/
  newPivots : Nat → Nat
  /-- For each entry, the size of its leaf entry. -/
  leSizes : Nat → Nat
  /-- For each new basement node, the sizes of its leaf entries, added up. -/
  bnLeSizes : Nat → Nat
  /-- For each new basement node, the sizes of its keys, added up. -/
  bnKeySizes : Nat → Nat
  /-- For each new basement node, the number of its entries. -/
  numLesThisBn : Nat → Nat
  currPivot : Nat
  numLeInCurrBn : Nat
  /-- What the current basement node takes so far, as a number of 32 bits. -/
  bnSizeSoFar : Nat

/-- At first nothing is in any array. -/
def RebalanceArrays.init : RebalanceArrays where
  newPivots := fun _ => 0
  leSizes := fun _ => 0
  bnLeSizes := fun _ => 0
  bnKeySizes := fun _ => 0
  numLesThisBn := fun _ => 0
  currPivot := 0
  numLeInCurrBn := 0
  bnSizeSoFar := 0

namespace LeafNode

variable {Key : Type} (sizes : KeySizes Key) (basementnodesize : Nat)

/-- Cap off the current basement node before an entry that overflows it, and count the entry. -/
def rebalanceStep (numAlloc : Nat) (arrays : RebalanceArrays) (i : Nat) (klpair : Klpair Key) :
    Option RebalanceArrays := do
  let currLeSize := leafentryDisksize klpair.2 % 2 ^ 32
  let keySize := sizes.key klpair.1
  invariant (i < numAlloc)
  let arrays := { arrays with leSizes := Function.update arrays.leSizes i currLeSize }
  -- The size so far and the size of the entry are added in 32 bits, the rest in 64.
  let overflows := basementnodesize < (arrays.bnSizeSoFar + currLeSize) % 2 ^ 32 + 4 + keySize
  let arrays := if overflows ∧ arrays.numLeInCurrBn ≠ 0 then
      { arrays with
        newPivots := Function.update arrays.newPivots arrays.currPivot (i - 1)
        currPivot := arrays.currPivot + 1
        numLeInCurrBn := 0
        bnSizeSoFar := 0 }
    else arrays
  invariant (arrays.currPivot < numAlloc)
  let curr := arrays.currPivot
  return { arrays with
    numLeInCurrBn := arrays.numLeInCurrBn + 1
    numLesThisBn := Function.update arrays.numLesThisBn curr (arrays.numLeInCurrBn + 1)
    bnLeSizes := Function.update arrays.bnLeSizes curr (arrays.bnLeSizes curr + currLeSize)
    bnKeySizes := Function.update arrays.bnKeySizes curr (arrays.bnKeySizes curr + (4 + keySize))
    bnSizeSoFar := (arrays.bnSizeSoFar + (currLeSize + 4 + keySize)) % 2 ^ 32 }

/-- Go through the entries, from an index on. -/
def rebalanceLoop (numAlloc : Nat) :
    List (Klpair Key) → Nat → RebalanceArrays → Option RebalanceArrays
  | [], _, arrays => some arrays
  | klpair :: rest, i, arrays => do
    let arrays ← rebalanceStep sizes basementnodesize numAlloc arrays i klpair
    rebalanceLoop numAlloc rest (i + 1) arrays

/-- Copy entries with the sizes that were noted for them into a block of some size. -/
def setContentsAsCloneOfSortedArray (klpairs : List (Klpair Key)) (leSizes : List Nat)
    (totalLeSize : Nat) : Option (List (Klpair Key)) := do
  invariant (leSizes.sum ≤ totalLeSize)
  return klpairs.zipWith (fun klpair size => (klpair.1, klpair.2.take size)) leSizes

/-- Fill a number of new basement nodes, from one on. -/
def fillBasements (klpairs : List (Klpair Key)) (arrays : RebalanceArrays)
    (seqinsert maxMsn : Nat) : Nat → Nat → Nat → Option (List (BasementNode Key))
  | 0, _, _ => some []
  | count + 1, i, baseindexThisBn => do
    let currStart := if i = 0 then 0 else arrays.newPivots (i - 1) + 1
    let currEnd := if i = arrays.currPivot then klpairs.length else arrays.newPivots i + 1
    let numInBn := currEnd - currStart
    invariant (baseindexThisBn = currStart)
    let numLesToCopy := arrays.numLesThisBn i
    invariant (numLesToCopy = numInBn)
    let indexes := List.range' baseindexThisBn numLesToCopy
    let contents ← setContentsAsCloneOfSortedArray
      ((klpairs.drop baseindexThisBn).take numLesToCopy) (indexes.map arrays.leSizes)
      (arrays.bnLeSizes i)
    let basement := { klpairs := contents, maxMsnApplied := maxMsn, seqinsert }
    let rest ← fillBasements klpairs arrays seqinsert maxMsn count (i + 1)
      (baseindexThisBn + numLesToCopy)
    return basement :: rest

/-- Divide the entries of a leaf among basement nodes of a size. -/
def leafRebalance (leaf : LeafNode Key) : Option (LeafNode Key) := do
  let klpairs := leaf.klpairs
  let numLe := klpairs.length % 2 ^ 32
  let numAlloc := if numLe = 0 then 1 else numLe
  -- The entries are noted one after the other in an array of that length.
  invariant (klpairs.length ≤ numAlloc)
  let arrays ← rebalanceLoop sizes basementnodesize numAlloc klpairs 0 .init
  let lastBasement ← leaf.basements.getLast?
  let maxMsn := (leaf.basements.map BasementNode.maxMsnApplied).foldl
    (fun max curr => if max < curr then curr else max) 0
  -- The number of children is a signed number, which has to be positive.
  invariant (arrays.currPivot + 1 < 2 ^ 31)
  let pivotkeys ← (List.range arrays.currPivot).mapM fun i => do
    let klpair ← klpairs[arrays.newPivots i]?
    return klpair.1
  let basements ← fillBasements klpairs arrays lastBasement.seqinsert maxMsn
    (arrays.currPivot + 1) 0 0
  return {
    basements
    pivotkeys
    maxMsnAppliedToNodeOnDisk := maxMsn }

/-- The size of a leaf entry, as a number of 32 bits. -/
def countedLeSize (klpair : Klpair Key) : Nat := leafentryDisksize klpair.2 % 2 ^ 32

/-- What entries take together, as a number of 32 bits. -/
def countedSize (klpairs : List (Klpair Key)) : Nat :=
  (klpairs.map fun klpair => countedLeSize klpair + 4 + sizes.key klpair.1).sum % 2 ^ 32

/-- An entry is too much for a basement node that has entries, as a rebalance counts. -/
def capsOff (current : List (Klpair Key)) (klpair : Klpair Key) : Bool :=
  decide (basementnodesize < (countedSize sizes current + countedLeSize klpair) % 2 ^ 32 + 4 +
    sizes.key klpair.1 ∧ current.length ≠ 0)

/-- The entries of each new basement node. -/
def rebalanceGroups (klpairs : List (Klpair Key)) : List (List (Klpair Key)) :=
  cutGroups (capsOff sizes basementnodesize) [] klpairs

/-- The number and the size of the entries of a basement node are in the arrays. -/
structure Noted (arrays : RebalanceArrays) (j : Nat) (group : List (Klpair Key)) : Prop where
  numLes : arrays.numLesThisBn j = group.length
  leSize : arrays.bnLeSizes j = (group.map countedLeSize).sum

/-- The arrays describe the basement nodes that are capped off and the current one. -/
structure Tracks (done : List (List (Klpair Key))) (current : List (Klpair Key))
    (arrays : RebalanceArrays) : Prop where
  currPivot : arrays.currPivot = done.length
  numLeInCurrBn : arrays.numLeInCurrBn = current.length
  bnSizeSoFar : arrays.bnSizeSoFar = countedSize sizes current
  used : ∀ group ∈ done, group ≠ []
  newPivots : ∀ j < done.length, arrays.newPivots j + 1 = (done.take (j + 1)).flatten.length
  doneNoted : ∀ j group, done[j]? = some group → Noted arrays j group
  currentNoted : Noted arrays done.length current
  laterNoted : ∀ j, done.length < j → Noted arrays j ([] : List (Klpair Key))
  leSizes : ∀ i klpair, (done.flatten ++ current)[i]? = some klpair →
    arrays.leSizes i = countedLeSize klpair

variable {sizes basementnodesize} {done : List (List (Klpair Key))} {current : List (Klpair Key)}
  {arrays : RebalanceArrays}

/-- At first there are no basement nodes but an empty current one. -/
theorem Tracks.init : Tracks sizes [] ([] : List (Klpair Key)) .init where
  currPivot := rfl
  numLeInCurrBn := rfl
  bnSizeSoFar := rfl
  used := by simp
  newPivots := by simp
  doneNoted := by simp
  currentNoted := ⟨rfl, rfl⟩
  laterNoted := fun _ _ => ⟨rfl, rfl⟩
  leSizes := by simp

/-- Basement nodes that have entries are no more than the entries. -/
theorem length_le_length_flatten {groups : List (List (Klpair Key))}
    (used : ∀ group ∈ groups, group ≠ []) : groups.length ≤ groups.flatten.length := by
  induction groups with
  | nil => exact Nat.le_refl _
  | cons group groups ih =>
    have one := List.length_pos_iff.mpr (used group List.mem_cons_self)
    have more := ih fun other member => used other (List.mem_cons_of_mem _ member)
    rw [List.flatten_cons, List.length_append, List.length_cons]
    omega

/-- Capping off the current basement node leaves an empty one. -/
theorem Tracks.capOff (tracks : Tracks sizes done current arrays) (some : current ≠ [])
    {i : Nat} (here : i = (done.flatten ++ current).length) :
    Tracks sizes (done ++ [current]) []
      { arrays with
        newPivots := Function.update arrays.newPivots arrays.currPivot (i - 1)
        currPivot := arrays.currPivot + 1
        numLeInCurrBn := 0
        bnSizeSoFar := 0 } where
  currPivot := by rw [tracks.currPivot, List.length_append, List.length_singleton]
  numLeInCurrBn := rfl
  bnSizeSoFar := rfl
  used := fun group member => by
    rcases List.mem_append.mp member with old | new
    · exact tracks.used group old
    · exact (List.mem_singleton.mp new) ▸ some
  newPivots := fun j below => by
    rw [List.length_append, List.length_singleton] at below
    have positive := List.length_pos_iff.mpr some
    rw [List.length_append] at here
    dsimp only
    rcases Nat.lt_or_ge j done.length with old | new
    · rw [tracks.currPivot, Function.update_of_ne (Nat.ne_of_lt old), tracks.newPivots j old,
        List.take_append_of_le_length (by omega)]
    -- The new pivot is the last entry so far.
    · obtain rfl : j = done.length := by omega
      rw [tracks.currPivot, Function.update_self, List.take_of_length_le (by simp),
        List.flatten_append, List.flatten_singleton, List.length_append]
      omega
  doneNoted := fun j group found => by
    rcases Nat.lt_trichotomy j done.length with old | same | beyond
    · rw [List.getElem?_append_left old] at found
      exact ⟨(tracks.doneNoted j group found).1, (tracks.doneNoted j group found).2⟩
    · subst same
      rw [List.getElem?_append_right (Nat.le_refl _), Nat.sub_self] at found
      cases found
      exact ⟨tracks.currentNoted.1, tracks.currentNoted.2⟩
    · rw [List.getElem?_eq_none (by simp; omega)] at found
      cases found
  currentNoted := by
    -- The entries for the next basement node are as new.
    have fresh := tracks.laterNoted (done ++ [current]).length (by simp)
    exact ⟨fresh.1, fresh.2⟩
  laterNoted := fun j beyond => by
    have fresh := tracks.laterNoted j (by simp at beyond; omega)
    exact ⟨fresh.1, fresh.2⟩
  leSizes := by
    intro i klpair found
    rw [List.flatten_append, List.flatten_singleton, List.append_nil] at found
    exact tracks.leSizes i klpair found

/-- The size so far grows by what an entry takes. -/
theorem countedSize_concat (klpairs : List (Klpair Key)) (klpair : Klpair Key) :
    countedSize sizes (klpairs ++ [klpair]) =
      (countedSize sizes klpairs + (countedLeSize klpair + 4 + sizes.key klpair.1)) % 2 ^ 32 := by
  simp only [countedSize, List.map_append, List.map_singleton, List.sum_append,
    List.sum_singleton, Nat.mod_add_mod]

/-- Counting an entry adds it to the current basement node. -/
theorem Tracks.count (tracks : Tracks sizes done current arrays) {i : Nat}
    (here : i = (done.flatten ++ current).length) (klpair : Klpair Key) :
    Tracks sizes done (current ++ [klpair])
      { arrays with
        leSizes := Function.update arrays.leSizes i (countedLeSize klpair)
        numLeInCurrBn := arrays.numLeInCurrBn + 1
        numLesThisBn := Function.update arrays.numLesThisBn arrays.currPivot
          (arrays.numLeInCurrBn + 1)
        bnLeSizes := Function.update arrays.bnLeSizes arrays.currPivot
          (arrays.bnLeSizes arrays.currPivot + countedLeSize klpair)
        bnKeySizes := Function.update arrays.bnKeySizes arrays.currPivot
          (arrays.bnKeySizes arrays.currPivot + (4 + sizes.key klpair.1))
        bnSizeSoFar := (arrays.bnSizeSoFar +
          (countedLeSize klpair + 4 + sizes.key klpair.1)) % 2 ^ 32 } where
  currPivot := tracks.currPivot
  numLeInCurrBn := by
    rw [tracks.numLeInCurrBn, List.length_append, List.length_singleton]
  bnSizeSoFar := by rw [tracks.bnSizeSoFar, countedSize_concat]
  used := tracks.used
  newPivots := tracks.newPivots
  doneNoted := fun j group found => by
    have below : j ≠ arrays.currPivot := by
      have := (List.getElem?_eq_some_iff.mp found).1
      have := tracks.currPivot
      omega
    have noted := tracks.doneNoted j group found
    exact ⟨(Function.update_of_ne below _ _).trans noted.1,
      (Function.update_of_ne below _ _).trans noted.2⟩
  currentNoted := by
    have noted := tracks.currentNoted
    constructor <;> dsimp only
    · rw [← tracks.currPivot, Function.update_self, tracks.numLeInCurrBn, List.length_append,
        List.length_singleton]
    · rw [← tracks.currPivot, Function.update_self, tracks.currPivot, noted.leSize,
        List.map_append, List.sum_append, List.map_singleton, List.sum_singleton]
  laterNoted := fun j beyond => by
    have above : j ≠ arrays.currPivot := by
      have := tracks.currPivot
      omega
    have noted := tracks.laterNoted j beyond
    exact ⟨(Function.update_of_ne above _ _).trans noted.1,
      (Function.update_of_ne above _ _).trans noted.2⟩
  leSizes := fun k found at_ => by
    rw [← List.append_assoc] at at_
    rcases Nat.lt_trichotomy k i with old | same | beyond
    · rw [List.getElem?_append_left (by omega)] at at_
      exact (Function.update_of_ne (Nat.ne_of_lt old) _ _).trans (tracks.leSizes k found at_)
    · subst same
      rw [List.getElem?_append_right (by omega), here, Nat.sub_self] at at_
      cases at_
      exact Function.update_self _ _ _
    · rw [List.getElem?_eq_none (by simp at here ⊢; omega)] at at_
      cases at_

/-- One step puts the entry where the groups have it. -/
theorem Tracks.step (tracks : Tracks sizes done current arrays) (basementnodesize : Nat)
    {numAlloc i : Nat} (here : i = (done.flatten ++ current).length) (room : i < numAlloc)
    (klpair : Klpair Key) :
    ∃ done' current' arrays',
      rebalanceStep sizes basementnodesize numAlloc arrays i klpair = some arrays' ∧
      Tracks sizes done' current' arrays' ∧
      done'.flatten ++ current' = done.flatten ++ current ++ [klpair] ∧
      ∀ rest, done' ++ cutGroups (capsOff sizes basementnodesize) current' rest =
        done ++ cutGroups (capsOff sizes basementnodesize) current (klpair :: rest) := by
  have few := length_le_length_flatten tracks.used
  rw [List.length_append] at here
  by_cases caps : basementnodesize < (countedSize sizes current + countedLeSize klpair) % 2 ^ 32 +
      4 + sizes.key klpair.1 ∧ current.length ≠ 0
  -- The current basement node is capped off, and the entry starts another.
  · have some : current ≠ [] := List.length_pos_iff.mp (Nat.pos_of_ne_zero caps.2)
    have capped := tracks.capOff some (i := i) (by rw [List.length_append]; exact here)
    have counted := capped.count (i := i) (by
      rw [List.flatten_append, List.flatten_singleton, List.append_nil, List.length_append]
      exact here) klpair
    refine ⟨done ++ [current], [klpair], _, ?_, counted, ?_, ?_⟩
    · have below : arrays.currPivot + 1 < numAlloc := by
        have := tracks.currPivot
        have := caps.2
        omega
      have overflows := caps
      rw [← tracks.bnSizeSoFar, ← tracks.numLeInCurrBn] at overflows
      simp only [rebalanceStep, invariant_of room, bind_runs]
      simp only [countedLeSize] at overflows
      rw [if_pos overflows]
      simp only [invariant_of below, Option.bind_some]
      rfl
    · rw [List.flatten_append, List.flatten_singleton]
    · intro rest
      have cuts : capsOff sizes basementnodesize current klpair = true := decide_eq_true caps
      rw [cutGroups, if_pos cuts, List.append_assoc, List.singleton_append]
  -- The entry joins the current basement node.
  · have counted := tracks.count (i := i) (by rw [List.length_append]; exact here) klpair
    refine ⟨done, current ++ [klpair], _, ?_, counted, ?_, ?_⟩
    · have below : arrays.currPivot < numAlloc := by
        have := tracks.currPivot
        omega
      have fits := caps
      rw [← tracks.bnSizeSoFar, ← tracks.numLeInCurrBn] at fits
      simp only [rebalanceStep, invariant_of room, bind_runs]
      simp only [countedLeSize] at fits
      rw [if_neg fits]
      simp only [invariant_of below, Option.bind_some]
      rfl
    · rw [List.append_assoc]
    · intro rest
      rw [cutGroups, if_neg (by simpa [capsOff] using caps)]

/-- The loop ends with arrays that describe all groups. -/
theorem Tracks.loop (basementnodesize : Nat) {numAlloc : Nat} (klpairs : List (Klpair Key)) :
    ∀ {done : List (List (Klpair Key))} {current : List (Klpair Key)} {arrays : RebalanceArrays}
      {i : Nat}, Tracks sizes done current arrays → i = (done.flatten ++ current).length →
      i + klpairs.length ≤ numAlloc →
      ∃ done' current' arrays',
        rebalanceLoop sizes basementnodesize numAlloc klpairs i arrays = some arrays' ∧
        Tracks sizes done' current' arrays' ∧
        done' ++ [current'] =
          done ++ cutGroups (capsOff sizes basementnodesize) current klpairs := by
  -- By induction on the entries that are left.
  induction klpairs with
  | nil => exact fun {done current arrays i} tracks _ _ => ⟨done, current, arrays, rfl, tracks, rfl⟩
  | cons klpair rest ih =>
    intro done current arrays i tracks here room
    rw [List.length_cons] at room
    obtain ⟨done', current', arrays', stepped, tracks', filled, groups⟩ :=
      tracks.step basementnodesize here (show i < numAlloc by omega) klpair
    obtain ⟨final, last, arrays'', looped, ended, same⟩ :=
      ih tracks' (i := i + 1) (by rw [filled, List.length_append, ← here]; rfl) (by omega)
    refine ⟨final, last, arrays'', ?_, ended, ?_⟩
    · rw [rebalanceLoop, stepped]
      exact looped
    · rw [same, groups]

/-- The items after some groups are the items of the other groups. -/
theorem drop_flatten {Item : Type} (groups : List (List Item)) (i : Nat) :
    groups.flatten.drop (groups.take i).flatten.length = (groups.drop i).flatten := by
  calc groups.flatten.drop (groups.take i).flatten.length
      = ((groups.take i).flatten ++ (groups.drop i).flatten).drop
          (groups.take i).flatten.length := by
        rw [← List.flatten_append, List.take_append_drop]
    _ = (groups.drop i).flatten := List.drop_left

/-- A key with the part of its leaf entry that its counted size covers. -/
def copiedKlpair (klpair : Klpair Key) : Klpair Key :=
  (klpair.1, klpair.2.take (countedLeSize klpair))

/-- A new basement node with the entries of a group. -/
def rebuiltBasement (seqinsert maxMsn : Nat) (group : List (Klpair Key)) : BasementNode Key where
  klpairs := group.map copiedKlpair
  maxMsnApplied := maxMsn
  seqinsert := seqinsert

/-- Copying a group with the sizes that were noted for it fills its basement node. -/
theorem setContents_group (group : List (Klpair Key)) :
    setContentsAsCloneOfSortedArray group (group.map countedLeSize)
      (group.map countedLeSize).sum = some (group.map copiedKlpair) := by
  rw [setContentsAsCloneOfSortedArray, invariant_of (Nat.le_refl _)]
  simp only [bind_runs, List.zipWith_map_right, List.zipWith_self]
  rfl

section Fill

variable {klpairs last : List (Klpair Key)}

section

variable (tracks : Tracks sizes done last arrays)
include tracks

/-- The index at which a basement node starts follows from the pivot before it. -/
theorem Tracks.currStart {i : Nat} (within : i ≤ done.length) :
    (if i = 0 then 0 else arrays.newPivots (i - 1) + 1) =
      ((done ++ [last]).take i).flatten.length := by
  rw [List.take_append_of_le_length within]
  rcases Nat.eq_zero_or_pos i with rfl | later
  · rfl
  · rw [if_neg (Nat.ne_of_gt later), tracks.newPivots (i - 1) (by omega),
      Nat.sub_add_cancel later]

/-- The index at which a basement node ends follows from its pivot. -/
theorem Tracks.currEnd (all : done.flatten ++ last = klpairs) {i : Nat} (within : i ≤ done.length) :
    (if i = arrays.currPivot then klpairs.length else arrays.newPivots i + 1) =
      ((done ++ [last]).take (i + 1)).flatten.length := by
  -- The last basement node has no pivot and ends where the entries do.
  rw [tracks.currPivot]
  split
  · rename_i final
    rw [List.take_of_length_le (by simp [final]), List.flatten_append, List.flatten_singleton, all]
  · rename_i early
    rw [List.take_append_of_le_length (by omega), tracks.newPivots i (by omega)]

/-- The sizes that were noted for the entries of a group are those of its entries. -/
theorem Tracks.sizesOf {i : Nat} {group : List (Klpair Key)}
    (here : (done ++ [last])[i]? = some group) :
    (List.range' ((done ++ [last]).take i).flatten.length group.length).map arrays.leSizes =
      group.map countedLeSize := by
  -- Place by place, the noted size is that of the entry there.
  apply List.ext_getElem (by simp)
  intro k inRange inGroup
  rw [List.length_map] at inGroup
  have entry : (done.flatten ++ last)[((done ++ [last]).take i).flatten.length + k]? =
      some group[k] := by
    have tail := drop_flatten (done ++ [last]) i
    rw [List.drop_eq_getElem_cons (List.getElem?_eq_some_iff.mp here).1,
      (List.getElem?_eq_some_iff.mp here).2, List.flatten_cons] at tail
    rw [List.flatten_append, List.flatten_singleton] at tail
    rw [← List.getElem?_drop, tail, List.getElem?_append_left inGroup,
      List.getElem?_eq_getElem inGroup]
  rw [List.getElem_map, List.getElem_map, List.getElem_range', Nat.one_mul]
  exact tracks.leSizes _ _ entry

/-- The basement nodes from one on hold the groups from that one on. -/
theorem Tracks.fill (all : done.flatten ++ last = klpairs) (seqinsert maxMsn count : Nat) : ∀ i,
    i + count = (done ++ [last]).length →
    fillBasements klpairs arrays seqinsert maxMsn count i
      ((done ++ [last]).take i).flatten.length =
        some (((done ++ [last]).drop i).map (rebuiltBasement seqinsert maxMsn)) := by
  induction count with
  | zero =>
    intro i final
    rw [List.drop_of_length_le (by omega)]
    rfl
  | succ count ih =>
    intro i most
    have inside : i < (done ++ [last]).length := by omega
    have within : i ≤ done.length := by
      rw [List.length_append, List.length_singleton] at inside
      omega
    obtain ⟨group, here⟩ : ∃ group, (done ++ [last])[i]? = some group :=
      ⟨_, List.getElem?_eq_getElem inside⟩
    have noted : Noted arrays i group := by
      rcases Nat.lt_or_ge i done.length with early | final
      · rw [List.getElem?_append_left early] at here
        exact tracks.doneNoted i group here
      · obtain rfl : i = done.length := by omega
        rw [List.getElem?_append_right (Nat.le_refl _), Nat.sub_self] at here
        cases here
        exact tracks.currentNoted
    -- The groups up to the next one end where this one does.
    have cut : (done ++ [last]).drop i = group :: (done ++ [last]).drop (i + 1) := by
      rw [List.drop_eq_getElem_cons inside, (List.getElem?_eq_some_iff.mp here).2]
    have next : ((done ++ [last]).take (i + 1)).flatten.length =
        ((done ++ [last]).take i).flatten.length + group.length := by
      rw [List.take_add_one, here, Option.toList_some, List.flatten_append,
        List.flatten_singleton, List.length_append]
    have entries : (klpairs.drop ((done ++ [last]).take i).flatten.length).take group.length =
        group := by
      have tail := drop_flatten (done ++ [last]) i
      rw [List.flatten_append, List.flatten_singleton, all, cut, List.flatten_cons] at tail
      rw [tail, List.take_left]
    rw [fillBasements, tracks.currStart within, tracks.currEnd all within, next,
      Nat.add_sub_cancel_left, noted.numLes, noted.leSize, cut]
    simp only [invariant_of, bind_runs, entries, tracks.sizesOf here, setContents_group]
    rw [← next, ih (i + 1) (by omega)]
    rfl

end

end Fill

end LeafNode

end Tokuft
