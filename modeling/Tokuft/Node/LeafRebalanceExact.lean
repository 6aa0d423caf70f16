import Tokuft.Node.DividedLeaf
import Tokuft.Node.LeafRebalance

/-! When a rebalance of a leaf keeps its entries in basement nodes that fit. -/

namespace Tokuft

namespace LeafNode

variable {Key : Type} (sizes : KeySizes Key) (basementnodesize : Nat)

/-- What dividing the entries of a leaf into basement nodes of a size is meant to achieve. -/
structure Rebalanced (leaf after : LeafNode Key) : Prop where
  contents : after.klpairs = leaf.klpairs
  children : after.basements ≠ []
  pivotCount : after.pivotkeys.length + 1 = after.basements.length
  lastKeys : ∀ (i : Nat) (pivot : Key), after.pivotkeys[i]? = some pivot →
    ∃ (basement : BasementNode Key) (klpair : Klpair Key), after.basements[i]? = some basement ∧
      basement.klpairs.getLast? = some klpair ∧ klpair.1 = pivot
  used : after.basements.length ≠ 1 → ∀ basement ∈ after.basements, basement.klpairs ≠ []
  fits : ∀ basement ∈ after.basements, 1 < basement.klpairs.length →
    (basement.klpairs.map (klpairDisksize sizes)).sum ≤ basementnodesize
  maxMsn : ∀ basement ∈ after.basements,
    (∀ old ∈ leaf.basements, old.maxMsnApplied ≤ basement.maxMsnApplied) ∧
    ∃ old ∈ leaf.basements, basement.maxMsnApplied = old.maxMsnApplied

/-- Wherever an entry is too much for a basement node, the size in 32 bits is too much as well. -/
def NeverWraps (size : Nat) : List (Klpair Key) → Prop
  | [] => True
  | klpair :: rest =>
    if size ≠ 0 ∧ basementnodesize < size + klpairDisksize sizes klpair then
      basementnodesize < (size + leafentryDisksize klpair.2) % 2 ^ 32 + 4 + sizes.key klpair.1 ∧
      NeverWraps (klpairDisksize sizes klpair) rest
    else NeverWraps (size + klpairDisksize sizes klpair) rest

instance decidableNeverWraps (size : Nat) : ∀ klpairs : List (Klpair Key),
    Decidable (NeverWraps sizes basementnodesize size klpairs)
  | [] => isTrue trivial
  | klpair :: rest =>
    have := decidableNeverWraps (klpairDisksize sizes klpair) rest
    have := decidableNeverWraps (size + klpairDisksize sizes klpair) rest
    inferInstanceAs (Decidable
      (if size ≠ 0 ∧ basementnodesize < size + klpairDisksize sizes klpair then _ ∧ _ else _))

/-- The number of basement nodes of a size that entries take, after what is in the first one. -/
def basementsNeeded (size : Nat) : List (Klpair Key) → Nat
  | [] => 1
  | klpair :: rest =>
    if size ≠ 0 ∧ basementnodesize < size + klpairDisksize sizes klpair then
      basementsNeeded (klpairDisksize sizes klpair) rest + 1
    else basementsNeeded (size + klpairDisksize sizes klpair) rest

/-- The sizes and counts of a rebalance stay within their numbers. -/
structure CountsExactly (klpairs : List (Klpair Key)) : Prop where
  few : klpairs.length < 2 ^ 32
  small : ∀ klpair ∈ klpairs, leafentryDisksize klpair.2 < 2 ^ 32
  exact : NeverWraps sizes basementnodesize 0 klpairs
  basements : basementsNeeded sizes basementnodesize 0 klpairs < 2 ^ 31

variable {sizes basementnodesize} {current klpairs : List (Klpair Key)}

/-- Only no entries at all take no space. -/
theorem sum_klpairDisksize_ne_zero :
    (current.map (klpairDisksize sizes)).sum ≠ 0 ↔ current.length ≠ 0 := by
  cases current with
  | nil => simp
  | cons klpair rest =>
    simp only [List.map_cons, List.sum_cons, klpairDisksize, List.length_cons]
    omega

/-- With small entries the counted size is the size modulo 2³². -/
theorem countedSize_eq (small : ∀ klpair ∈ current, leafentryDisksize klpair.2 < 2 ^ 32) :
    countedSize sizes current = (current.map (klpairDisksize sizes)).sum % 2 ^ 32 := by
  rw [countedSize]
  congr 2
  apply List.map_congr_left
  intro klpair member
  rw [countedLeSize, Nat.mod_eq_of_lt (small klpair member), klpairDisksize]

/-- A rebalance caps off a basement node by the size modulo 2³². -/
theorem capsOff_iff (sizes : KeySizes Key) (basementnodesize : Nat)
    (small : ∀ klpair ∈ current, leafentryDisksize klpair.2 < 2 ^ 32)
    (klpair : Klpair Key) : capsOff sizes basementnodesize current klpair = true ↔
      basementnodesize < ((current.map (klpairDisksize sizes)).sum +
        leafentryDisksize klpair.2) % 2 ^ 32 + 4 + sizes.key klpair.1 ∧ current.length ≠ 0 := by
  rw [capsOff, decide_eq_true_iff, countedSize_eq small, countedLeSize, ← Nat.add_mod]

/-- An entry that fits is not too much as counted in 32 bits. -/
theorem not_capsOff (small : ∀ klpair ∈ current, leafentryDisksize klpair.2 < 2 ^ 32)
    {klpair : Klpair Key} (fits : ¬((current.map (klpairDisksize sizes)).sum ≠ 0 ∧
      basementnodesize < (current.map (klpairDisksize sizes)).sum + klpairDisksize sizes klpair)) :
    ¬capsOff sizes basementnodesize current klpair = true := by
  rw [capsOff_iff _ _ small]
  intro both
  apply fits
  refine ⟨sum_klpairDisksize_ne_zero.mpr both.2, Nat.lt_of_lt_of_le both.1 ?_⟩
  have := Nat.mod_le ((current.map (klpairDisksize sizes)).sum + leafentryDisksize klpair.2)
    (2 ^ 32)
  rw [klpairDisksize]
  omega

/-- The sizes of entries with one more add up. -/
theorem sum_klpairDisksize_concat (klpair : Klpair Key) :
    ((current ++ [klpair]).map (klpairDisksize sizes)).sum =
      (current.map (klpairDisksize sizes)).sum + klpairDisksize sizes klpair := by
  simp

/-- Entries are small together with one more that is. -/
theorem small_concat {klpair : Klpair Key}
    (small : ∀ klpair ∈ current, leafentryDisksize klpair.2 < 2 ^ 32)
    (one : leafentryDisksize klpair.2 < 2 ^ 32) :
    ∀ other ∈ current ++ [klpair], leafentryDisksize other.2 < 2 ^ 32 := by
  intro other member
  rcases List.mem_append.mp member with old | new
  · exact small other old
  · exact List.mem_singleton.mp new ▸ one

/-- A group of more than one entry fits into a basement node. -/
def GroupFits (sizes : KeySizes Key) (basementnodesize : Nat) (group : List (Klpair Key)) :
    Prop :=
  1 < group.length → (group.map (klpairDisksize sizes)).sum ≤ basementnodesize

/-- Where no size wraps around, every group fits, and there are as many as needed. -/
theorem groups_fit (small : ∀ klpair ∈ klpairs, leafentryDisksize klpair.2 < 2 ^ 32) :
    ∀ current : List (Klpair Key),
      (∀ klpair ∈ current, leafentryDisksize klpair.2 < 2 ^ 32) →
      GroupFits sizes basementnodesize current →
      NeverWraps sizes basementnodesize (current.map (klpairDisksize sizes)).sum klpairs →
      (cutGroups (capsOff sizes basementnodesize) current klpairs).length =
        basementsNeeded sizes basementnodesize (current.map (klpairDisksize sizes)).sum klpairs ∧
      ∀ group ∈ cutGroups (capsOff sizes basementnodesize) current klpairs,
        GroupFits sizes basementnodesize group := by
  induction klpairs with
  | nil =>
    intro current _ fits _
    refine ⟨rfl, fun group member => ?_⟩
    rw [cutGroups, List.mem_singleton] at member
    exact member ▸ fits
  | cons klpair rest ih =>
    intro current smallCurrent fits never
    have one := small klpair List.mem_cons_self
    have later := ih fun other member => small other (List.mem_cons_of_mem _ member)
    have caps := capsOff_iff sizes basementnodesize smallCurrent klpair
    rw [NeverWraps] at never
    rw [cutGroups, basementsNeeded]
    have single : ([klpair].map (klpairDisksize sizes)).sum = klpairDisksize sizes klpair := by
      simp
    by_cases much : (current.map (klpairDisksize sizes)).sum ≠ 0 ∧
        basementnodesize < (current.map (klpairDisksize sizes)).sum + klpairDisksize sizes klpair
    -- The entry is too much for the current group and starts another.
    · rw [if_pos much] at never ⊢
      rw [if_pos (caps.mpr ⟨never.1, sum_klpairDisksize_ne_zero.mp much.1⟩)]
      obtain ⟨count, fit⟩ := later [klpair]
        (fun other member => List.mem_singleton.mp member ▸ one)
        (fun long => absurd long (Nat.lt_irrefl 1)) (by rw [single]; exact never.2)
      rw [single] at count
      refine ⟨congrArg (· + 1) count, fun group member => ?_⟩
      rcases List.mem_cons.mp member with rfl | other
      · exact fits
      · exact fit group other
    -- The entry joins the current group, also as counted in 32 bits.
    · rw [if_neg much] at never ⊢
      have joins := not_capsOff smallCurrent much
      rw [if_neg joins, ← sum_klpairDisksize_concat]
      rw [← sum_klpairDisksize_concat] at never
      refine later _ (small_concat smallCurrent one) (fun long => ?_) never
      rw [sum_klpairDisksize_concat]
      have some : (current.map (klpairDisksize sizes)).sum ≠ 0 := by
        rw [sum_klpairDisksize_ne_zero]
        rw [List.length_append, List.length_singleton] at long
        omega
      exact Nat.le_of_not_lt fun big => much ⟨some, big⟩

/-- Where every group fits, no size wraps around. -/
theorem never_of_groups (small : ∀ klpair ∈ klpairs, leafentryDisksize klpair.2 < 2 ^ 32) :
    ∀ current : List (Klpair Key),
      (∀ klpair ∈ current, leafentryDisksize klpair.2 < 2 ^ 32) →
      (∀ group ∈ cutGroups (capsOff sizes basementnodesize) current klpairs,
        GroupFits sizes basementnodesize group) →
      NeverWraps sizes basementnodesize (current.map (klpairDisksize sizes)).sum klpairs := by
  induction klpairs with
  | nil => exact fun _ _ _ => trivial
  | cons klpair rest ih =>
    intro current smallCurrent fits
    have one := small klpair List.mem_cons_self
    have later := ih fun other member => small other (List.mem_cons_of_mem _ member)
    have caps := capsOff_iff sizes basementnodesize smallCurrent klpair
    rw [cutGroups] at fits
    rw [NeverWraps]
    have single : ([klpair].map (klpairDisksize sizes)).sum = klpairDisksize sizes klpair := by
      simp
    by_cases much : (current.map (klpairDisksize sizes)).sum ≠ 0 ∧
        basementnodesize < (current.map (klpairDisksize sizes)).sum + klpairDisksize sizes klpair
    · rw [if_pos much]
      by_cases capped : capsOff sizes basementnodesize current klpair = true
      · rw [if_pos capped] at fits
        have next := later [klpair]
          (fun other member => List.mem_singleton.mp member ▸ one)
          (fun group member => fits group (List.mem_cons_of_mem _ member))
        rw [single] at next
        exact ⟨(caps.mp capped).1, next⟩
      -- Without a cap the group of the entry would be too large.
      · rw [if_neg capped] at fits
        obtain ⟨more, others, cuts⟩ := head_cutGroups (capsOff sizes basementnodesize)
          (current ++ [klpair]) rest
        have fit := fits (current ++ [klpair] ++ more) (by rw [cuts]; exact List.mem_cons_self)
        have long : 1 < (current ++ [klpair] ++ more).length := by
          have := sum_klpairDisksize_ne_zero.mp much.1
          simp only [List.length_append, List.length_singleton]
          omega
        have size := fit long
        rw [List.map_append, List.sum_append, sum_klpairDisksize_concat] at size
        omega
    · rw [if_neg much]
      have joins := not_capsOff smallCurrent much
      rw [if_neg joins] at fits
      rw [← sum_klpairDisksize_concat]
      exact later _ (small_concat smallCurrent one) fits

/-- The largest number of a list is a bound of it, and is in it or is where the search began. -/
theorem foldl_larger (list : List Nat) : ∀ start,
    (∀ x, x = start ∨ x ∈ list →
      x ≤ list.foldl (fun max curr => if max < curr then curr else max) start) ∧
    (list.foldl (fun max curr => if max < curr then curr else max) start = start ∨
      list.foldl (fun max curr => if max < curr then curr else max) start ∈ list) := by
  -- By induction on the list: the number in hand is never smaller than those gone through.
  induction list with
  | nil => exact fun start => ⟨fun x known => by simp_all, .inl rfl⟩
  | cons first rest ih =>
    intro start
    rw [List.foldl_cons]
    obtain ⟨bound, found⟩ := ih (if start < first then first else start)
    by_cases larger : start < first
    · rw [if_pos larger] at bound found ⊢
      refine ⟨fun x known => ?_, .inr ?_⟩
      · rcases known with rfl | member
        · exact Nat.le_trans (Nat.le_of_lt larger) (bound first (.inl rfl))
        · rcases List.mem_cons.mp member with rfl | later
          · exact bound x (.inl rfl)
          · exact bound x (.inr later)
      · rcases found with same | later
        · rw [same]
          exact List.mem_cons_self
        · exact List.mem_cons_of_mem _ later
    · rw [if_neg larger] at bound found ⊢
      refine ⟨fun x known => ?_, found.imp_right (List.mem_cons_of_mem _)⟩
      rcases known with rfl | member
      · exact bound x (.inl rfl)
      · rcases List.mem_cons.mp member with rfl | later
        · exact Nat.le_trans (Nat.le_of_not_lt larger) (bound start (.inl rfl))
        · exact bound x (.inr later)

/-- The largest message number of the basement nodes of a leaf. -/
def largestMsn (leaf : LeafNode Key) : Nat :=
  (leaf.basements.map BasementNode.maxMsnApplied).foldl
    (fun max curr => if max < curr then curr else max) 0

variable {leaf : LeafNode Key}

/-- The largest message number bounds those of all basement nodes and is that of one. -/
theorem largestMsn_spec (some : leaf.basements ≠ []) :
    (∀ old ∈ leaf.basements, old.maxMsnApplied ≤ leaf.largestMsn) ∧
    ∃ old ∈ leaf.basements, leaf.largestMsn = old.maxMsnApplied := by
  obtain ⟨bound, found⟩ := foldl_larger (leaf.basements.map BasementNode.maxMsnApplied) 0
  have bounds : ∀ old ∈ leaf.basements, old.maxMsnApplied ≤ leaf.largestMsn :=
    fun old member => bound _ (.inr (List.mem_map_of_mem member))
  refine ⟨bounds, ?_⟩
  rcases found with zero | member
  -- Where nothing is larger than zero, every basement node has that number.
  · obtain ⟨old, member⟩ := List.exists_mem_of_ne_nil _ some
    refine ⟨old, member, ?_⟩
    have low := bounds old member
    rw [largestMsn, zero] at low ⊢
    exact (Nat.le_zero.mp low).symm
  · obtain ⟨old, inLeaf, same⟩ := List.mem_map.mp member
    exact ⟨old, inLeaf, same.symm⟩

/-- Reading a value for every item of a list gives a list of such values. -/
theorem mapM_of_each {Item Value : Type} {read : Item → Option Value} {P : Item → Value → Prop}
    (items : List Item) (each : ∀ item ∈ items, ∃ value, read item = some value ∧ P item value) :
    ∃ values, items.mapM read = some values ∧ List.Forall₂ P items values := by
  -- By induction on the items.
  induction items with
  | nil => exact ⟨[], rfl, .nil⟩
  | cons item rest ih =>
    obtain ⟨value, reads, fine⟩ := each item List.mem_cons_self
    obtain ⟨values, all, fines⟩ := ih fun other member => each other (List.mem_cons_of_mem _ member)
    refine ⟨value :: values, ?_, .cons fine fines⟩
    rw [List.mapM_cons, reads, bind_of_some, all]
    rfl

/-- The last entry of a group is the one that its pivot was noted for. -/
theorem Tracks.pivotAt {done : List (List (Klpair Key))} {last : List (Klpair Key)}
    {arrays : RebalanceArrays} (tracks : Tracks sizes done last arrays)
    (all : done.flatten ++ last = klpairs) {i : Nat} (below : i < done.length) :
    ∃ klpair, klpairs[arrays.newPivots i]? = some klpair ∧ done[i].getLast? = some klpair := by
  -- A pivot is noted where a group ends, and no group is empty.
  have used := tracks.used done[i] (List.getElem_mem below)
  refine ⟨done[i].getLast used, ?_, List.getLast?_eq_some_getLast used⟩
  have upTo := tracks.newPivots i below
  rw [List.take_add_one, List.getElem?_eq_getElem below, Option.toList_some, List.flatten_append,
    List.flatten_singleton] at upTo
  have prefixed : done.flatten =
    (done.take i).flatten ++ done[i] ++ (done.drop (i + 1)).flatten := by
    conv => lhs; rw [← List.take_append_drop i done, List.drop_eq_getElem_cons below]
    rw [List.flatten_append, List.flatten_cons, List.append_assoc]
  have positive := List.length_pos_iff.mpr used
  rw [List.length_append] at upTo
  rw [← all, prefixed, List.append_assoc, List.append_assoc,
    List.getElem?_append_right (by omega), List.getElem?_append_left (by omega),
    List.getLast_eq_getElem, List.getElem?_eq_getElem (by omega)]
  congr 2
  omega

/-- The arrays have a slot for every entry when the entries are counted in 32 bits. -/
theorem room_iff (count : Nat) :
    count ≤ (if count % 2 ^ 32 = 0 then 1 else count % 2 ^ 32) ↔ count < 2 ^ 32 := by
  have := Nat.mod_lt count (show 0 < 2 ^ 32 by decide)
  constructor
  · intro room
    split at room <;> omega
  · intro few
    rw [Nat.mod_eq_of_lt few]
    split <;> omega

/-- The loop over all entries describes all groups. -/
theorem loop_groups (sizes : KeySizes Key) (basementnodesize : Nat)
    (klpairs : List (Klpair Key)) {numAlloc : Nat} (room : klpairs.length ≤ numAlloc) :
      ∃ done last arrays,
      rebalanceLoop sizes basementnodesize numAlloc klpairs 0 .init = some arrays ∧
      Tracks sizes done last arrays ∧
      done ++ [last] = rebalanceGroups sizes basementnodesize klpairs ∧
      done.flatten ++ last = klpairs := by
  obtain ⟨done, last, arrays, looped, tracks, groups⟩ := Tracks.loop basementnodesize klpairs
    (show Tracks sizes [] [] RebalanceArrays.init from .init) rfl
    (show 0 + klpairs.length ≤ numAlloc by omega)
  refine ⟨done, last, arrays, looped, tracks, groups, ?_⟩
  rw [← List.flatten_singleton (l := last), ← List.flatten_append, groups, List.nil_append,
    flatten_cutGroups, List.nil_append]

/-- A rebalance that ends has no more entries and basement nodes than it can count. -/
theorem counts_of_leafRebalance {after : LeafNode Key}
    (rebalanced : leafRebalance sizes basementnodesize leaf = some after) :
    leaf.klpairs.length < 2 ^ 32 ∧
    (rebalanceGroups sizes basementnodesize leaf.klpairs).length < 2 ^ 31 := by
  simp only [leafRebalance, bind_inv, invariant_eq_some] at rebalanced
  obtain ⟨_, room, arrays, looped, _, _, _, few, _⟩ := rebalanced
  refine ⟨(room_iff _).mp room, ?_⟩
  obtain ⟨done, last, arrays', looped', tracks, groups, _⟩ :=
    loop_groups sizes basementnodesize leaf.klpairs room
  cases looped.symm.trans looped'
  rw [← groups, List.length_append, List.length_singleton, ← tracks.currPivot]
  exact few

/-- A rebalance gives each group a basement node, and the last keys of all but one are pivots. -/
theorem leafRebalance_eq (children : leaf.basements ≠ []) (few : leaf.klpairs.length < 2 ^ 32)
    (groupsFew : (rebalanceGroups sizes basementnodesize leaf.klpairs).length < 2 ^ 31) :
    ∃ (pivotkeys : List Key) (seqinsert : Nat),
      List.Forall₂ (fun i pivot => ∃ (group : List (Klpair Key)) (klpair : Klpair Key),
        (rebalanceGroups sizes basementnodesize leaf.klpairs)[i]? = some group ∧
        group.getLast? = some klpair ∧ klpair.1 = pivot)
        (List.range ((rebalanceGroups sizes basementnodesize leaf.klpairs).length - 1))
        pivotkeys ∧
      leafRebalance sizes basementnodesize leaf = some {
        basements := (rebalanceGroups sizes basementnodesize leaf.klpairs).map
          (rebuiltBasement seqinsert leaf.largestMsn)
        pivotkeys
        maxMsnAppliedToNodeOnDisk := leaf.largestMsn } := by
  have room := (room_iff _).mpr few
  obtain ⟨done, last, arrays, looped, tracks, groups, all⟩ :=
    loop_groups sizes basementnodesize leaf.klpairs room
  rw [← groups] at groupsFew ⊢
  rw [List.length_append, List.length_singleton] at groupsFew
  -- The pivots are the last keys of the groups that were capped off.
  have each : ∀ i ∈ List.range arrays.currPivot, ∃ pivot,
      (do let klpair ← leaf.klpairs[arrays.newPivots i]?; return klpair.1 : Option Key) =
        some pivot ∧ ∃ (group : List (Klpair Key)) (klpair : Klpair Key),
          (done ++ [last])[i]? = some group ∧ group.getLast? = some klpair ∧
          klpair.1 = pivot := by
    intro i member
    rw [tracks.currPivot, List.mem_range] at member
    obtain ⟨klpair, found, final⟩ := tracks.pivotAt all member
    refine ⟨klpair.1, by rw [found]; rfl, done[i], klpair, ?_, final, rfl⟩
    rw [List.getElem?_append_left member, List.getElem?_eq_getElem member]
  obtain ⟨pivotkeys, collected, lasts⟩ := mapM_of_each _ each
  have filled := tracks.fill all (leaf.basements.getLast children).seqinsert leaf.largestMsn
    (arrays.currPivot + 1) 0 (by
      rw [tracks.currPivot, List.length_append, List.length_singleton, Nat.zero_add])
  refine ⟨pivotkeys, (leaf.basements.getLast children).seqinsert, ?_, ?_⟩
  · rw [tracks.currPivot] at lasts
    rw [List.length_append, List.length_singleton, Nat.add_sub_cancel]
    exact lasts
  · rw [leafRebalance]
    simp only [invariant_of room, Option.bind_eq_bind, Option.bind_some, looped,
      List.getLast?_eq_some_getLast children]
    rw [invariant_of (by rw [tracks.currPivot]; exact groupsFew), Option.bind_some]
    simp only [Option.bind_eq_bind] at collected
    rw [collected, Option.bind_some]
    have filled' : fillBasements leaf.klpairs arrays
        (leaf.basements.getLast children).seqinsert leaf.largestMsn (arrays.currPivot + 1) 0 0 =
          some ((done ++ [last]).map (rebuiltBasement (leaf.basements.getLast children).seqinsert
            leaf.largestMsn)) := filled
    rw [largestMsn] at filled' ⊢
    rw [filled']
    rfl

/-- Copying keeps an entry whose size is counted exactly, and no other. -/
theorem copiedKlpair_eq_iff (klpair : Klpair Key) :
    copiedKlpair klpair = klpair ↔ leafentryDisksize klpair.2 < 2 ^ 32 := by
  -- The copy takes as many bytes as the size counted in 32 bits says.
  obtain ⟨key, le⟩ := klpair
  rw [copiedKlpair, Prod.mk.injEq, List.take_eq_self_iff]
  simp only [countedLeSize, leafentryDisksize, true_and]
  have := Nat.mod_lt le.length (show 0 < 2 ^ 32 by decide)
  constructor
  · intro covered
    omega
  · intro small
    exact Nat.le_of_eq (Nat.mod_eq_of_lt small).symm

/-- The new basement nodes hold copies of all entries. -/
theorem rebuilt_klpairs (seqinsert maxMsn : Nat) (groups : List (List (Klpair Key))) :
    (groups.map (rebuiltBasement seqinsert maxMsn)).flatMap BasementNode.klpairs =
      groups.flatten.map copiedKlpair := by
  rw [List.flatMap_map, List.map_flatten, List.flatMap_def]
  rfl

/-- The groups of a rebalance hold all entries. -/
theorem flatten_rebalanceGroups (sizes : KeySizes Key) (basementnodesize : Nat)
    (klpairs : List (Klpair Key)) :
    (rebalanceGroups sizes basementnodesize klpairs).flatten = klpairs := by
  rw [rebalanceGroups, flatten_cutGroups, List.nil_append]

/-- Without entries there is one group, and no other group is ever empty. -/
theorem used_of_rebalanceGroups
    (several : (rebalanceGroups sizes basementnodesize klpairs).length ≠ 1) :
    ∀ group ∈ rebalanceGroups sizes basementnodesize klpairs, group ≠ [] := by
  have some : klpairs ≠ [] := by
    rintro rfl
    exact several rfl
  exact fun group member => ne_nil_of_mem_cutGroups (fun _ => by simp [capsOff]) (.inr some) member

/-- The entries of a group that is copied exactly are its own. -/
theorem map_copiedKlpair {group : List (Klpair Key)}
    (small : ∀ klpair ∈ group, leafentryDisksize klpair.2 < 2 ^ 32) :
    group.map copiedKlpair = group :=
  (List.map_congr_left fun klpair member =>
    (copiedKlpair_eq_iff klpair).mpr (small klpair member)).trans (List.map_id _)

/-- A rebalance that achieves what it is meant to counts exactly. -/
theorem countsExactly_of_rebalanced {after : LeafNode Key} (children : leaf.basements ≠ [])
    (rebalanced : leafRebalance sizes basementnodesize leaf = some after)
    (fine : Rebalanced sizes basementnodesize leaf after) :
    CountsExactly sizes basementnodesize leaf.klpairs := by
  obtain ⟨few, groupsFew⟩ := counts_of_leafRebalance rebalanced
  obtain ⟨pivotkeys, seqinsert, _, built⟩ := leafRebalance_eq children few groupsFew
  cases rebalanced.symm.trans built
  -- Every entry is copied as a whole, so its size is counted exactly.
  have copied : leaf.klpairs.map copiedKlpair = leaf.klpairs := by
    have kept := fine.contents
    rw [klpairs, rebuilt_klpairs, flatten_rebalanceGroups] at kept
    exact kept
  have small : ∀ klpair ∈ leaf.klpairs, leafentryDisksize klpair.2 < 2 ^ 32 := by
    intro klpair member
    rw [← copiedKlpair_eq_iff]
    exact List.map_inj_left.mp (copied.trans (List.map_id _).symm) klpair member
  have fit : ∀ group ∈ rebalanceGroups sizes basementnodesize leaf.klpairs,
      GroupFits sizes basementnodesize group := by
    intro group member long
    have inLeaf : ∀ klpair ∈ group, leafentryDisksize klpair.2 < 2 ^ 32 := fun klpair inGroup => by
      apply small
      rw [← flatten_rebalanceGroups sizes basementnodesize leaf.klpairs]
      exact List.mem_flatten_of_mem member inGroup
    have fits := fine.fits _ (List.mem_map_of_mem member)
    rw [rebuiltBasement, map_copiedKlpair inLeaf] at fits
    exact fits long
  have never := never_of_groups small [] (by simp) fit
  refine ⟨few, small, never, ?_⟩
  have counted := (groups_fit small [] (by simp) (by simp [GroupFits]) never).1
  rw [List.map_nil, List.sum_nil] at counted
  rw [← counted]
  exact groupsFew

/-- A rebalance that counts exactly achieves what it is meant to. -/
theorem rebalanced_of_countsExactly (children : leaf.basements ≠ [])
    (exact : CountsExactly sizes basementnodesize leaf.klpairs) :
    ∃ after, leafRebalance sizes basementnodesize leaf = some after ∧
      Rebalanced sizes basementnodesize leaf after := by
  -- With exact counts the loop cuts where the sizes say, so that all groups are small.
  obtain ⟨counted, fit⟩ :=
    groups_fit exact.small [] (by simp) (by simp [GroupFits]) exact.exact
  have groupsFew : (rebalanceGroups sizes basementnodesize leaf.klpairs).length < 2 ^ 31 := by
    rw [rebalanceGroups, counted]
    exact exact.basements
  obtain ⟨pivotkeys, seqinsert, lasts, built⟩ := leafRebalance_eq children exact.few groupsFew
  have smallGroup : ∀ group ∈ rebalanceGroups sizes basementnodesize leaf.klpairs,
      group.map copiedKlpair = group := fun group member => by
    apply map_copiedKlpair
    intro klpair inGroup
    apply exact.small
    rw [← flatten_rebalanceGroups sizes basementnodesize leaf.klpairs]
    exact List.mem_flatten_of_mem member inGroup
  have some : 0 < (rebalanceGroups sizes basementnodesize leaf.klpairs).length := by
    obtain ⟨more, rest, cuts⟩ := head_cutGroups (capsOff sizes basementnodesize)
      [] leaf.klpairs
    rw [rebalanceGroups, cuts]
    exact Nat.zero_lt_succ _
  obtain ⟨sameLength, each⟩ := List.forall₂_iff_get.mp lasts
  rw [List.length_range] at sameLength
  refine ⟨_, built, ?_⟩
  constructor
  case contents =>
    rw [LeafNode.klpairs, rebuilt_klpairs, flatten_rebalanceGroups,
      map_copiedKlpair exact.small]
  case children =>
    exact List.length_pos_iff.mp (by rw [List.length_map]; exact some)
  case pivotCount =>
    rw [List.length_map, ← sameLength]
    omega
  case lastKeys =>
    intro i pivot found
    obtain ⟨inside, at_⟩ := List.getElem?_eq_some_iff.mp found
    have early : i < (rebalanceGroups sizes basementnodesize leaf.klpairs).length - 1 :=
      Nat.lt_of_lt_of_le inside (Nat.le_of_eq sameLength.symm)
    obtain ⟨group, klpair, here, final, same⟩ := each i (by rw [List.length_range]; exact early)
      inside
    rw [List.get_eq_getElem, List.getElem_range] at here
    have whole := smallGroup group (List.mem_of_getElem? here)
    refine ⟨rebuiltBasement seqinsert leaf.largestMsn group, klpair, ?_, ?_, same.trans at_⟩
    · rw [List.getElem?_map, here, Option.map_some]
    · rw [rebuiltBasement, whole]
      exact final
  case used =>
    intro several basement member
    rw [List.length_map] at several
    obtain ⟨group, inGroups, rfl⟩ := List.mem_map.mp member
    rw [rebuiltBasement, smallGroup group inGroups]
    exact used_of_rebalanceGroups several group inGroups
  case fits =>
    intro basement member long
    obtain ⟨group, inGroups, rfl⟩ := List.mem_map.mp member
    rw [rebuiltBasement, smallGroup group inGroups] at long ⊢
    exact fit group inGroups long
  case maxMsn =>
    intro basement member
    obtain ⟨group, inGroups, rfl⟩ := List.mem_map.mp member
    exact largestMsn_spec children

/-- A rebalance keeps the entries of a leaf in basement nodes that fit, with their pivots and the
largest message number, exactly when its sizes and counts stay within their numbers. -/
theorem leafRebalance_exact (leaf : LeafNode Key) (children : leaf.basements ≠ []) :
    (∃ after, leafRebalance sizes basementnodesize leaf = some after ∧
      Rebalanced sizes basementnodesize leaf after) ↔
    CountsExactly sizes basementnodesize leaf.klpairs :=
  ⟨fun ⟨_, rebalanced, fine⟩ => countsExactly_of_rebalanced children rebalanced fine,
    rebalanced_of_countsExactly children⟩

/-- Two entries in a leaf whose first basement node is empty go into basement nodes of their own. -/
theorem leafRebalance_exact_apart :
    ∃ after, leafRebalance ⟨fun _ => 1, by decide⟩ 10 {
      basements := [.createEmpty, ⟨[(false, [1, 2]), (true, [3, 4])], 7, 0⟩]
      pivotkeys := [false]
      maxMsnAppliedToNodeOnDisk := 7 } = some after ∧
    Rebalanced ⟨fun _ => 1, by decide⟩ 10 {
      basements := [.createEmpty, ⟨[(false, [1, 2]), (true, [3, 4])], 7, 0⟩]
      pivotkeys := [false]
      maxMsnAppliedToNodeOnDisk := 7 } after :=
  (leafRebalance_exact _ (List.cons_ne_nil _ _)).mpr
    ⟨by decide, by decide, by decide, by decide⟩

/-- A leaf with two entries of some sizes. -/
def twoEntries (first second : Nat) : LeafNode Bool where
  basements := [⟨[(false, List.replicate first 0), (true, List.replicate second 0)], 7, 0⟩]
  pivotkeys := []
  maxMsnAppliedToNodeOnDisk := 7

/-- Two entries that are too much for a basement node have to be too much in 32 bits as well. -/
theorem twoEntries_exact {eight : KeySizes Bool} {first second : Nat}
    (exact : CountsExactly eight basementnodesize (twoEntries first second).klpairs)
    (much : basementnodesize < first + 4 + eight.key false + second) :
    basementnodesize < (first + 4 + eight.key false + second) % 2 ^ 32 + 4 + eight.key true := by
  have never := exact.exact
  simp only [LeafNode.klpairs, twoEntries, List.flatMap_cons, List.flatMap_nil, List.append_nil,
    NeverWraps, klpairDisksize, leafentryDisksize, List.length_replicate, Nat.zero_add] at never
  rw [if_neg (fun both => both.1 rfl), if_pos ⟨by omega, by omega⟩] at never
  exact never.1

/-- An entry of nearly 2³² bytes and one of 2²⁵ bytes come into one basement node, as their sizes
add up to almost nothing in 32 bits. -/
theorem leafRebalance_overfull :
    ¬∃ after, leafRebalance ⟨fun _ => 8, by decide⟩ (2 ^ 17)
        (twoEntries (2 ^ 32 - 2 ^ 25) (2 ^ 25)) = some after ∧
      Rebalanced ⟨fun _ => 8, by decide⟩ (2 ^ 17)
        (twoEntries (2 ^ 32 - 2 ^ 25) (2 ^ 25)) after := by
  rintro ⟨after, rebalanced, fine⟩
  have exact := countsExactly_of_rebalanced (List.cons_ne_nil _ _) rebalanced fine
  have small := twoEntries_exact exact (by decide)
  revert small
  decide

variable {after : LeafNode Key} [LinearOrder Key]

/-- Basement nodes that end with their pivots divide increasing entries. -/
theorem Rebalanced.divided (rebalanced : Rebalanced sizes basementnodesize leaf after)
    (rise : leaf.klpairs.Pairwise fun one other => one.1 < other.1) : after.Divided := by
  have rise : after.klpairs.Pairwise fun one other => one.1 < other.1 := rebalanced.contents ▸ rise
  obtain ⟨within, across⟩ := List.pairwise_flatMap.mp rise
  -- Entries of an earlier basement node come before those of a later one.
  have before {i j : Nat} {early late : BasementNode Key} (less : i < j)
      (here : after.basements[i]? = some early) (there : after.basements[j]? = some late) :
      ∀ x ∈ early.klpairs, ∀ y ∈ late.klpairs, x.1 < y.1 := by
    obtain ⟨_, rfl⟩ := List.getElem?_eq_some_iff.mp here
    obtain ⟨_, rfl⟩ := List.getElem?_eq_some_iff.mp there
    exact List.pairwise_iff_getElem.mp across i j _ _ less
  refine ⟨rebalanced.children, .inl rebalanced.pivotCount, rise, ?_, ?_⟩
  · refine List.pairwise_iff_getElem.mpr fun i j first second less => ?_
    obtain ⟨_, _, here, last, same⟩ := rebalanced.lastKeys i _ (List.getElem?_eq_getElem first)
    obtain ⟨_, _, there, final, equal⟩ := rebalanced.lastKeys j _ (List.getElem?_eq_getElem second)
    rw [← same, ← equal]
    exact before less here there _ (List.mem_of_getLast? last) _ (List.mem_of_getLast? final)
  · intro i j basement pivot here found klpair member
    obtain ⟨other, last, there, final, rfl⟩ := rebalanced.lastKeys j pivot found
    refine ⟨fun le => ?_,
      fun less => before less there here _ (List.mem_of_getLast? final) _ member⟩
    rcases Nat.lt_or_eq_of_le le with less | rfl
    · exact le_of_lt (before less here there _ member _ (List.mem_of_getLast? final))
    · cases here.symm.trans there
      have sorted := within basement (List.mem_of_getElem? here)
      exact (around_last basement.klpairs [] (by simpa using sorted) final).1 klpair member

/-- After a rebalance of increasing entries, the pivots divide them, so that each is found. -/
theorem leafRebalance_routes (children : leaf.basements ≠ [])
    (rise : leaf.klpairs.Pairwise fun one other => one.1 < other.1)
    (counts : CountsExactly sizes basementnodesize leaf.klpairs) :
    ∃ after, leafRebalance sizes basementnodesize leaf = some after ∧
      after.klpairs = leaf.klpairs ∧ after.Divided ∧ after.Routes := by
  obtain ⟨after, done, rebalanced⟩ := rebalanced_of_countsExactly children counts
  have divided := rebalanced.divided rise
  exact ⟨after, done, rebalanced.contents, divided, divided.routes⟩

/-- Two entries that are divided between basement nodes are found. -/
theorem leafRebalance_routes_two :
    ∃ after, leafRebalance ⟨fun _ => 1, by decide⟩ 10 (twoEntries 2 2) = some after ∧
      after.klpairs = (twoEntries 2 2).klpairs ∧ after.Divided ∧ after.Routes :=
  leafRebalance_routes (List.cons_ne_nil _ _) (by decide)
    ⟨by decide, by decide, by decide, by decide⟩

end LeafNode

end Tokuft
