import Tokuft.Blocks.BlockTable

/-! What the operations on one table do to its blocks and to its list of free block numbers. -/

namespace Tokuft

namespace Translation

/-- The block of a block number, if it has one. -/
def blockAt (t : Translation) (b : Nat) : Option BlockPair :=
  if b < t.smallestNeverUsedBlocknum then
    t.blockTranslation[b]?.bind fun pair => if 0 < pair.size then some pair.block else none
  else none

/-- Free block numbers that are linked one to the next. -/
inductive Chain (pairs : List BlockTranslationPair) : Int → List Nat → Prop where
  | nil : Chain pairs freelistNull []
  | cons {b : Nat} {next : Int} {rest : List Nat} (here : pairs[b]? = some (.free next))
      (linked : Chain pairs next rest) : Chain pairs b (b :: rest)

/-- Block numbers of a table that are linked, each once. -/
def FreelistOk (pairs : List BlockTranslationPair) (smallest : Nat) (head : Int) : Prop :=
  ∃ nums, Chain pairs head nums ∧ nums.Nodup ∧ ∀ b ∈ nums, reservedBlocknums ≤ b ∧ b < smallest

/-- A pair of a table: free, without a block, or with one. -/
def PairOk (pair : BlockTranslationPair) : Prop :=
  pair.size = sizeIsFree ∨ pair = .unallocated ∨ (0 < pair.size ∧ 0 ≤ pair.u)

/-- A table whose pairs and whose list of free block numbers make sense. -/
structure Ok (t : Translation) : Prop where
  reserved : reservedBlocknums ≤ t.smallestNeverUsedBlocknum
  short : t.smallestNeverUsedBlocknum ≤ t.blockTranslation.length
  pairs : ∀ {b : Nat} {pair : BlockTranslationPair}, t.blockTranslation[b]? = some pair →
    PairOk pair
  unused : ∀ {b : Nat} {pair : BlockTranslationPair}, t.smallestNeverUsedBlocknum ≤ b →
    t.blockTranslation[b]? = some pair → pair.size = sizeIsFree
  kept : ∀ {b : Nat} {pair : BlockTranslationPair}, b < reservedBlocknums →
    t.blockTranslation[b]? = some pair → pair.size ≠ sizeIsFree
  freelist : FreelistOk t.blockTranslation t.smallestNeverUsedBlocknum t.blocknumFreelistHead

variable {t : Translation} {b : Nat} {pair : BlockTranslationPair}

/-- A block number that is in use is below the ones never used. -/
theorem Ok.below (ok : Ok t) (here : t.blockTranslation[b]? = some pair)
    (used : pair.size ≠ sizeIsFree) : b < t.smallestNeverUsedBlocknum := by
  by_contra behind
  exact used (ok.unused (Nat.le_of_not_lt behind) here)

/-- Every block number below the ones never used has a pair. -/
theorem Ok.get (ok : Ok t) (below : b < t.smallestNeverUsedBlocknum) :
    ∃ pair, t.blockTranslation[b]? = some pair :=
  ⟨_, List.getElem?_eq_getElem (Nat.lt_of_lt_of_le below ok.short)⟩

/-- A pair with a size is what its block says. -/
theorem PairOk.eq_of_pos (ok : PairOk pair) (positive : 0 < pair.size) :
    pair = { u := pair.block.offset, size := pair.block.size } := by
  -- A pair that is free or unused has no size that is positive.
  rcases ok with free | empty | ⟨-, start⟩
  · rw [free] at positive
    cases positive
  · rw [empty] at positive
    cases positive
  · rcases pair with ⟨u, size⟩
    simp only [BlockTranslationPair.block, BlockTranslationPair.mk.injEq]
    simp only at positive start
    omega

/-- A block number has the block of its pair. -/
theorem blockAt_eq (below : b < t.smallestNeverUsedBlocknum)
    (here : t.blockTranslation[b]? = some pair) :
    t.blockAt b = if 0 < pair.size then some pair.block else none := by
  rw [blockAt, if_pos below, here, Option.bind_some]

/-- A block comes from a pair. -/
theorem of_blockAt {block : BlockPair} (found : t.blockAt b = some block) :
    ∃ pair, b < t.smallestNeverUsedBlocknum ∧ t.blockTranslation[b]? = some pair ∧ 0 < pair.size ∧
      pair.block = block := by
  -- A block is there only below the smallest number never used, and with a size.
  unfold blockAt at found
  split at found
  · rename_i below
    obtain ⟨pair, here, sized⟩ := of_bind found
    split at sized
    · rename_i positive
      exact ⟨pair, below, here, positive, Option.some.inj sized⟩
    · cases sized
  · cases found

/-- Changing the pair of a block number changes its block alone. -/
theorem blockAt_setPair (ok : Ok t) (below : b < t.smallestNeverUsedBlocknum)
    (pair : BlockTranslationPair) (place : Nat) :
    (t.setPair b pair).blockAt place =
      if place = b then (if 0 < pair.size then some pair.block else none) else t.blockAt place := by
  -- The number is below the smallest one never used, so its pair is looked at.
  unfold blockAt setPair
  by_cases here : place = b
  · subst here
    have inside : place < t.blockTranslation.length := Nat.lt_of_lt_of_le below ok.short
    simp [below, inside]
  · simp [here, Ne.symm here]

/-- The links of a list do not depend on other pairs. -/
theorem Chain.congr {pairs others : List BlockTranslationPair} {head : Int} {nums : List Nat}
    (chain : Chain pairs head nums) (same : ∀ b ∈ nums, others[b]? = pairs[b]?) :
    Chain others head nums := by
  -- The chain reads a pair only at the numbers it goes through.
  induction chain with
  | nil => exact .nil
  | cons here _ ih =>
    exact .cons ((same _ List.mem_cons_self).trans here)
      (ih fun b member => same b (List.mem_cons_of_mem _ member))

/-- The block numbers of a list are free. -/
theorem Chain.free {pairs : List BlockTranslationPair} {head : Int} {nums : List Nat}
    (chain : Chain pairs head nums) (member : b ∈ nums) :
    ∃ next, pairs[b]? = some (.free next) := by
  -- Each number of the chain was found free when the chain went through it.
  induction chain with
  | nil => cases member
  | cons here _ ih =>
    rcases List.mem_cons.mp member with rfl | inside
    · exact ⟨_, here⟩
    · exact ih inside

/-- A block number in use may get another pair that is in use. -/
theorem Ok.setPair (ok : Ok t) {old : BlockTranslationPair}
    (here : t.blockTranslation[b]? = some old) (used : old.size ≠ sizeIsFree)
    (pairOk : PairOk pair) (stillUsed : pair.size ≠ sizeIsFree) : Ok (t.setPair b pair) := by
  -- A pair in use is not in the list, which therefore stays as it is.
  have below := ok.below here used
  have inside : b < t.blockTranslation.length := Nat.lt_of_lt_of_le below ok.short
  obtain ⟨nums, chain, nodup, bounds⟩ := ok.freelist
  refine ⟨ok.reserved, by simpa [Translation.setPair] using ok.short, fun {place other} there => ?_,
    fun {place other} behind there => ?_, fun {place other} early there => ?_, nums, ?_,
    nodup, bounds⟩
  all_goals simp only [Translation.setPair] at *
  · by_cases same : b = place
    · subst same
      rw [List.getElem?_set_self inside] at there
      exact Option.some.inj there ▸ pairOk
    · rw [List.getElem?_set_ne same] at there
      exact ok.pairs there
  · rw [List.getElem?_set_ne (by omega)] at there
    exact ok.unused behind there
  · by_cases same : b = place
    · subst same
      rw [List.getElem?_set_self inside] at there
      exact Option.some.inj there ▸ stillUsed
    · rw [List.getElem?_set_ne same] at there
      exact ok.kept early there
  · refine chain.congr fun place member => List.getElem?_set_ne fun same => ?_
    subst same
    obtain ⟨next, free⟩ := chain.free member
    rw [here] at free
    exact used (congrArg BlockTranslationPair.size (Option.some.inj free))

/-- A block number in use is freed and goes to the front of the list. -/
theorem freeBlocknumInTranslation_ok (ok : Ok t) (here : t.blockTranslation[b]? = some pair)
    (used : pair.size ≠ sizeIsFree) (freeable : reservedBlocknums ≤ b) :
    ∃ after, t.freeBlocknumInTranslation b = some after ∧ Ok after ∧
      after.type = t.type ∧ after.smallestNeverUsedBlocknum = t.smallestNeverUsedBlocknum ∧
      after.blockTranslation = t.blockTranslation.set b (.free t.blocknumFreelistHead) ∧
      ∀ place, after.blockAt place = if place = b then none else t.blockAt place := by
  -- The number that is freed is in use, so it is not in the list yet.
  have below := ok.below here used
  have inside : b < t.blockTranslation.length := Nat.lt_of_lt_of_le below ok.short
  have valid : t.isValidFreeableBlocknum b = true := by
    simp [isValidFreeableBlocknum, freeable, below]
  obtain ⟨nums, chain, nodup, bounds⟩ := ok.freelist
  have absent : b ∉ nums := by
    intro member
    obtain ⟨next, free⟩ := chain.free member
    rw [here] at free
    exact used (congrArg BlockTranslationPair.size (Option.some.inj free))
  refine ⟨{ t.setPair b (.free t.blocknumFreelistHead) with blocknumFreelistHead := b }, ?_,
    ?_, rfl,
    rfl, rfl, fun place => ?_⟩
  · rw [freeBlocknumInTranslation, invariant_of valid, here, bind_of_some, bind_of_some,
      invariant_of used]
    rfl
  · refine ⟨ok.reserved, by simpa [setPair] using ok.short, fun {place other} there => ?_,
      fun {place other} behind there => ?_, fun {place other} early there => ?_, b :: nums,
      ?_, ?_, ?_⟩
    · have there : (t.blockTranslation.set b (.free t.blocknumFreelistHead))[place]? = some other :=
        there
      by_cases same : b = place
      · subst same
        rw [List.getElem?_set_self inside] at there
        exact Or.inl (Option.some.inj there ▸ rfl)
      · rw [List.getElem?_set_ne same] at there
        exact ok.pairs there
    · have behind : t.smallestNeverUsedBlocknum ≤ place := behind
      have there : (t.blockTranslation.set b (.free t.blocknumFreelistHead))[place]? = some other :=
        there
      rw [List.getElem?_set_ne (by omega)] at there
      exact ok.unused behind there
    · have there : (t.blockTranslation.set b (.free t.blocknumFreelistHead))[place]? = some other :=
        there
      rw [List.getElem?_set_ne (by omega)] at there
      exact ok.kept early there
    · refine .cons (List.getElem?_set_self inside) (chain.congr fun place member => ?_)
      refine List.getElem?_set_ne fun same => absent ?_
      rw [same]
      exact member
    · exact List.nodup_cons.mpr ⟨absent, nodup⟩
    · intro place member
      rcases List.mem_cons.mp member with rfl | member
      · exact ⟨freeable, below⟩
      · exact bounds place member
  · have split := blockAt_setPair ok below (.free t.blocknumFreelistHead) place
    have notPositive : ¬0 < (BlockTranslationPair.free t.blocknumFreelistHead).size := by
      simp [BlockTranslationPair.free, sizeIsFree]
    rw [if_neg notPositive] at split
    exact split

/-- More free block numbers are added behind all others. -/
theorem maybeExpandTranslation_ok (ok : Ok t) :
    Ok (maybeExpandTranslation t) ∧
      (maybeExpandTranslation t).smallestNeverUsedBlocknum = t.smallestNeverUsedBlocknum ∧
      (maybeExpandTranslation t).type = t.type ∧
      (maybeExpandTranslation t).blocknumFreelistHead = t.blocknumFreelistHead ∧
      t.smallestNeverUsedBlocknum < (maybeExpandTranslation t).blockTranslation.length ∧
      ∀ b < t.smallestNeverUsedBlocknum,
        (maybeExpandTranslation t).blockTranslation[b]? = t.blockTranslation[b]? := by
  -- Only a full table grows, and what it gets is free and behind all that was used.
  have reserved := ok.reserved
  have positive : 3 ≤ t.smallestNeverUsedBlocknum := reserved
  unfold maybeExpandTranslation
  split
  · rename_i full
    have exact : t.blockTranslation.length = t.smallestNeverUsedBlocknum :=
      Nat.le_antisymm full ok.short
    have front (b : Nat) (below : b < t.smallestNeverUsedBlocknum)
        (more : List BlockTranslationPair) :
        (t.blockTranslation ++ more)[b]? = t.blockTranslation[b]? :=
      List.getElem?_append_left (by omega)
    have added {b : Nat} {pair : BlockTranslationPair} (behind : t.smallestNeverUsedBlocknum ≤ b)
        {count : Nat} (there : (t.blockTranslation ++
          List.replicate count (.free freelistNull))[b]? = some pair) : pair =
            .free freelistNull := by
      rw [List.getElem?_append_right (by omega), List.getElem?_replicate] at there
      split at there
      · exact (Option.some.inj there).symm
      · cases there
    obtain ⟨nums, chain, nodup, bounds⟩ := ok.freelist
    refine ⟨⟨reserved, ?_, ?_, ?_, ?_, nums, ?_, nodup, bounds⟩, rfl, rfl, rfl, ?_, ?_⟩
    · simp only [List.length_append, List.length_replicate]
      omega
    · intro b pair there
      by_cases below : b < t.smallestNeverUsedBlocknum
      · exact ok.pairs ((front b below _).symm.trans there)
      · exact Or.inl (by rw [added (by omega) there]; rfl)
    · intro b pair behind there
      rw [added behind there]
      rfl
    · intro b pair early there
      exact ok.kept early ((front b (by omega) _).symm.trans there)
    · exact chain.congr fun b member => front b (bounds b member).2 _
    · simp only [List.length_append, List.length_replicate]
      omega
    · exact fun b below => front b below _
  · exact ⟨ok, rfl, rfl, rfl, by omega, fun b _ => rfl⟩

/-- A free block number that nothing links to is given out without a block. -/
theorem giveOut_ok {smallest : Nat} {head : Int} {pairs : List BlockTranslationPair}
    (ok : Ok t) (freeable : reservedBlocknums ≤ b) (below : b < smallest)
    (short : smallest ≤ pairs.length) (more : t.smallestNeverUsedBlocknum ≤ smallest)
    (same : ∀ place < t.smallestNeverUsedBlocknum, pairs[place]? = t.blockTranslation[place]?)
    (unused : ∀ {place : Nat} {pair : BlockTranslationPair}, t.smallestNeverUsedBlocknum ≤ place →
      pairs[place]? = some pair → pair.size = sizeIsFree)
    (only : ∀ place, t.smallestNeverUsedBlocknum ≤ place → place < smallest → place = b)
    (free : ∃ pair, pairs[b]? = some pair ∧ pair.size = sizeIsFree)
    (freelist : FreelistOk (pairs.set b .unallocated) smallest head) :
    Ok { t with smallestNeverUsedBlocknum := smallest, blocknumFreelistHead := head
                blockTranslation := pairs.set b .unallocated } ∧
      Translation.blockAt
        { t with smallestNeverUsedBlocknum := smallest, blocknumFreelistHead := head
                 blockTranslation := pairs.set b .unallocated } = t.blockAt := by
  -- The number that is given out was free, so that no block changes.
  have reserved := ok.reserved
  have inside : b < pairs.length := Nat.lt_of_lt_of_le below short
  obtain ⟨old, here, isFree⟩ := free
  constructor
  · refine ⟨Nat.le_trans reserved more, by simpa using short, fun {place other} there => ?_,
      fun {place other} behind there => ?_, fun {place other} early there => ?_, freelist⟩
    · have there : (pairs.set b .unallocated)[place]? = some other := there
      by_cases atB : b = place
      · subst atB
        rw [List.getElem?_set_self inside] at there
        exact Or.inr (Or.inl (Option.some.inj there).symm)
      · rw [List.getElem?_set_ne atB] at there
        by_cases old : place < t.smallestNeverUsedBlocknum
        · exact ok.pairs ((same place old).symm.trans there)
        · exact Or.inl (unused (Nat.le_of_not_lt old) there)
    · have behind : smallest ≤ place := behind
      have there : (pairs.set b .unallocated)[place]? = some other := there
      rw [List.getElem?_set_ne (by omega)] at there
      exact unused (by omega) there
    · have there : (pairs.set b .unallocated)[place]? = some other := there
      rw [List.getElem?_set_ne (by omega)] at there
      exact ok.kept early ((same place (by omega)).symm.trans there)
  · funext place
    unfold blockAt
    simp only
    by_cases atB : place = b
    · -- The block number had no block before, and it has none now.
      subst atB
      rw [if_pos below, List.getElem?_set_self inside]
      by_cases old : place < t.smallestNeverUsedBlocknum
      · rw [if_pos old, ← same place old, here, Option.bind_some, Option.bind_some, isFree]
        rfl
      · rw [if_neg old]
        rfl
    · rw [List.getElem?_set_ne (Ne.symm atB)]
      by_cases old : place < t.smallestNeverUsedBlocknum
      · rw [if_pos old, if_pos (Nat.lt_of_lt_of_le old more), same place old]
      · have behind : ¬place < smallest :=
          fun wrong => atB (only place (Nat.le_of_not_lt old) wrong)
        rw [if_neg old, if_neg behind]

/-- A block number that is given out has no block, and every other one keeps its own. -/
theorem allocateBlocknum_ok (ok : Ok t) :
    ∃ b after, t.allocateBlocknum = some (b, after) ∧ Ok after ∧ after.type = t.type ∧
      after.blockAt = t.blockAt ∧
      ∀ place < reservedBlocknums, after.blockTranslation[place]? = t.blockTranslation[place]? := by
  -- A number comes from the list, or else from behind all numbers ever used.
  have reserved := ok.reserved
  by_cases empty : t.blocknumFreelistHead = freelistNull
  · -- A block number that was never used is taken.
    obtain ⟨expanded, smallest, type, head, room, same⟩ := maybeExpandTranslation_ok ok
    have here : (maybeExpandTranslation t).blockTranslation[t.smallestNeverUsedBlocknum]? =
        some (maybeExpandTranslation t).blockTranslation[t.smallestNeverUsedBlocknum] :=
      List.getElem?_eq_getElem room
    have isFree := expanded.unused (Nat.le_of_eq smallest) here
    obtain ⟨okAfter, sameBlocks⟩ := @giveOut_ok t t.smallestNeverUsedBlocknum
      (t.smallestNeverUsedBlocknum + 1) freelistNull (maybeExpandTranslation t).blockTranslation
      ok reserved (Nat.lt_succ_self _) room (Nat.le_succ _) same
      (fun behind there => expanded.unused (by omega) there) (fun place _ _ => by omega)
      ⟨_, here, isFree⟩ ⟨[], .nil, List.nodup_nil, fun b member => by cases member⟩
    refine ⟨t.smallestNeverUsedBlocknum, _, ?_, okAfter, rfl, sameBlocks, fun place early => ?_⟩
    · rw [Translation.allocateBlocknum, takeBlocknum, if_pos empty]
      simp only [smallest, bind_runs, here, isFree, invariant_of]
      rw [invariant_of (by simp [isValidFreeableBlocknum, setPair, reserved])]
      simp only [Option.bind_some, setPair, type, head, empty]
    · show ((maybeExpandTranslation t).blockTranslation.set _ _)[place]? = _
      rw [List.getElem?_set_ne (by omega)]
      exact same place (by omega)
  · -- The first block number of the list is taken.
    obtain ⟨nums, chain, nodup, bounds⟩ := ok.freelist
    generalize isHead : t.blocknumFreelistHead = head at chain
    cases chain with
    | nil => exact absurd isHead empty
    | @cons b next rest here linked =>
      obtain ⟨freeable, below⟩ := bounds b List.mem_cons_self
      obtain ⟨absent, nodupRest⟩ := List.nodup_cons.mp nodup
      obtain ⟨okAfter, sameBlocks⟩ := @giveOut_ok t b t.smallestNeverUsedBlocknum next
        t.blockTranslation ok freeable below ok.short (Nat.le_refl _) (fun place _ => rfl)
        (fun behind there => ok.unused behind there) (fun place behind before => by omega)
        ⟨_, here, rfl⟩ ⟨rest, linked.congr fun place member => List.getElem?_set_ne fun same =>
            absent (by rw [same]; exact member), nodupRest,
          fun place member => bounds place (List.mem_cons_of_mem _ member)⟩
      refine ⟨b, _, ?_, okAfter, rfl, sameBlocks, fun place early => ?_⟩
      · have number : t.blocknumFreelistHead.toNat = b := by rw [isHead]; rfl
        rw [Translation.allocateBlocknum, takeBlocknum, if_neg empty]
        simp only [number, here, Option.map_some, bind_runs]
        rw [invariant_of (show (BlockTranslationPair.free next).size = sizeIsFree from rfl),
          Option.bind_some,
          invariant_of (by simp [isValidFreeableBlocknum, setPair, freeable, below])]
        rfl
      · show (t.blockTranslation.set _ _)[place]? = _
        rw [List.getElem?_set_ne (by omega)]

/-- Freeing the block numbers that have no block leaves the blocks of the others. -/
theorem freeUnusedBlocknums_ok (ok : Ok t) (root count : Nat)
    (bound : count ≤ t.smallestNeverUsedBlocknum) :
    ∃ after, freeUnusedBlocknums root count t = some after ∧ Ok after ∧ after.type = t.type ∧
      after.smallestNeverUsedBlocknum = t.smallestNeverUsedBlocknum ∧
      after.blockAt = t.blockAt ∧ (∀ place, count ≤ place ∨ place < reservedBlocknums →
        after.blockTranslation[place]? = t.blockTranslation[place]?) := by
  -- By induction on how many numbers are looked at.
  induction count with
  | zero => exact ⟨t, rfl, ok, rfl, rfl, rfl, fun place _ => rfl⟩
  | succ b ih =>
    obtain ⟨before, freed, okBefore, type, smallest, blocks, same⟩ := ih (by omega)
    obtain ⟨pair, here⟩ := okBefore.get (show b < before.smallestNeverUsedBlocknum by omega)
    rw [freeUnusedBlocknums, freed]
    simp only [bind_runs, here]
    split
    · exact ⟨before, rfl, okBefore, type, smallest, blocks,
        fun place outside => same place (by omega)⟩
    · rename_i wanted
      have parts : reservedBlocknums ≤ b ∧ pair.size = 0 := by
        constructor
        · omega
        · by_contra sized
          exact wanted (Or.inr (Or.inr sized))
      have empty : pair = .unallocated := by
        rcases okBefore.pairs here with free | empty | ⟨positive, -⟩
        · rw [parts.2] at free
          cases free
        · exact empty
        · rw [parts.2] at positive
          cases positive
      have used : pair.size ≠ sizeIsFree := by
        rw [empty]
        decide
      obtain ⟨after, freedToo, okAfter, typeToo, smallestToo, shape, blocksToo⟩ :=
        freeBlocknumInTranslation_ok okBefore here used parts.1
      refine ⟨after, ?_, okAfter, typeToo.trans type, smallestToo.trans smallest, ?_,
        fun place outside => ?_⟩
      · rw [invariant_of (show pair.u = diskoffUnused by rw [empty]; rfl), Option.bind_some,
          freedToo]
      · funext place
        rw [blocksToo, ← blocks]
        split
        · rename_i atB
          rw [atB, blockAt_eq (by omega) here, empty]
          rfl
        · rfl
      · rw [shape, List.getElem?_set_ne (by omega)]
        exact same place (by omega)

/-- Pairs whose links may have changed, but nothing else. -/
structure SameButLinks (pairs others : List BlockTranslationPair) : Prop where
  length : others.length = pairs.length
  used : ∀ {b : Nat} {pair : BlockTranslationPair}, pair.size ≠ sizeIsFree →
    (others[b]? = some pair ↔ pairs[b]? = some pair)

/-- A pair that is free stays free when links change. -/
theorem SameButLinks.free {pairs others : List BlockTranslationPair}
    (same : SameButLinks pairs others) {pair : BlockTranslationPair}
    (here : others[b]? = some pair) (free : pair.size = sizeIsFree) :
    ∃ old, pairs[b]? = some old ∧ old.size = sizeIsFree := by
  -- Were it in use before, then it would be in use still.
  have inside : b < pairs.length := by
    rw [← same.length]
    exact (List.getElem?_eq_some_iff.mp here).1
  refine ⟨pairs[b], List.getElem?_eq_getElem inside, ?_⟩
  by_contra used
  have there := (same.used used).mpr (List.getElem?_eq_getElem inside)
  rw [here] at there
  exact used (Option.some.inj there ▸ free)

/-- The list that is made anew has exactly the free block numbers, each once. -/
theorem regenerateFreelist_ok (count : Nat) (pairs : List BlockTranslationPair) :
    SameButLinks pairs (regenerateFreelist count pairs).1 ∧
      FreelistOk (regenerateFreelist count pairs).1 count (regenerateFreelist count pairs).2 := by
  -- By induction on how many numbers are looked at, each free one of which goes to the front.
  induction count with
  | zero =>
    exact ⟨⟨rfl, fun _ => Iff.rfl⟩, [], .nil, List.nodup_nil, fun b member => by cases member⟩
  | succ b ih =>
    obtain ⟨same, nums, chain, nodup, bounds⟩ := ih
    have wider : ∀ place ∈ nums, reservedBlocknums ≤ place ∧ place < b + 1 :=
      fun place member => ⟨(bounds place member).1, Nat.lt_succ_of_lt (bounds place member).2⟩
    rw [regenerateFreelist]
    simp only
    split
    · rename_i wanted
      obtain ⟨pair, here, isFree⟩ := (Option.any_eq_true _ _).mp wanted.2
      have isFree : pair.size = sizeIsFree := of_decide_eq_true isFree
      have inside := (List.getElem?_eq_some_iff.mp here).1
      refine ⟨⟨by rw [List.length_set, same.length], fun {place other} used => ?_⟩, b :: nums,
        .cons (List.getElem?_set_self inside) (chain.congr fun place member =>
          List.getElem?_set_ne fun wrong => ?_), List.nodup_cons.mpr ⟨fun wrong => ?_, nodup⟩,
        fun place member => ?_⟩
      · by_cases atB : b = place
        · subst atB
          rw [List.getElem?_set_self inside]
          constructor
          · intro there
            exact absurd (congrArg BlockTranslationPair.size (Option.some.inj there)).symm used
          · intro there
            rw [← same.used used, here] at there
            exact absurd (Option.some.inj there ▸ isFree) used
        · rw [List.getElem?_set_ne atB]
          exact same.used used
      · have early := (bounds place member).2
        omega
      · have early := (bounds b wrong).2
        omega
      · rcases List.mem_cons.mp member with rfl | member
        · exact ⟨wanted.1, Nat.lt_succ_self _⟩
        · exact wider place member
    · exact ⟨same, nums, chain, nodup, wider⟩

/-- Behind the last block number in use there are only free ones. -/
theorem usedUpTo_ok (pairs : List BlockTranslationPair) (count : Nat) :
    usedUpTo pairs count ≤ count ∧
      (reservedBlocknums ≤ count → reservedBlocknums ≤ usedUpTo pairs count) ∧
      ∀ {b : Nat} {pair : BlockTranslationPair}, usedUpTo pairs count ≤ b → b < count →
        pairs[b]? = some pair → pair.size = sizeIsFree := by
  -- From the end down, numbers are passed over as long as they are free.
  induction count with
  | zero => exact ⟨Nat.le_refl _, fun early => early,
      fun _ inside => absurd inside (Nat.not_lt_zero _)⟩
  | succ b ih =>
    rw [usedUpTo]
    split
    · rename_i wanted
      obtain ⟨below, reserved, behind⟩ := ih
      refine ⟨Nat.le_succ_of_le below, fun _ => reserved (by omega),
        fun {place pair} after inside here => ?_⟩
      by_cases atB : place = b
      · subst atB
        obtain ⟨other, there, isFree⟩ := (Option.any_eq_true _ _).mp wanted.2
        rw [here] at there
        rw [Option.some.inj there]
        exact of_decide_eq_true isFree
      · exact behind after (by omega) here
    · exact ⟨Nat.le_refl _, fun early => early, fun after inside => by omega⟩

/-- A pair with a block gives its block to the block number. -/
theorem blockAt_of_pos (below : b < t.smallestNeverUsedBlocknum)
    (here : t.blockTranslation[b]? = some pair) (positive : 0 < pair.size) :
    t.blockAt b = some pair.block := by
  rw [blockAt_eq below here, if_pos positive]

/-- A pair with a block is in use. -/
theorem used_of_pos (positive : 0 < pair.size) : pair.size ≠ sizeIsFree := by
  intro free
  rw [free] at positive
  cases positive

/-- Forgetting the free block numbers at the end leaves every block where it is. -/
theorem maybeOptimizeTranslation_ok (ok : Ok t) :
    Ok (maybeOptimizeTranslation t) ∧ (maybeOptimizeTranslation t).type = t.type ∧
      (maybeOptimizeTranslation t).blockAt = t.blockAt ∧
      ∀ {place : Nat} {pair : BlockTranslationPair}, pair.size ≠ sizeIsFree →
        t.blockTranslation[place]? = some pair →
        (maybeOptimizeTranslation t).blockTranslation[place]? = some pair := by
  -- Only free numbers at the end are forgotten, and then the list is made anew.
  have reserved := ok.reserved
  have short := ok.short
  obtain ⟨atMost, kept, behind⟩ := usedUpTo_ok t.blockTranslation t.smallestNeverUsedBlocknum
  have atLeast := kept reserved
  unfold maybeOptimizeTranslation
  simp only
  split
  · rename_i shorter
    generalize usedUpTo t.blockTranslation t.smallestNeverUsedBlocknum = count at *
    generalize isShrunk : (if t.blockTranslation.length / 4 > count then
      t.blockTranslation.take (count * 2) else t.blockTranslation) = shrunk
    have length : count ≤ shrunk.length := by
      rw [← isShrunk]
      split
      · rw [List.length_take]
        omega
      · omega
    have front {place : Nat} {pair : BlockTranslationPair} (here : shrunk[place]? = some pair) :
        t.blockTranslation[place]? = some pair := by
      rw [← isShrunk] at here
      split at here
      · rw [List.getElem?_take] at here
        split at here
        · exact here
        · cases here
      · exact here
    have back {place : Nat} (below : place < count) :
        shrunk[place]? = t.blockTranslation[place]? := by
      rw [← isShrunk]
      split
      · exact List.getElem?_take_of_lt (by omega)
      · rfl
    obtain ⟨same, freelist⟩ := regenerateFreelist_ok count shrunk
    have stays {place : Nat} {pair : BlockTranslationPair} (used : pair.size ≠ sizeIsFree)
        (here : t.blockTranslation[place]? = some pair) :
        place < count ∧ (regenerateFreelist count shrunk).1[place]? = some pair := by
      have below : place < count := by
        by_contra after
        exact used (behind (Nat.le_of_not_lt after) (ok.below here used) here)
      exact ⟨below, (same.used used).mpr ((back below).trans here)⟩
    refine ⟨⟨atLeast, by rw [same.length]; exact length, fun {place pair} here => ?_,
      fun {place pair} after here => ?_, fun {place pair} early here => ?_, freelist⟩, rfl, ?_,
      fun used here => (stays used here).2⟩
    · by_cases free : pair.size = sizeIsFree
      · exact Or.inl free
      · exact ok.pairs (front ((same.used free).mp here))
    · by_contra used
      have old := front ((same.used used).mp here)
      have below := (stays used old).1
      have after : count ≤ place := after
      omega
    · intro free
      obtain ⟨old, there, oldFree⟩ := same.free here free
      exact ok.kept early (front there) oldFree
    · funext place
      refine Option.ext fun block => ⟨fun found => ?_, fun found => ?_⟩
      · obtain ⟨pair, below, here, positive, rfl⟩ := of_blockAt found
        have old := front ((same.used (used_of_pos positive)).mp here)
        exact blockAt_of_pos (ok.below old (used_of_pos positive)) old positive
      · obtain ⟨pair, below, here, positive, rfl⟩ := of_blockAt found
        obtain ⟨inside, there⟩ := stays (used_of_pos positive) here
        exact @blockAt_of_pos { t with
          smallestNeverUsedBlocknum := count
          blocknumFreelistHead := (regenerateFreelist count shrunk).2
          blockTranslation := (regenerateFreelist count shrunk).1 } place pair inside there positive
  · exact ⟨ok, rfl, rfl, fun _ here => here⟩

/-- A copy has the same blocks but for the table itself, which is not on disk yet. -/
theorem copyTranslation_ok {newtype : TranslationType} (ok : Ok t)
    (types : (t.type = .current ∧ newtype = .inprogress) ∨
      (t.type = .checkpointed ∧ newtype = .current)) :
    ∃ copy, copyTranslation none t newtype = some copy ∧ Ok copy ∧ copy.type = newtype ∧
      copy.smallestNeverUsedBlocknum = t.smallestNeverUsedBlocknum ∧
      copy.blockTranslation.length = t.smallestNeverUsedBlocknum ∧
      copy.blockTranslation[reservedBlocknumTranslation]? = some .unallocated ∧
      ∀ place, copy.blockAt place =
        if place = reservedBlocknumTranslation then none else t.blockAt place := by
  -- The copy has the pairs up to the smallest number never used, and no more.
  have reserved : 3 ≤ t.smallestNeverUsedBlocknum := ok.reserved
  have short := ok.short
  have length : (t.blockTranslation.take t.smallestNeverUsedBlocknum).length =
      t.smallestNeverUsedBlocknum := by
    rw [List.length_take]
    omega
  let taken : Translation := { t with
    type := newtype
    blockTranslation := t.blockTranslation.take t.smallestNeverUsedBlocknum }
  have same {place : Nat} (below : place < t.smallestNeverUsedBlocknum) :
      taken.blockTranslation[place]? = t.blockTranslation[place]? :=
    List.getElem?_take_of_lt below
  have inside {place : Nat} {pair : BlockTranslationPair}
      (here : taken.blockTranslation[place]? = some pair) :
      place < t.smallestNeverUsedBlocknum := by
    rw [← length]
    exact (List.getElem?_eq_some_iff.mp here).1
  have takenOk : Ok taken := by
    obtain ⟨nums, chain, nodup, bounds⟩ := ok.freelist
    refine ⟨ok.reserved, Nat.le_of_eq length.symm, fun here => ?_, fun after here => ?_,
      fun early here => ?_, nums, chain.congr fun b member => same (bounds b member).2,
      nodup, bounds⟩
    · exact ok.pairs ((same (inside here)).symm.trans here)
    · exact absurd (inside here) (Nat.not_lt_of_le after)
    · exact ok.kept early ((same (inside here)).symm.trans here)
  obtain ⟨old, there⟩ := takenOk.get (show reservedBlocknumTranslation <
    taken.smallestNeverUsedBlocknum from Nat.lt_of_lt_of_le (by decide) reserved)
  have below := inside there
  refine ⟨taken.setPair reservedBlocknumTranslation .unallocated, ?_,
    takenOk.setPair there (takenOk.kept (by decide) there) (Or.inr (Or.inl rfl)) (by decide),
    rfl, rfl,
    ?_, ?_, fun place => ?_⟩
  · rw [copyTranslation, invariant_of (show (none : Option Translation).isNone = true from rfl),
      invariant_of short, invariant_of types]
    rfl
  · simp only [setPair, List.length_set]
    exact length
  · exact List.getElem?_set_self (by rw [length]; exact below)
  · rw [blockAt_setPair takenOk below]
    split
    · rfl
    · unfold blockAt
      by_cases early : place < t.smallestNeverUsedBlocknum
      · rw [if_pos early, if_pos early, same early]
      · rw [if_neg early, if_neg early]

end Translation

end Tokuft
