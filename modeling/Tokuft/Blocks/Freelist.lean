import Tokuft.Blocks.TranslationLaws
import Tokuft.Blocks.BlockTableWorld

/-! The list of free block numbers of a table has every free block number, and no other. -/

namespace Tokuft

namespace Translation

/-- A block number is free. -/
def FreeAt (pairs : List BlockTranslationPair) (b : Nat) : Prop :=
  ∃ pair, pairs[b]? = some pair ∧ pair.size = sizeIsFree

/-- From the head on, the links go once through all free block numbers and then end. -/
def FreelistExact (pairs : List BlockTranslationPair) (smallest : Nat) (head : Int) : Prop :=
  ∃ nums, Chain pairs head nums ∧ nums.Nodup ∧
    ∀ b, b ∈ nums ↔ reservedBlocknums ≤ b ∧ b < smallest ∧ FreeAt pairs b

/-- A table in order whose list has every free block number. -/
structure Listed (t : Translation) : Prop where
  ok : Ok t
  exact : FreelistExact t.blockTranslation t.smallestNeverUsedBlocknum t.blocknumFreelistHead

variable {t after : Translation} {b : Nat} {pair : BlockTranslationPair}
  {pairs : List BlockTranslationPair}

/-- Setting the pair of another block number leaves it free or not. -/
theorem freeAt_set_ne {place : Nat} (other : b ≠ place) :
    FreeAt (pairs.set b pair) place ↔ FreeAt pairs place := by
  rw [FreeAt, FreeAt, List.getElem?_set_ne other]

/-- A block number that gets a pair is free when the pair is. -/
theorem freeAt_set_self (inside : b < pairs.length) :
    FreeAt (pairs.set b pair) b ↔ pair.size = sizeIsFree := by
  rw [FreeAt, List.getElem?_set_self inside]
  simp

/-- A block number in use is not free. -/
theorem not_freeAt (here : pairs[b]? = some pair) (used : pair.size ≠ sizeIsFree) :
    ¬FreeAt pairs b := by
  intro ⟨other, there, free⟩
  rw [here] at there
  cases there
  exact used free

/-- A block number in use may get another pair that is in use. -/
theorem Listed.setPair (listed : Listed t) {old : BlockTranslationPair}
    (here : t.blockTranslation[b]? = some old) (used : old.size ≠ sizeIsFree)
    (pairOk : PairOk pair) (stillUsed : pair.size ≠ sizeIsFree) : Listed (t.setPair b pair) := by
  -- The number is in use before and after, so that it is in no list.
  obtain ⟨nums, chain, nodup, members⟩ := listed.exact
  have inside := (List.getElem?_eq_some_iff.mp here).1
  have absent : b ∉ nums := fun member => not_freeAt here used ((members b).mp member).2.2
  refine ⟨listed.ok.setPair here used pairOk stillUsed, nums, ?_, nodup, fun place => ?_⟩
  · -- No link of the list is at the block number.
    apply chain.congr
    intro place member
    exact List.getElem?_set_ne fun same => absent (by rw [same]; exact member)
  · rw [members place, Translation.setPair]
    by_cases same : b = place
    · subst same
      rw [freeAt_set_self inside]
      exact ⟨fun wrong => absurd wrong.2.2 (not_freeAt here used), fun wrong =>
        absurd wrong.2.2 stillUsed⟩
    · rw [freeAt_set_ne same]

/-- A block number in front of the list that has all others makes the list have all. -/
theorem freelistExact_cons {smallest : Nat} {head : Int} (exact : FreelistExact pairs smallest head)
    (freeable : reservedBlocknums ≤ b) (below : b < smallest) (inside : b < pairs.length)
    (used : ¬FreeAt pairs b) : FreelistExact (pairs.set b (.free head)) smallest b := by
  -- The links of the others do not change.
  obtain ⟨nums, chain, nodup, members⟩ := exact
  have absent : b ∉ nums := fun member => used ((members b).mp member).2.2
  refine ⟨b :: nums, .cons (List.getElem?_set_self inside) ?_,
    List.nodup_cons.mpr ⟨absent, nodup⟩, fun place => ?_⟩
  · apply chain.congr
    intro place member
    exact List.getElem?_set_ne fun same => absent (by rw [same]; exact member)
  · rw [List.mem_cons, members place]
    by_cases same : b = place
    · subst same
      rw [freeAt_set_self inside]
      exact ⟨fun _ => ⟨freeable, below, rfl⟩, fun _ => .inl rfl⟩
    · rw [freeAt_set_ne same]
      exact ⟨fun found => found.resolve_left (Ne.symm same), .inr⟩

/-- A block number that is freed goes to the front of the list. -/
theorem Listed.freeBlocknum (listed : Listed t)
    (freed : t.freeBlocknumInTranslation b = some after) :
    Listed after ∧ after.type = t.type := by
  -- The pair was in use, so that its number is not in the list yet.
  have whole := freed
  rw [freeBlocknumInTranslation] at freed
  obtain ⟨valid, freed⟩ := of_invariant freed
  obtain ⟨pair, here, freed⟩ := of_bind freed
  obtain ⟨used, done⟩ := of_invariant freed
  simp only [isValidFreeableBlocknum, Bool.and_eq_true, decide_eq_true_eq] at valid
  obtain ⟨_, again, ok, type, _⟩ := freeBlocknumInTranslation_ok listed.ok here used valid.1
  rw [whole] at again
  cases again
  cases done
  exact ⟨⟨ok, freelistExact_cons listed.exact valid.1 valid.2
    (List.getElem?_eq_some_iff.mp here).1 (not_freeAt here used)⟩, type⟩

/-- What is given out was taken before, and was free. -/
theorem allocateBlocknum_inv (allocated : t.allocateBlocknum = some (b, after)) :
    ∃ taken, takeBlocknum t = some (b, taken) ∧ FreeAt taken.blockTranslation b ∧
      after = taken.setPair b .unallocated := by
  rw [Translation.allocateBlocknum] at allocated
  obtain ⟨⟨number, taken⟩, took, rest⟩ := of_bind allocated
  obtain ⟨pair, here, rest⟩ := of_bind rest
  obtain ⟨free, rest⟩ := of_invariant rest
  obtain ⟨_, done⟩ := of_invariant rest
  cases done
  exact ⟨taken, took, ⟨pair, here, free⟩, rfl⟩

/-- The block number that is given out was free or never used, and the list keeps the others. -/
theorem Listed.allocateBlocknum (listed : Listed t)
    (allocated : t.allocateBlocknum = some (b, after)) :
    Listed after ∧ after.type = t.type ∧
      (b = t.smallestNeverUsedBlocknum ∨ FreeAt t.blockTranslation b) := by
  -- The number is the head of the list, or else a new one.
  obtain ⟨given, _, again, ok, type, _⟩ := allocateBlocknum_ok listed.ok
  rw [allocated] at again
  cases again
  obtain ⟨taken, took, free, rfl⟩ := allocateBlocknum_inv allocated
  obtain ⟨pair, here, _⟩ := free
  have inside := (List.getElem?_eq_some_iff.mp here).1
  obtain ⟨nums, chain, nodup, members⟩ := listed.exact
  rw [takeBlocknum] at took
  by_cases empty : t.blocknumFreelistHead = freelistNull
  · -- Without a free block number one that was never used is taken, and the list stays empty.
    obtain ⟨expanded, smallest, _, head, room, same⟩ := maybeExpandTranslation_ok listed.ok
    rw [if_pos empty] at took
    cases took
    rw [empty] at chain
    have none : nums = [] := by
      generalize isHead : freelistNull = head at chain
      cases chain with
      | nil => rfl
      | cons => cases isHead
    subst none
    refine ⟨⟨ok, [], ?_, List.nodup_nil, fun place => ?_⟩, type, .inl smallest⟩
    · show Chain _ (maybeExpandTranslation t).blocknumFreelistHead []
      rw [head, empty]
      exact .nil
    · refine ⟨fun wrong => (by cases wrong), ?_⟩
      rintro ⟨freeable, below, free⟩
      have below : place < (maybeExpandTranslation t).smallestNeverUsedBlocknum + 1 := below
      have free : FreeAt ((maybeExpandTranslation t).blockTranslation.set
        (maybeExpandTranslation t).smallestNeverUsedBlocknum .unallocated) place := free
      by_cases last : (maybeExpandTranslation t).smallestNeverUsedBlocknum = place
      · rw [last] at inside free
        exact absurd ((freeAt_set_self inside).mp free) (by decide)
      · -- Any other one was free before, but there was none.
        rw [freeAt_set_ne last, FreeAt, same place (by omega)] at free
        exact (members place).mpr ⟨freeable, by omega, free⟩
  · -- The first block number of the list is taken.
    rw [if_neg empty] at took
    obtain ⟨old, there, done⟩ := Option.map_eq_some_iff.mp took
    generalize isHead : t.blocknumFreelistHead = head at chain took done
    cases chain with
    | nil => exact absurd isHead empty
    | @cons first next rest linked others =>
      have number : (first : Int).toNat = first := rfl
      rw [isHead, number, linked] at there
      cases there
      cases done
      obtain ⟨absent, nodupRest⟩ := List.nodup_cons.mp nodup
      have wasFree : FreeAt t.blockTranslation first := ⟨_, linked, rfl⟩
      refine ⟨⟨ok, rest, ?_, nodupRest, fun place => ?_⟩, type, .inr wasFree⟩
      · apply others.congr
        intro place member
        exact List.getElem?_set_ne fun same => absent (by
          rw [show first = place from same]
          exact member)
      · by_cases same : first = place
        · subst same
          refine ⟨fun member => absurd member absent, fun found => ?_⟩
          exact absurd ((freeAt_set_self inside).mp found.2.2) (by decide)
        · have before := members place
          rw [List.mem_cons] at before
          refine Iff.trans ?_ (before.trans ?_)
          · exact ⟨.inr, fun found => found.resolve_left (Ne.symm same)⟩
          · show _ ∧ _ ∧ _ ↔ _ ∧ _ ∧ FreeAt (t.blockTranslation.set first .unallocated) place
            rw [freeAt_set_ne same]
            exact Iff.rfl

/-- The list that is made anew has exactly the free block numbers. -/
theorem regenerateFreelist_exact (count : Nat) (pairs : List BlockTranslationPair) :
    FreelistExact (regenerateFreelist count pairs).1 count (regenerateFreelist count pairs).2 ∧
      ∀ place, FreeAt (regenerateFreelist count pairs).1 place ↔ FreeAt pairs place := by
  -- By induction on how many numbers are looked at: a free one goes to the front.
  induction count with
  | zero =>
    refine ⟨⟨[], .nil, List.nodup_nil, fun b => ?_⟩, fun place => Iff.rfl⟩
    exact ⟨fun wrong => (by cases wrong), fun wrong => absurd wrong.2.1 (Nat.not_lt_zero b)⟩
  | succ b ih =>
    obtain ⟨exact, same⟩ := ih
    rw [regenerateFreelist]
    simp only
    split
    · -- The block number is free, so it goes to the front.
      rename_i wanted
      obtain ⟨freeable, isFree⟩ := wanted
      have free : FreeAt pairs b := by
        obtain ⟨pair, here, size⟩ := (Option.any_eq_true _ _).mp isFree
        exact (same b).mp ⟨pair, here, of_decide_eq_true size⟩
      have inside : b < (regenerateFreelist b pairs).1.length := by
        obtain ⟨pair, here, _⟩ := (same b).mpr free
        exact (List.getElem?_eq_some_iff.mp here).1
      obtain ⟨nums, chain, nodup, members⟩ := exact
      have absent : b ∉ nums := fun member => Nat.lt_irrefl b ((members b).mp member).2.1
      have others : ∀ place, FreeAt ((regenerateFreelist b pairs).1.set b
          (.free (regenerateFreelist b pairs).2)) place ↔ FreeAt pairs place := by
        intro place
        by_cases here : b = place
        · subst here
          rw [freeAt_set_self inside]
          exact ⟨fun _ => free, fun _ => rfl⟩
        · rw [freeAt_set_ne here]
          exact same place
      refine ⟨⟨b :: nums, .cons (List.getElem?_set_self inside) ?_,
        List.nodup_cons.mpr ⟨absent, nodup⟩, fun place => ?_⟩, others⟩
      · apply chain.congr
        intro place member
        exact List.getElem?_set_ne fun equal => absent (by rw [equal]; exact member)
      · rw [others, List.mem_cons, members place, same place]
        constructor
        · rintro (rfl | ⟨freeable, below, free⟩)
          · exact ⟨freeable, Nat.lt_succ_self _, free⟩
          · exact ⟨freeable, Nat.lt_succ_of_lt below, free⟩
        · rintro ⟨freeable, below, free⟩
          obtain earlier | last := Nat.lt_succ_iff_lt_or_eq.mp below
          · exact .inr ⟨freeable, earlier, free⟩
          · exact .inl last
    · -- The block number is reserved or in use, so the list stays as it is.
      rename_i unwanted
      refine ⟨?_, same⟩
      obtain ⟨nums, chain, nodup, members⟩ := exact
      refine ⟨nums, chain, nodup, fun place => (members place).trans ?_⟩
      refine ⟨fun slot => ⟨slot.1, Nat.lt_succ_of_lt slot.2.1, slot.2.2⟩, ?_⟩
      rintro ⟨freeable, below, free⟩
      obtain earlier | last := Nat.lt_succ_iff_lt_or_eq.mp below
      · exact ⟨freeable, earlier, free⟩
      · subst last
        obtain ⟨pair, here, size⟩ := free
        refine absurd ⟨freeable, ?_⟩ unwanted
        rw [here]
        simpa using size

/-- Forgetting the free block numbers at the end keeps the list of the others. -/
theorem Listed.maybeOptimize (listed : Listed t) :
    Listed (maybeOptimizeTranslation t) ∧ (maybeOptimizeTranslation t).type = t.type := by
  obtain ⟨ok, type, _⟩ := maybeOptimizeTranslation_ok listed.ok
  refine ⟨⟨ok, ?_⟩, type⟩
  unfold maybeOptimizeTranslation
  simp only
  split
  · exact (regenerateFreelist_exact _ _).1
  · exact listed.exact

/-- A shorter array with all block numbers that were used has the same list. -/
theorem freelistExact_take {smallest : Nat} {head : Int}
    (exact : FreelistExact pairs smallest head) :
    FreelistExact (pairs.take smallest) smallest head := by
  -- Every number in the list was used, so that its link is in the shorter array.
  obtain ⟨nums, chain, nodup, members⟩ := exact
  have same : ∀ place < smallest, (pairs.take smallest)[place]? = pairs[place]? :=
    fun place below => List.getElem?_take_of_lt below
  refine ⟨nums, chain.congr fun place member => same place ((members place).mp member).2.1, nodup,
    fun place => (members place).trans ?_⟩
  refine and_congr_right fun _ => and_congr_right fun below => ?_
  rw [FreeAt, FreeAt, same place below]

/-- The number of the table itself is reserved. -/
theorem reserved_apart (freeable : reservedBlocknums ≤ b) : reservedBlocknumTranslation ≠ b := by
  have three : 3 ≤ b := freeable
  show 1 ≠ b
  omega

/-- A copy of a table has the same list. -/
theorem Listed.copy {newtype : TranslationType} {dst : Option Translation} (listed : Listed t)
    (copied : copyTranslation dst t newtype = some after) :
    Listed after ∧ after.type = newtype := by
  have whole := copied
  rw [copyTranslation] at copied
  obtain ⟨empty, copied⟩ := of_invariant copied
  obtain ⟨_, copied⟩ := of_invariant copied
  obtain ⟨types, done⟩ := of_invariant copied
  obtain rfl : dst = none := Option.isNone_iff_eq_none.mp empty
  obtain ⟨_, again, ok, type, _⟩ := @copyTranslation_ok _ newtype listed.ok types
  rw [whole] at again
  cases again
  refine ⟨⟨ok, ?_⟩, type⟩
  cases done
  -- Only the pair of the table itself changes, which is not free before or after.
  obtain ⟨nums, chain, nodup, members⟩ := freelistExact_take listed.exact
  have early : ∀ place ∈ nums, reservedBlocknumTranslation ≠ place := by
    intro place member same
    exact reserved_apart ((members place).mp member).1 same
  refine ⟨nums, ?_, nodup, fun place => (members place).trans ?_⟩
  · apply chain.congr
    intro place member
    exact List.getElem?_set_ne (early place member)
  · refine and_congr_right fun freeable => and_congr_right fun _ => ?_
    show _ ↔ FreeAt (List.set _ _ _) place
    rw [freeAt_set_ne (reserved_apart freeable)]

/-- Freeing the block numbers without a block keeps the list of all free ones. -/
theorem Listed.freeUnused {root count : Nat} (listed : Listed t)
    (freed : Translation.freeUnusedBlocknums root count t = some after) :
    Listed after ∧ after.type = t.type := by
  -- By induction on how many numbers are looked at.
  induction count generalizing after with
  | zero =>
    cases freed
    exact ⟨listed, rfl⟩
  | succ b ih =>
    rw [Translation.freeUnusedBlocknums] at freed
    obtain ⟨before, earlier, freed⟩ := of_bind freed
    obtain ⟨pair, here, freed⟩ := of_bind freed
    obtain ⟨kept, type⟩ := ih earlier
    split at freed
    · cases freed
      exact ⟨kept, type⟩
    · obtain ⟨_, freed⟩ := of_invariant freed
      obtain ⟨listed, same⟩ := kept.freeBlocknum freed
      exact ⟨listed, same.trans type⟩

end Translation

open Translation

/-- A table as it lies on disk. -/
structure SavedTranslation where
  locationOnDisk : Nat
  sizeOnDisk : Nat
  smallestNeverUsedBlocknum : Nat
  blocknumFreelistHead : Int
  pairs : List BlockTranslationPair
  deriving DecidableEq

/-- What is written of a table: its numbers and the pairs of all block numbers that were used. -/
def Translation.saved (t : Translation) (locationOnDisk : Nat) : SavedTranslation where
  locationOnDisk := locationOnDisk
  sizeOnDisk := calculateSizeOnDisk t
  smallestNeverUsedBlocknum := t.smallestNeverUsedBlocknum
  blocknumFreelistHead := t.blocknumFreelistHead
  pairs := t.blockTranslation.take t.smallestNeverUsedBlocknum

/-- The tables of a file with every table that was written to it. -/
structure BlockTableFile where
  world : BlockTableWorld
  saved : List SavedTranslation

/-- What happens to the tables of a file: an operation, or reading back a table that was written. -/
inductive BlockTableFileEvent where
  | table (event : BlockTableEvent)
  | reopen (saved : SavedTranslation)
  deriving DecidableEq

namespace BlockTableFile

/-- The tables of a new file. -/
def new (bt : BlockTable) : BlockTableFile where
  world := { bt, dirty := false, checkpointDirty := false, phase := .idle }
  saved := []

/-- Do what is asked of the tables, and note what is written. -/
def next (file : BlockTableFile) : BlockTableFileEvent → Option BlockTableFile
  | .table .serializeTranslation => do
    let (location, bt) ← file.world.bt.serializeTranslation
    return {
      world := { file.world with bt, phase := .written }
      saved := (bt.inprogress.map fun t => t.saved location.toNat).toList ++ file.saved }
  | .table event => do
    let world ← file.world.next event
    return { file with world }
  | .reopen saved => do
    let bt ← BlockTable.createFromBuffer saved.locationOnDisk saved.sizeOnDisk
      saved.smallestNeverUsedBlocknum saved.blocknumFreelistHead saved.pairs
    return { file with world := (new bt).world }

/-- Operations come in the order that clients keep to, and what is read back was written. -/
def Allowed (file : BlockTableFile) : BlockTableFileEvent → Prop
  | .table event => file.world.Allowed event
  | .reopen saved => saved ∈ file.saved

instance (file : BlockTableFile) (event : BlockTableFileEvent) : Decidable (file.Allowed event) :=
  match event with
  | .table event => inferInstanceAs (Decidable (file.world.Allowed event))
  | .reopen saved => inferInstanceAs (Decidable (saved ∈ file.saved))

/-- What is asked in order is done. -/
def Step (file : BlockTableFile) (event : BlockTableFileEvent) (after : BlockTableFile) : Prop :=
  file.Allowed event ∧ file.next event = some after

/-- The tables that a file has at a time. -/
def tables (file : BlockTableFile) : List Translation :=
  file.world.bt.current :: (file.world.bt.inprogress.toList ++ [file.world.bt.checkpointed])

end BlockTableFile

namespace BlockTable

variable {bt after : BlockTable} {b size : Nat} {pair : BlockTranslationPair}

/-- Two states have the same tables. -/
structure SameTables (bt after : BlockTable) : Prop where
  current : after.current = bt.current
  inprogress : after.inprogress = bt.inprogress
  checkpointed : after.checkpointed = bt.checkpointed

/-- Giving a block back leaves the tables. -/
theorem SameTables.of_freeBlock (freed : bt.freeBlock pair = some after) : SameTables bt after := by
  obtain ⟨_, _, done⟩ := of_bind freed
  cases done
  exact ⟨rfl, rfl, rfl⟩

/-- Giving a block back or not leaves the tables. -/
theorem SameTables.of_freeUnless {kept : Bool} (freed : bt.freeUnless kept pair = some after) :
    SameTables bt after := by
  rw [freeUnless] at freed
  split at freed
  · cases freed
    exact ⟨rfl, rfl, rfl⟩
  · exact .of_freeBlock freed

/-- Giving back the blocks of the last checkpoint leaves the tables. -/
theorem SameTables.of_freeCheckpointed {i : Nat} {pairs : List BlockTranslationPair}
    (freed : bt.freeCheckpointed i pairs = some after) : SameTables bt after := by
  -- By induction on the pairs: only the allocator changes.
  induction pairs generalizing i bt with
  | nil =>
    cases freed
    exact ⟨rfl, rfl, rfl⟩
  | cons pair rest ih =>
    rw [freeCheckpointed] at freed
    split at freed
    · obtain ⟨_, freed⟩ := of_invariant freed
      obtain ⟨between, first, freed⟩ := of_bind freed
      have here := SameTables.of_freeBlock first
      have others := ih freed
      exact ⟨others.current.trans here.current, others.inprogress.trans here.inprogress,
        others.checkpointed.trans here.checkpointed⟩
    · exact ih freed

/-- A pair that is in use. -/
def UsedPair (pair : BlockTranslationPair) : Prop := PairOk pair ∧ pair.size ≠ sizeIsFree

/-- A block that is allocated is a pair in use, and leaves the tables. -/
theorem SameTables.of_allocBlock (positive : 0 < size)
    (allocated : bt.allocBlock size = some (pair, after)) :
      SameTables bt after ∧ UsedPair pair := by
  obtain ⟨⟨offset, ba⟩, _, done⟩ := of_bind allocated
  cases done
  refine ⟨⟨rfl, rfl, rfl⟩, .inr (.inr ⟨?_, ?_⟩), ?_⟩
  · show (0 : Int) < size
    omega
  · show (0 : Int) ≤ offset
    omega
  · show (size : Int) ≠ -1
    omega

/-- A block number gets a pair in use whatever the size, and the tables are left. -/
theorem SameTables.of_allocUnlessEmpty (allocated : bt.allocUnlessEmpty size = some (pair, after)) :
    SameTables bt after ∧ UsedPair pair := by
  rw [allocUnlessEmpty] at allocated
  split at allocated
  · rename_i positive
    exact SameTables.of_allocBlock positive allocated
  · cases allocated
    exact ⟨⟨rfl, rfl, rfl⟩, .inr (.inl rfl), by decide⟩

/-- Every table of a file has its list of free block numbers. -/
structure Listed (bt : BlockTable) : Prop where
  current : Translation.Listed bt.current
  currentType : bt.current.type = .current
  inprogress : ∀ t ∈ bt.inprogress, Translation.Listed t
  checkpointed : Translation.Listed bt.checkpointed
  checkpointedType : bt.checkpointed.type = .checkpointed

section

variable (listed : Listed bt)
include listed

/-- States with the same tables have their lists alike. -/
theorem Listed.same (same : SameTables bt after) : Listed after where
  current := by rw [same.current]; exact listed.current
  currentType := by rw [same.current]; exact listed.currentType
  inprogress := by rw [same.inprogress]; exact listed.inprogress
  checkpointed := by rw [same.checkpointed]; exact listed.checkpointed
  checkpointedType := by rw [same.checkpointed]; exact listed.checkpointedType

/-- Another list of the current table is the only change. -/
theorem Listed.withCurrent {current : Translation} (others : Translation.Listed current)
    (type : current.type = bt.current.type) :
    Listed { bt with current } where
  current := others
  currentType := type.trans listed.currentType
  inprogress := listed.inprogress
  checkpointed := listed.checkpointed
  checkpointedType := listed.checkpointedType

/-- Moving the block of a block number in use keeps the lists. -/
theorem Listed.reallocOnDiskInternal {offset : Int} {forCheckpoint : Bool}
    {old : BlockTranslationPair} (here : bt.current.blockTranslation[b]? = some old)
    (used : old.size ≠ sizeIsFree)
    (usable : forCheckpoint = true → ∃ t ∈ bt.inprogress, t.blockTranslation[b]? = some old)
    (done : bt.reallocOnDiskInternal b size forCheckpoint = some (offset, after)) :
    Listed after := by
  -- The pair of the number changes in the current table, and perhaps in the one in progress.
  rw [BlockTable.reallocOnDiskInternal] at done
  obtain ⟨other, there, done⟩ := of_bind done
  rw [here] at there
  cases there
  obtain ⟨freed, first, done⟩ := of_bind done
  obtain ⟨⟨pair, allocated⟩, second, done⟩ := of_bind done
  obtain ⟨written, third, done⟩ := of_bind done
  cases done
  have sameFirst := SameTables.of_freeUnless first
  obtain ⟨sameSecond, pairOk, stillUsed⟩ := SameTables.of_allocUnlessEmpty second
  have between := (listed.same sameFirst).same sameSecond
  have current : allocated.current.blockTranslation[b]? = some old := by
    rw [sameSecond.current, sameFirst.current]
    exact here
  have moved := between.withCurrent (between.current.setPair current used pairOk stillUsed) rfl
  rw [setInprogress] at third
  split at third
  · -- The table in progress has the same pair, and gets the new one too.
    rename_i wanted
    obtain ⟨t, found, third⟩ := of_bind third
    obtain ⟨_, third⟩ := of_invariant third
    cases third
    refine { moved with inprogress := fun other member => ?_ }
    cases member
    obtain ⟨known, member, there⟩ := usable wanted
    have found : allocated.inprogress = some t := found
    rw [sameSecond.inprogress, sameFirst.inprogress] at found
    rw [found] at member
    cases member
    exact (listed.inprogress t found).setPair there used pairOk stillUsed
  · cases third
    exact moved

/-- Freeing a block number keeps the lists. -/
theorem Listed.freeBlocknum {forCheckpoint : Bool}
    (done : bt.freeBlocknum b forCheckpoint = some after) : Listed after := by
  rw [BlockTable.freeBlocknum] at done
  obtain ⟨old, _, done⟩ := of_bind done
  obtain ⟨current, first, done⟩ := of_bind done
  obtain ⟨between, second, done⟩ := of_bind done
  obtain ⟨freed, type⟩ := listed.current.freeBlocknum first
  have inCurrent := listed.withCurrent freed type
  have inBoth : Listed between := by
    rw [freeInprogress] at second
    split at second
    · obtain ⟨t, found, second⟩ := of_bind second
      obtain ⟨again, freed, second⟩ := of_bind second
      cases second
      refine { inCurrent with inprogress := fun other member => ?_ }
      cases member
      exact ((listed.inprogress t found).freeBlocknum freed).1
    · cases second
      exact inCurrent
  split at done
  · exact inBoth.same (.of_freeUnless done)
  · obtain ⟨_, done⟩ := of_invariant done
    cases done
    exact inBoth

/-- Beginning a checkpoint keeps the lists. -/
theorem Listed.noteStartCheckpoint (done : bt.noteStartCheckpoint = some after) : Listed after := by
  obtain ⟨inprogress, copied, done⟩ := of_bind done
  cases done
  obtain ⟨shorter, type⟩ := listed.current.maybeOptimize
  refine { listed.withCurrent shorter type with inprogress := fun other member => ?_ }
  cases member
  exact (shorter.copy copied).1

/-- Writing the table in progress keeps the lists. -/
theorem Listed.serializeTranslation {location : Int}
    (done : bt.serializeTranslation = some (location, after)) : Listed after := by
  -- The pair of the table itself changes, which is in use.
  obtain ⟨t, found, done⟩ := of_bind done
  obtain ⟨old, here, done⟩ := of_bind done
  obtain ⟨empty, done⟩ := of_invariant done
  obtain ⟨⟨pair, allocated⟩, second, done⟩ := of_bind done
  obtain ⟨_, done⟩ := of_invariant done
  cases done
  obtain ⟨same, pairOk, stillUsed⟩ := SameTables.of_allocBlock (by
    rw [calculateSizeOnDisk]
    omega) second
  refine { listed.same same with inprogress := fun other member => ?_ }
  cases member
  subst empty
  exact (listed.inprogress t found).setPair here (by decide) pairOk stillUsed

/-- Ending a checkpoint keeps the lists. -/
theorem Listed.noteEndCheckpoint (done : bt.noteEndCheckpoint = some after) : Listed after := by
  -- A checkpoint that was skipped only lets go of the table in progress.
  obtain ⟨t, found, done⟩ := of_bind done
  split at done
  · cases done
    exact { listed with inprogress := fun other member => by cases member }
  · obtain ⟨_, _, done⟩ := of_bind done
    obtain ⟨_, done⟩ := of_invariant done
    obtain ⟨_, done⟩ := of_invariant done
    obtain ⟨freed, first, done⟩ := of_bind done
    cases done
    have same := SameTables.of_freeCheckpointed first
    -- The table in progress becomes the one of the last checkpoint.
    have inprogress := listed.inprogress t found
    exact
      { listed.same same with
        inprogress := fun other member => by cases member
        checkpointed := ⟨⟨inprogress.ok.reserved, inprogress.ok.short, inprogress.ok.pairs,
          inprogress.ok.unused, inprogress.ok.kept, inprogress.ok.freelist⟩, inprogress.exact⟩
        checkpointedType := rfl }

end

/-- The tables of a file that copies the last checkpoint have their lists. -/
theorem Listed.of_copy {checkpointed current : Translation} (listed : checkpointed.Listed)
    (type : checkpointed.type = .checkpointed)
    (copied : copyTranslation none checkpointed .current = some current)
    (allocator : AllocatorWorld) :
    Listed { current, inprogress := none, checkpointed, allocator, checkpointSkipped := false
             freed := [] } := by
  obtain ⟨others, copyType⟩ := listed.copy copied
  exact ⟨others, copyType, fun _ member => (by cases member), listed, type⟩

/-- A new file has no free block numbers. -/
theorem Listed.of_create {bt : BlockTable} (created : BlockTable.create = some bt) : Listed bt := by
  -- All pairs are those of reserved numbers.
  unfold BlockTable.create at created
  obtain ⟨current, copied, created⟩ := of_bind created
  obtain ⟨ba, _, created⟩ := of_bind created
  cases created
  have empty (b : Nat) (pair : BlockTranslationPair)
      (here : (List.replicate reservedBlocknums BlockTranslationPair.unallocated)[b]? = some pair) :
      pair = .unallocated ∧ b < reservedBlocknums := by
    have inside := (List.getElem?_eq_some_iff.mp here).1
    rw [List.length_replicate] at inside
    exact ⟨(List.mem_replicate.mp (List.mem_of_getElem? here)).2, inside⟩
  apply Listed.of_copy _ rfl copied
  refine ⟨⟨Nat.le_refl _, Nat.le_refl _, fun {b pair} here => ?_, fun {b pair} behind here => ?_,
    fun {b pair} _ here => ?_, [], .nil, List.nodup_nil, fun _ wrong => (by cases wrong)⟩,
    [], .nil, List.nodup_nil, fun b => ⟨fun wrong => (by cases wrong), fun found => ?_⟩⟩
  · exact .inr (.inl (empty b pair here).1)
  · have inside := (empty b pair here).2
    exact absurd inside (Nat.not_lt_of_le behind)
  · rw [(empty b pair here).1]
    decide
  · exact absurd found.2.1 (Nat.not_lt_of_le found.1)

end BlockTable

namespace SavedTranslation

/-- The table that a saved one is read as. -/
def table (saved : SavedTranslation) : Translation where
  type := .checkpointed
  smallestNeverUsedBlocknum := saved.smallestNeverUsedBlocknum
  blocknumFreelistHead := saved.blocknumFreelistHead
  blockTranslation := saved.pairs

/-- What is written of a table has its list. -/
theorem listed_of {t : Translation} (listed : t.Listed) (locationOnDisk : Nat) :
    (t.saved locationOnDisk).table.Listed := by
  -- The saved array ends where the list does.
  have short := listed.ok.short
  have same : ∀ {place : Nat} {pair : BlockTranslationPair},
      (t.blockTranslation.take t.smallestNeverUsedBlocknum)[place]? = some pair →
      place < t.smallestNeverUsedBlocknum ∧ t.blockTranslation[place]? = some pair := by
    intro place pair here
    have inside := (List.getElem?_eq_some_iff.mp here).1
    rw [List.length_take] at inside
    rw [List.getElem?_take_of_lt (by omega)] at here
    exact ⟨by omega, here⟩
  obtain ⟨nums, chain, nodup, members⟩ := freelistExact_take listed.exact
  refine ⟨⟨listed.ok.reserved, ?_, fun here => listed.ok.pairs (same here).2,
    fun behind here => absurd (same here).1 (Nat.not_lt_of_le behind),
    fun early here => listed.ok.kept early (same here).2,
    nums, chain, nodup, fun b member => ?_⟩, nums, chain, nodup, members⟩
  · show _ ≤ (t.blockTranslation.take t.smallestNeverUsedBlocknum).length
    rw [List.length_take]
    show t.smallestNeverUsedBlocknum ≤ _
    omega
  · have found := (members b).mp member
    exact ⟨found.1, found.2.1⟩

end SavedTranslation

namespace BlockTableFile

variable {file after : BlockTableFile}

/-- The tables of a file and all that were written have their lists. -/
structure Listed (file : BlockTableFile) : Prop where
  bt : file.world.bt.Listed
  saved : ∀ saved ∈ file.saved, saved.table.Listed

/-- What is asked of the tables in order keeps the lists. -/
theorem listed_of_next {world : BlockTableWorld} {event : BlockTableEvent}
    {next : BlockTableWorld} (listed : world.bt.Listed) (allowed : world.Allowed event)
    (done : world.next event = some next) : next.bt.Listed := by
  -- One case for each request, by the law of its function.
  cases event with
  | allocateBlocknum =>
    obtain ⟨⟨_, bt⟩, done, shape⟩ := of_bind done
    obtain ⟨⟨_, current⟩, allocated, same⟩ := of_bind done
    cases shape
    cases same
    obtain ⟨others, type, _⟩ := listed.current.allocateBlocknum allocated
    exact listed.withCurrent others type
  | reallocOnDisk b size forCheckpoint =>
    obtain ⟨⟨_, bt⟩, done, shape⟩ := of_bind done
    obtain ⟨_, done⟩ := of_invariant done
    obtain ⟨_, ⟨⟨old, here, used⟩, usable⟩, _⟩ := allowed
    have moved := listed.reallocOnDiskInternal here used (fun wanted => by
      obtain ⟨_, t, member, same⟩ := usable wanted
      exact ⟨t, member, same.trans here⟩) done
    cases shape
    cases forCheckpoint <;> exact moved
  | reallocDescriptorOnDisk size =>
    obtain ⟨⟨_, bt⟩, done, shape⟩ := of_bind done
    have reserved : reservedBlocknums ≤ _ := listed.current.ok.reserved
    obtain ⟨old, here⟩ := listed.current.ok.get (b := reservedBlocknumDescriptor)
      (Nat.lt_of_lt_of_le (by decide) reserved)
    have moved := listed.reallocOnDiskInternal here (listed.current.ok.kept (by decide) here)
      (fun wrong => by cases wrong) done
    cases shape
    exact moved
  | freeBlocknum b forCheckpoint =>
    obtain ⟨bt, done, shape⟩ := of_bind done
    have freed := listed.freeBlocknum done
    cases shape
    cases forCheckpoint <;> exact freed
  | freeUnusedBlocknums root =>
    obtain ⟨bt, done, shape⟩ := of_bind done
    obtain ⟨current, freed, same⟩ := of_bind done
    cases shape
    cases same
    obtain ⟨others, type⟩ := listed.current.freeUnused freed
    exact listed.withCurrent others type
  | noteStartCheckpoint =>
    obtain ⟨bt, did, shape⟩ := of_bind done
    cases shape
    exact listed.noteStartCheckpoint did
  | serializeTranslation =>
    obtain ⟨⟨_, bt⟩, did, shape⟩ := of_bind done
    cases shape
    exact listed.serializeTranslation did
  | noteSkippedCheckpoint =>
    obtain ⟨bt, done, shape⟩ := of_bind done
    obtain ⟨_, same⟩ := of_invariant done
    cases shape
    cases same
    exact ⟨listed.current, listed.currentType, listed.inprogress, listed.checkpointed,
      listed.checkpointedType⟩
  | noteEndCheckpoint =>
    obtain ⟨bt, did, shape⟩ := of_bind done
    cases shape
    exact listed.noteEndCheckpoint did

/-- Reading back a table with its list gives tables with their lists. -/
theorem listed_of_reopen {saved : SavedTranslation} {bt : BlockTable}
    (listed : saved.table.Listed)
    (created : BlockTable.createFromBuffer saved.locationOnDisk saved.sizeOnDisk
      saved.smallestNeverUsedBlocknum saved.blocknumFreelistHead saved.pairs = some bt) :
    bt.Listed := by
  -- The table that is read is checked and then copied.
  unfold BlockTable.createFromBuffer at created
  obtain ⟨checkpointed, read, created⟩ := of_bind created
  obtain ⟨current, copied, created⟩ := of_bind created
  obtain ⟨blocks, _, created⟩ := of_bind created
  obtain ⟨ba, _, created⟩ := of_bind created
  cases created
  have same : checkpointed = saved.table := by
    unfold BlockTable.translationDeserialize at read
    obtain ⟨_, read⟩ := of_invariant read
    obtain ⟨_, read⟩ := of_invariant read
    obtain ⟨_, read⟩ := of_invariant read
    obtain ⟨_, read⟩ := of_invariant read
    obtain ⟨_, _, read⟩ := of_bind read
    obtain ⟨_, read⟩ := of_invariant read
    obtain ⟨_, read⟩ := of_invariant read
    cases read
    rfl
  subst same
  exact BlockTable.Listed.of_copy listed rfl copied _

/-- Every step keeps the lists. -/
theorem Listed.step {event : BlockTableFileEvent} (listed : file.Listed)
    (step : Step file event after) : after.Listed := by
  -- The only table that comes from outside is one that some checkpoint wrote.
  obtain ⟨allowed, done⟩ := step
  cases event with
  | reopen saved =>
    obtain ⟨bt, created, done⟩ := of_bind done
    cases done
    exact ⟨listed_of_reopen (listed.saved saved allowed) created, listed.saved⟩
  | table event =>
    by_cases writes : event = .serializeTranslation
    · -- The table that is written is the one in progress.
      subst writes
      obtain ⟨⟨location, bt⟩, serialized, done⟩ := of_bind done
      cases done
      have kept := listed.bt.serializeTranslation serialized
      refine ⟨kept, fun saved member => ?_⟩
      obtain new | old := List.mem_append.mp member
      · obtain ⟨t, found, rfl⟩ := Option.map_eq_some_iff.mp (Option.mem_toList.mp new)
        exact SavedTranslation.listed_of (kept.inprogress t found) _
      · exact listed.saved saved old
    · have shape : (file.world.next event).bind (fun world => some { file with world }) =
          some after := by
        cases event <;> first | exact done | exact absurd rfl writes
      obtain ⟨world, next, same⟩ := of_bind shape
      cases same
      exact ⟨listed_of_next listed.bt allowed next, listed.saved⟩

/-- A block number is in use in a table. -/
def InUse (t : Translation) (b : Nat) : Prop :=
  b < t.smallestNeverUsedBlocknum ∧
    ∃ pair, t.blockTranslation[b]? = some pair ∧ pair.size ≠ sizeIsFree

/-- After everything that can be done to a file the links of every table go once through exactly
its free block numbers, and a block number that is given out was not in use. -/
theorem freelist_exact {bt : BlockTable} (created : BlockTable.create = some bt)
    {events : List BlockTableFileEvent} {file : BlockTableFile}
    (run : Runs Step (new bt) events file) :
    (∀ t ∈ file.tables,
      FreelistExact t.blockTranslation t.smallestNeverUsedBlocknum t.blocknumFreelistHead ∧
        t.smallestNeverUsedBlocknum ≤ t.blockTranslation.length) ∧
    ∃ b after, file.world.bt.allocateBlocknum = some (b, after) ∧
      ¬InUse file.world.bt.current b := by
  -- The lists are exact after every run, by induction over its steps.
  have listed : file.Listed := run.invariant
    ⟨.of_create created, fun _ wrong => (by cases wrong)⟩ fun kept step => kept.step step
  constructor
  · intro t member
    have each : t.Listed := by
      simp only [tables, List.mem_cons, List.mem_append, Option.mem_toList, List.not_mem_nil,
        or_false] at member
      obtain rfl | inprogress | rfl := member
      · exact listed.bt.current
      · exact listed.bt.inprogress t inprogress
      · exact listed.bt.checkpointed
    exact ⟨each.exact, each.ok.short⟩
  · obtain ⟨b, current, allocated, _⟩ := allocateBlocknum_ok listed.bt.current.ok
    refine ⟨b, { file.world.bt with current }, ?_, fun ⟨below, pair, here, used⟩ => ?_⟩
    · rw [BlockTable.allocateBlocknum, allocated]
      rfl
    · obtain ⟨_, _, never | free⟩ := listed.bt.current.allocateBlocknum allocated
      · exact absurd below (Nat.not_lt_of_le (Nat.le_of_eq never.symm))
      · exact not_freeAt here used free

/-- Do what may be asked. -/
def nextAllowed (file : BlockTableFile) (event : BlockTableFileEvent) : Option BlockTableFile := do
  invariant (file.Allowed event)
  file.next event

/-- A table with a free block number is written, read back, and gives that number out again. -/
theorem freelist_exact_reopened : ∃ bt file, BlockTable.create = some bt ∧
    [.table .allocateBlocknum, .table .allocateBlocknum, .table (.reallocOnDisk 4 100 false),
      .table (.freeBlocknum 3 false), .table .noteStartCheckpoint, .table .serializeTranslation,
      .table .noteEndCheckpoint,
      .reopen ⟨12288, 100, 5, 3, [⟨-2, 0⟩, ⟨12288, 100⟩, ⟨-2, 0⟩, ⟨-1, -1⟩, ⟨8192, 100⟩]⟩].foldlM
        nextAllowed (new bt) = some file ∧
    (file.world.bt.allocateBlocknum.map Prod.fst) = some 3 ∧
    (∀ t ∈ file.tables,
      FreelistExact t.blockTranslation t.smallestNeverUsedBlocknum t.blocknumFreelistHead ∧
        t.smallestNeverUsedBlocknum ≤ t.blockTranslation.length) ∧
    ∃ b after, file.world.bt.allocateBlocknum = some (b, after) ∧
      ¬InUse file.world.bt.current b := by
  have served : ((BlockTable.create.bind fun bt =>
      [.table .allocateBlocknum, .table .allocateBlocknum, .table (.reallocOnDisk 4 100 false),
        .table (.freeBlocknum 3 false), .table .noteStartCheckpoint, .table .serializeTranslation,
        .table .noteEndCheckpoint,
        .reopen ⟨12288, 100, 5, 3,
          [⟨-2, 0⟩, ⟨12288, 100⟩, ⟨-2, 0⟩, ⟨-1, -1⟩, ⟨8192, 100⟩]⟩].foldlM
            nextAllowed (new bt)).map fun file =>
        file.world.bt.allocateBlocknum.map Prod.fst) = some (some 3) := by
    decide +kernel
  obtain ⟨file, reached, given⟩ := Option.map_eq_some_iff.mp served
  obtain ⟨bt, created, folded⟩ := of_bind reached
  exact ⟨bt, file, created, folded, given,
    freelist_exact created ((Runs.of_foldlM folded).mono of_invariant)⟩

end BlockTableFile

end Tokuft
