import Tokuft.Locktree.AcquireLaws

/-! Moving the buffered ranges of a single transaction into the tree. -/

namespace Tokuft

variable {Key : Type} {lock : RowLock Key} {after : List (RowLock Key)}
variable [LinearOrder Key]
variable {range : Keyrange Key} {txnid : Nat}

namespace LockedKeyrange

/-- At the root of the tree only the order of the locks matters. -/
theorem ok_of_atRoot {lkr : LockedKeyrange Key} (atRoot : lkr.frames = [])
    (ok : LocksOk lkr.subtree.locks) : lkr.Ok := by
  refine ⟨?_, by simp [atRoot, outerLeft], by simp [atRoot, outerRight],
    fun below => absurd atRoot below⟩
  rw [locks_release, atRoot]
  simpa [outerLeft, outerRight] using ok

omit [LinearOrder Key] in
/-- At the root of the tree the subtree is the whole tree. -/
theorem release_of_atRoot {lkr : LockedKeyrange Key} (atRoot : lkr.frames = []) :
    lkr.release = lkr.subtree := by
  simp [release, atRoot]

end LockedKeyrange

/-- Locks that overlap neither each other nor the tree can be inserted in any order. -/
theorem Locktree.insertLocks_ok : ∀ (locks : List (RowLock Key)) {lkr : LockedKeyrange Key},
    lkr.frames = [] → LocksOk lkr.subtree.locks →
      locks.Pairwise (fun first second => first.range.overlaps second.range = false) →
      (∀ lock ∈ locks, lock.range.Ordered) →
      (∀ lock ∈ locks, ∀ other ∈ lkr.subtree.locks, lock.range.overlaps other.range = false) →
      ∃ inserted, insertLocks lkr locks = some inserted ∧ inserted.frames = [] ∧
        inserted.range = lkr.range ∧ LocksOk inserted.subtree.locks ∧
        ∀ lock, lock ∈ inserted.subtree.locks ↔ lock ∈ lkr.subtree.locks ∨ lock ∈ locks := by
  intro locks
  induction locks with
  | nil =>
    intro lkr atRoot ok apart ordered alone
    exact ⟨lkr, rfl, atRoot, rfl, ok, by simp⟩
  | cons lock rest ih =>
    intro lkr atRoot ok apart ordered alone
    obtain ⟨fromRest, restApart⟩ := List.pairwise_cons.mp apart
    obtain ⟨inserted, done, -, sameRange, sameFrames, -, put⟩ :=
      LockedKeyrange.insert_ok lock (LockedKeyrange.ok_of_atRoot atRoot ok)
        (ordered lock List.mem_cons_self)
        ⟨by simp [atRoot, LockedKeyrange.outerLeft], by simp [atRoot, LockedKeyrange.outerRight]⟩
        (alone lock List.mem_cons_self)
    obtain ⟨all, run, allAtRoot, allRange, allOk, allMem⟩ :=
      ih (sameFrames.trans atRoot) (put.ok ok (ordered lock List.mem_cons_self)) restApart
        (fun other inRest => ordered other (List.mem_cons_of_mem _ inRest)) (by
          intro other inRest there inTree
          rcases put.mem.mp inTree with rfl | old
          · rw [Keyrange.overlaps_comm]
            exact fromRest other inRest
          · exact alone other (List.mem_cons_of_mem _ inRest) there old)
    refine ⟨all, ?_, allAtRoot, allRange.trans sameRange, allOk, ?_⟩
    · simp only [insertLocks, done, bind_runs, run]
    · intro other
      rw [allMem, put.mem, List.mem_cons, or_assoc, or_left_comm]

namespace Locktree

variable [BoundedOrder Key]

/-- The ranges of one transaction are always granted when they are collected. -/
theorem collectRanges_ok (txnid : Nat) : ∀ (ranges earlier : List (Keyrange Key))
    {tree : Treenode Key}, Coalesced (locksOf txnid earlier) tree.locks →
      (∀ range ∈ ranges, range.Ordered) →
      ∃ collected, collectRanges txnid tree ranges = some collected ∧
        Coalesced (locksOf txnid (earlier ++ ranges)) collected.locks := by
  -- By induction on the ranges: the locks in the tree are all of the one transaction.
  intro ranges
  induction ranges with
  | nil =>
    intro earlier tree coalesced ordered
    exact ⟨tree, rfl, by rwa [List.append_nil]⟩
  | cons range rest ih =>
    intro earlier tree coalesced ordered
    have own : ∀ lock ∈ tree.locks, range.overlaps lock.range = true → lock.txnid = txnid := by
      intro lock member overlap
      obtain ⟨old, there, same, -⟩ := coalesced.grown lock member
      exact same.symm.trans (mem_locksOf.mp there).1
    obtain ⟨acquired, conflicts, done, hull, consolidated⟩ :=
      acquireLockConsolidated_granted (LockedKeyrange.prepare tree) rfl coalesced.ok
        (ordered range List.mem_cons_self) own
    have more : Coalesced (locksOf txnid (earlier ++ [range])) acquired.release.locks :=
      (coalesced.acquire consolidated (ordered range List.mem_cons_self) own).congr
        (fun lock => mem_locksOf_snoc.symm) (fun lock => Iff.rfl) consolidated.ok
    obtain ⟨collected, run, all⟩ := ih (earlier ++ [range]) more
      (fun other member => ordered other (List.mem_cons_of_mem _ member))
    refine ⟨collected, ?_, by simpa using all⟩
    simp only [collectRanges, done, bind_runs, invariant_of trivial, run]

/-- The infinite range overlaps every other one. -/
theorem infinite_overlaps (range : Keyrange Key) : Keyrange.infinite.overlaps range = true :=
  Keyrange.overlaps_iff.mpr ⟨not_top_lt, not_lt_bot⟩

variable [RangeBuffers Key]

omit [LinearOrder Key] [BoundedOrder Key] in
/-- Ranges that come back from a range buffer, in some order. -/
def GivesBack (ranges : List (Keyrange Key)) : Prop :=
  ∃ read, RangeBuffers.iterate ranges = some read ∧ read.Perm ranges

/-- The buffered ranges move into the empty tree of the locked root. -/
theorem stoMigrateBufferRangesToTree_ok {lt : Locktree Key} {lkr : LockedKeyrange Key}
    {owner : Nat} (active : lt.stoTxnid = some owner) (buffered : lt.stoBuffer ≠ [])
    (reads : GivesBack lt.stoBuffer) (ordered : ∀ range ∈ lt.stoBuffer, range.Ordered)
    (empty : lt.rangetree.size = 0)
    (atRoot : lkr.frames = []) (nothing : lkr.subtree.locks = []) :
    ∃ migrated, lt.stoMigrateBufferRangesToTree lkr = some migrated ∧ migrated.frames = [] ∧
      migrated.range = lkr.range ∧
      Coalesced (locksOf owner lt.stoBuffer) migrated.subtree.locks := by
  -- What was collected overlaps nothing, so that the empty tree takes it as it is.
  obtain ⟨read, iterate, perm⟩ := reads
  obtain ⟨collected, run, collects⟩ :=
    collectRanges_ok owner read []
      (show Coalesced (locksOf owner []) Treenode.nil.locks from .refl LocksOk.nil)
      fun range member => ordered range (perm.subset member)
  obtain ⟨iterated, found, -, -, -, -⟩ := iterateAndGetOverlappingRowLocks_ok
    (LockedKeyrange.prepare_ok collects.ok) (show Keyrange.infinite.Ordered from bot_le)
  have all : (LockedKeyrange.prepare collected).release.locks.filter (fun lock =>
      (LockedKeyrange.prepare collected).range.overlaps lock.range) = collected.locks :=
    List.filter_eq_self.mpr fun lock member => infinite_overlaps lock.range
  rw [all] at found
  obtain ⟨inserted, done, insertedAtRoot, insertedRange, insertedOk, mem⟩ :=
    insertLocks_ok collected.locks atRoot (by rw [nothing]; exact LocksOk.nil)
      collects.ok.notOverlapping collects.ok.ordered (by simp [nothing])
  have same (lock : RowLock Key) : lock ∈ inserted.subtree.locks ↔ lock ∈ collected.locks := by
    rw [mem, nothing]
    simp
  have coalesced : Coalesced (locksOf owner lt.stoBuffer) inserted.subtree.locks :=
    collects.congr (fun lock => (perm.map _).mem_iff) same insertedOk
  have full : inserted.release.size ≠ 0 := by
    obtain ⟨range, member⟩ := List.exists_mem_of_ne_nil _ buffered
    obtain ⟨lock, there, -⟩ := coalesced.stays { range := range, txnid := owner }
      (mem_locksOf.mpr ⟨rfl, member⟩)
    rw [LockedKeyrange.release_of_atRoot insertedAtRoot]
    exact LockedKeyrange.size_ne_zero_of_mem there
  refine ⟨inserted, ?_, insertedAtRoot, insertedRange, coalesced⟩
  simp only [stoMigrateBufferRangesToTree, active, iterate, run, found, done, bind_runs,
    invariant_of empty, invariant_of full, invariant_of (List.isEmpty_eq_false_iff.mpr buffered)]

end Locktree

/-- Ranges of each transaction that come back from its range buffers, and so do those from the
left end of one of them to the right end of another. -/
structure RangeBuffers.Keeps [RangeBuffers Key] (kept : Nat → Set (Keyrange Key)) : Prop where
  joins : ∀ txnid, ∀ first ∈ kept txnid, ∀ last ∈ kept txnid, first.left ≤ last.right →
    { left := first.left, right := last.right } ∈ kept txnid
  givesBack : ∀ txnid ranges, (∀ range ∈ ranges, range ∈ kept txnid) →
    Locktree.GivesBack ranges

section

omit [LinearOrder Key]

/-- The locks of every transaction are on ranges that its range buffers keep. -/
def Stored (kept : Nat → Set (Keyrange Key)) (locks : List (RowLock Key)) : Prop :=
  ∀ lock ∈ locks, lock.range ∈ kept lock.txnid

/-- Iterating over a lossless range buffer gives what was appended. -/
theorem RangeBuffers.iterate_lossless (ranges : List (Keyrange Key)) :
    RangeBuffers.lossless.iterate ranges = some ranges := rfl

/-- Iterating over lossless range buffers gives what was appended to each of them. -/
theorem Locktree.iterateBuffers_lossless (buffers : List (Nat × List (Keyrange Key))) :
    @Locktree.iterateBuffers Key .lossless buffers = some buffers := by
  induction buffers with
  | nil => rfl
  | cons buffer rest ih => simp only [iterateBuffers, RangeBuffers.iterate_lossless, ih, bind_runs]

/-- Lossless range buffers give all ranges back. -/
theorem Locktree.givesBack_lossless (ranges : List (Keyrange Key)) :
    @Locktree.GivesBack Key .lossless ranges := ⟨ranges, rfl, .refl _⟩

/-- Any locks are on some ranges. -/
theorem Stored.all (locks : List (RowLock Key)) : Stored (fun _ => Set.univ) locks :=
  fun _ _ => trivial

end

/-- Lossless range buffers keep all ranges. -/
theorem RangeBuffers.Keeps.all : @RangeBuffers.Keeps Key _ .lossless fun _ => Set.univ :=
  ⟨fun _ _ _ _ _ _ => trivial, fun _ ranges _ => Locktree.givesBack_lossless ranges⟩

section

variable [RangeBuffers Key] {kept : Nat → Set (Keyrange Key)} (keeps : RangeBuffers.Keeps kept)
include keeps

/-- Ranges that grew together are kept when those before are. -/
theorem Rearranged.stored {before : List (RowLock Key)} (rearranged : Rearranged before after)
    (ordered : ∀ lock ∈ after, lock.range.Ordered) (stored : Stored kept before) :
    Stored kept after := by
  rintro ⟨⟨left, right⟩, txnid⟩ member
  obtain ⟨first, firstMember, last, lastMember, rfl, own, rfl, rfl⟩ := rearranged.ends _ member
  -- Both ends are ends of ranges of the same transaction.
  exact keeps.joins _ _ (stored first firstMember) _ (own ▸ stored last lastMember)
    (ordered _ member)

end

end Tokuft
