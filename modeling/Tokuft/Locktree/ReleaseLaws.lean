import Tokuft.Locktree.MigrateLaws

/-! Releasing ranges: the locks of one transaction that overlap them go, and all others stay. -/

namespace Tokuft

namespace Locktree

variable {Key : Type} [LinearOrder Key]

/-- Of some overlapping locks those of one transaction are removed. -/
theorem removeLocksOf_ok (txnid : Nat) : ∀ (locks : List (RowLock Key))
    {lkr : LockedKeyrange Key}, lkr.Ok → locks.Nodup →
      (∀ lock ∈ locks, lock ∈ lkr.release.locks ∧ lkr.range.overlaps lock.range = true) →
      ∃ removed, removeLocksOf txnid lkr locks = some removed ∧ removed.Ok ∧
        ∀ other, other ∈ removed.release.locks ↔
          other ∈ lkr.release.locks ∧ ¬ (other ∈ locks ∧ other.txnid = txnid) := by
  -- By induction on the overlapping locks.
  intro locks
  induction locks with
  | nil =>
    intro lkr ok nodup all
    exact ⟨lkr, rfl, ok, by simp⟩
  | cons lock rest ih =>
    intro lkr ok nodup all
    obtain ⟨notRest, restNodup⟩ := List.nodup_cons.mp nodup
    obtain ⟨member, overlap⟩ := all lock List.mem_cons_self
    by_cases own : lock.txnid = txnid
    · obtain ⟨removed, done, removedOk, sameRange, -, taken, -⟩ :=
        LockedKeyrange.remove_ok ok member overlap
      have remains (other : RowLock Key) : other ∈ removed.release.locks ↔
          other ∈ lkr.release.locks ∧ other ≠ lock := taken.mem ok.locksOk.nodup
      obtain ⟨final, run, finalOk, finalMem⟩ := ih removedOk restNodup (by
        intro other inRest
        obtain ⟨otherMember, otherOverlap⟩ := all other (List.mem_cons_of_mem _ inRest)
        refine ⟨(remains other).mpr ⟨otherMember, ?_⟩, by rwa [sameRange]⟩
        rintro rfl
        exact notRest inRest)
      refine ⟨final, ?_, finalOk, ?_⟩
      · simp only [removeLocksOf, if_pos own, done, bind_runs, run]
      · intro other
        rw [finalMem, remains, List.mem_cons]
        by_cases same : other = lock
        · simp [same, own]
        · simp [same]
    · obtain ⟨final, run, finalOk, finalMem⟩ := ih ok restNodup
        (fun other inRest => all other (List.mem_cons_of_mem _ inRest))
      refine ⟨final, ?_, finalOk, ?_⟩
      · simp only [removeLocksOf, if_neg own, bind_runs, run]
      · intro other
        rw [finalMem, List.mem_cons]
        by_cases same : other = lock
        · simp [same, own]
        · simp [same]

variable [BoundedOrder Key]

/-- Exactly the locks of a transaction that overlap a range are removed. -/
theorem removeOverlappingLocksForTxnid_ok {tree : Treenode Key} (ok : LocksOk tree.locks)
    (txnid : Nat) {range : Keyrange Key} (ordered : range.Ordered) :
    ∃ removed, removeOverlappingLocksForTxnid tree txnid range = some removed ∧
      LocksOk removed.locks ∧
      ∀ lock, lock ∈ removed.locks ↔
        lock ∈ tree.locks ∧ ¬ (lock.txnid = txnid ∧ range.overlaps lock.range = true) := by
  -- All locks that overlap the range are found first.
  obtain ⟨locked, lockedEq, lockedOk, lockedRange, lockedLocks⟩ :=
    LockedKeyrange.acquire_ok .infinite ok ordered
  obtain ⟨iterated, iteratedEq, iteratedOk, iteratedRange, iteratedLocks, -⟩ :=
    iterateAndGetOverlappingRowLocks_ok lockedOk (by rwa [lockedRange])
  have found (lock : RowLock Key) :
      lock ∈ locked.release.locks.filter (fun lock => locked.range.overlaps lock.range) ↔
        lock ∈ tree.locks ∧ range.overlaps lock.range = true := by
    rw [List.mem_filter, lockedLocks, lockedRange]
  obtain ⟨removed, run, removedOk, mem⟩ :=
    removeLocksOf_ok txnid (locked.release.locks.filter fun lock =>
        locked.range.overlaps lock.range) iteratedOk
      ((lockedLocks ▸ ok.nodup : locked.release.locks.Nodup).filter _) (by
        intro lock member
        obtain ⟨inTree, overlap⟩ := (found lock).mp member
        exact ⟨by rw [iteratedLocks, lockedLocks]; exact inTree,
          by rw [iteratedRange, lockedRange]; exact overlap⟩)
  refine ⟨removed.release, ?_, removedOk.locksOk, ?_⟩
  · have atRoot : (LockedKeyrange.prepare tree).acquire range = some locked := lockedEq
    simp only [removeOverlappingLocksForTxnid, atRoot, iteratedEq, run, bind_runs]
  · intro lock
    rw [mem, found, iteratedLocks, lockedLocks]
    tauto

/-- Exactly the locks of a transaction that overlap one of some ranges are removed. -/
theorem removeOverlappingLocks_ok (txnid : Nat) : ∀ (ranges : List (Keyrange Key))
    {tree : Treenode Key}, LocksOk tree.locks → (∀ range ∈ ranges, range.Ordered) →
      ∃ removed, removeOverlappingLocks txnid tree ranges = some removed ∧
        LocksOk removed.locks ∧
        ∀ lock, lock ∈ removed.locks ↔ lock ∈ tree.locks ∧
          ¬ (lock.txnid = txnid ∧ ∃ range ∈ ranges, range.overlaps lock.range = true) := by
  -- By induction on the ranges.
  intro ranges
  induction ranges with
  | nil =>
    intro tree ok ordered
    exact ⟨tree, rfl, ok, by simp⟩
  | cons range rest ih =>
    intro tree ok ordered
    obtain ⟨first, done, firstOk, firstMem⟩ :=
      removeOverlappingLocksForTxnid_ok ok txnid (ordered range List.mem_cons_self)
    obtain ⟨removed, run, removedOk, mem⟩ :=
      ih firstOk (fun other member => ordered other (List.mem_cons_of_mem _ member))
    refine ⟨removed, ?_, removedOk, ?_⟩
    · simp only [removeOverlappingLocks, done, bind_runs, run]
    · intro lock
      rw [mem, firstMem, List.exists_mem_cons_iff, and_or_left, not_or, and_assoc]

end Locktree

end Tokuft
