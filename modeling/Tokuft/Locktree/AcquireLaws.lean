import Tokuft.Locktree.HeldKeys

/-! Acquiring a range in the tree: its conflicts are exact, and its own locks are consolidated. -/

namespace Tokuft

variable {Key : Type} {lock : RowLock Key} {after : List (RowLock Key)}
variable [LinearOrder Key]

/-- Iterating over a locked range finds exactly the locks that overlap it. -/
theorem iterateAndGetOverlappingRowLocks_ok {lkr : LockedKeyrange Key} (ok : lkr.Ok)
    (ordered : lkr.range.Ordered) :
    ∃ iterated, iterateAndGetOverlappingRowLocks lkr = (iterated,
        lkr.release.locks.filter fun lock => lkr.range.overlaps lock.range) ∧ iterated.Ok ∧
      iterated.range = lkr.range ∧ iterated.release.locks = lkr.release.locks ∧
      iterated.frames = lkr.frames := by
  have goesOn : Treenode.StaysDone fun (found : List (RowLock Key)) lock =>
      (found ++ [lock], true) := by
    intro found lock done
    cases done
  obtain ⟨stillOk, sameRange, sameLocks, found⟩ :=
    LockedKeyrange.iterate_ok @goesOn ok ordered []
  refine ⟨_, ?_, stillOk, sameRange, sameLocks, rfl⟩
  rw [iterateAndGetOverlappingRowLocks, Prod.ext_iff]
  refine ⟨rfl, ?_⟩
  rw [found]
  -- Appending one lock after the other copies the list.
  have copies (locks : List (RowLock Key)) : ∀ start : List (RowLock Key),
      locks.foldl (fun found lock => found ++ [lock]) start = start ++ locks := by
    induction locks with
    | nil => simp
    | cons lock rest ih =>
      intro start
      rw [List.foldl_cons, ih, List.append_assoc, List.singleton_append]
  exact (copies _ []).trans (List.nil_append _)

/-- Own locks that overlap a range are taken out, and the range grows by them. -/
theorem consolidate_ok (txnid : Nat) : ∀ (overlapping : List (RowLock Key))
    {lkr : LockedKeyrange Key} {range : Keyrange Key}, lkr.Ok → lkr.Admits range →
      range.Ordered → overlapping.Nodup →
      (∀ lock ∈ overlapping, lock ∈ lkr.release.locks ∧ lock.txnid = txnid ∧
        lkr.range.overlaps lock.range = true ∧ range.overlaps lock.range = true) →
      ∃ consolidated hull, consolidate txnid lkr range overlapping = some (consolidated, hull) ∧
        consolidated.Ok ∧ consolidated.frames = lkr.frames ∧ consolidated.Admits hull ∧
        hull.Ordered ∧
        (∀ key, key ∈ hull.keys ↔
          key ∈ range.keys ∨ ∃ lock ∈ overlapping, key ∈ lock.range.keys) ∧
        ∀ other, other ∈ consolidated.release.locks ↔
          other ∈ lkr.release.locks ∧ other ∉ overlapping := by
  -- By induction on the overlapping locks, with the grown range as accumulator.
  intro overlapping
  induction overlapping with
  | nil =>
    intro lkr range ok admits ordered nodup all
    exact ⟨lkr, range, rfl, ok, rfl, admits, ordered, by simp, by simp⟩
  | cons lock rest ih =>
    intro lkr range ok admits ordered nodup all
    obtain ⟨member, own, overlap, overlapRange⟩ := all lock List.mem_cons_self
    obtain ⟨notRest, restNodup⟩ := List.nodup_cons.mp nodup
    obtain ⟨removed, done, removedOk, sameRange, sameFrames, taken, -⟩ :=
      LockedKeyrange.remove_ok ok member overlap
    have remains (other : RowLock Key) : other ∈ removed.release.locks ↔
        other ∈ lkr.release.locks ∧ other ≠ lock := taken.mem ok.locksOk.nodup
    have stillAdmits : removed.Admits (range.extend lock.range) := by
      have extended := LockedKeyrange.Admits.extend ok admits (ok.mem_subtree member overlap)
      unfold LockedKeyrange.Admits at extended ⊢
      rwa [sameFrames]
    obtain ⟨consolidated, hull, run, okAfter, framesAfter, admitsAfter, orderedAfter, keysAfter,
        locksAfter⟩ :=
      ih removedOk stillAdmits (Keyrange.extend_ordered ordered) restNodup (by
        intro other inRest
        obtain ⟨otherMember, otherOwn, otherOverlap, otherOverlapRange⟩ :=
          all other (List.mem_cons_of_mem _ inRest)
        refine ⟨(remains other).mpr ⟨otherMember, ?_⟩, otherOwn, by rwa [sameRange],
          Keyrange.extend_overlaps otherOverlapRange⟩
        rintro rfl
        exact notRest inRest)
    refine ⟨consolidated, hull, ?_, okAfter, framesAfter.trans sameFrames, admitsAfter,
      orderedAfter, ?_, ?_⟩
    · simp only [consolidate, invariant_of own, done, bind_runs, run]
    · intro key
      rw [keysAfter, Keyrange.keys_extend overlapRange, Set.mem_union,
        List.exists_mem_cons_iff, or_assoc]
    · intro other
      rw [locksAfter, remains, List.mem_cons]
      tauto

/-- Locks in which a transaction has one lock on a range and on all it held that overlaps it. -/
structure Consolidated (txnid : Nat) (range : Keyrange Key) (hull : RowLock Key)
    (before after : List (RowLock Key)) : Prop where
  ok : LocksOk after
  own : hull.txnid = txnid
  mem : ∀ other, other ∈ after ↔
    other = hull ∨ other ∈ before ∧ range.overlaps other.range = false
  keys : ∀ key, key ∈ hull.range.keys ↔ key ∈ range.keys ∨
    ∃ old ∈ before, range.overlaps old.range = true ∧ key ∈ old.range.keys

variable {range : Keyrange Key} {txnid : Nat}

section

variable (lkr : LockedKeyrange Key) (atRoot : lkr.frames = []) (ok : LocksOk lkr.subtree.locks)
  (ordered : range.Ordered)
include lkr atRoot ok ordered

/-- A request without conflicts is granted, and its transaction then has one lock on all of it. -/
theorem acquireLockConsolidated_granted
    (free : ∀ lock ∈ lkr.subtree.locks, range.overlaps lock.range = true → lock.txnid = txnid) :
    ∃ acquired conflicts, acquireLockConsolidated lkr txnid range [] =
        some (acquired, true, conflicts) ∧
      ∃ hull, Consolidated txnid range hull lkr.subtree.locks acquired.release.locks := by
  obtain ⟨frames, tree, wide⟩ := lkr
  dsimp only at atRoot ok free ⊢
  subst atRoot
  obtain ⟨locked, lockedEq, lockedOk, lockedRange, lockedLocks⟩ :=
    LockedKeyrange.acquire_ok wide ok ordered
  obtain ⟨iterated, iteratedEq, iteratedOk, iteratedRange, iteratedLocks, -⟩ :=
    iterateAndGetOverlappingRowLocks_ok lockedOk (by rwa [lockedRange])
  have found (lock : RowLock Key) :
      lock ∈ locked.release.locks.filter (fun lock => locked.range.overlaps lock.range) ↔
        lock ∈ tree.locks ∧ range.overlaps lock.range = true := by
    rw [List.mem_filter, lockedLocks, lockedRange]
  have noConflict : (determineConflictingTxnids (locked.release.locks.filter fun lock =>
      locked.range.overlaps lock.range) txnid []).1 = false := by
    rw [Bool.eq_false_iff]
    intro exist
    obtain ⟨lock, member, other⟩ := (determineConflictingTxnids_ok _ _ _).1.mp exist
    obtain ⟨inTree, overlap⟩ := (found lock).mp member
    exact other (free lock inTree overlap)
  have sameRange : iterated.range = range := iteratedRange.trans lockedRange
  obtain ⟨consolidated, hull, run, consolidatedOk, -, admits, hullOrdered, keys, remains⟩ :=
    consolidate_ok txnid (locked.release.locks.filter fun lock =>
        locked.range.overlaps lock.range) iteratedOk
      (show iterated.Admits range from sameRange ▸ iteratedOk.admits) ordered
      ((lockedLocks ▸ ok.nodup : locked.release.locks.Nodup).filter _) (by
        intro lock member
        obtain ⟨inTree, overlap⟩ := (found lock).mp member
        refine ⟨by rw [iteratedLocks, lockedLocks]; exact inTree, free lock inTree overlap,
          by rw [sameRange]; exact overlap, overlap⟩)
  have left (other : RowLock Key) : other ∈ consolidated.release.locks ↔
      other ∈ tree.locks ∧ range.overlaps other.range = false := by
    rw [remains, found, iteratedLocks, lockedLocks, ← Bool.not_eq_true]
    tauto
  -- What is left overlaps neither the range nor the locks that were taken out.
  have alone : ∀ other ∈ consolidated.subtree.locks,
      hull.overlaps other.range = false := by
    intro other inside
    have there : other ∈ consolidated.release.locks := by
      rw [LockedKeyrange.locks_release]
      exact List.mem_append_left _ (List.mem_append_right _ inside)
    obtain ⟨inTree, apart⟩ := (left other).mp there
    rw [Bool.eq_false_iff]
    intro overlap
    obtain ⟨key, inHull, inOther⟩ :=
      (Keyrange.overlaps_iff_shared hullOrdered (ok.ordered other inTree)).mp overlap
    rcases (keys key).mp inHull with inRange | ⟨old, member, inOld⟩
    · have shared := (Keyrange.overlaps_iff_shared ordered (ok.ordered other inTree)).mpr
        ⟨key, inRange, inOther⟩
      simp [apart] at shared
    · obtain ⟨oldInTree, oldOverlap⟩ := (found old).mp member
      have same := ok.eq_of_overlaps oldInTree inTree
        ((Keyrange.overlaps_iff_shared (ok.ordered old oldInTree) (ok.ordered other inTree)).mpr
          ⟨key, inOld, inOther⟩)
      rw [same, apart] at oldOverlap
      cases oldOverlap
  obtain ⟨inserted, done, insertedOk, -, -, put, -⟩ :=
    LockedKeyrange.insert_ok { range := hull, txnid := txnid } consolidatedOk
      hullOrdered admits alone
  refine ⟨inserted, (determineConflictingTxnids (locked.release.locks.filter fun lock =>
      locked.range.overlaps lock.range) txnid []).2, ?_, { range := hull, txnid := txnid },
    insertedOk.locksOk, rfl, ?_, ?_⟩
  · simp only [acquireLockConsolidated, lockedEq, bind_runs, iteratedEq, noConflict,
      Bool.false_eq_true, if_false, run, done]
  · intro other
    rw [put.mem, left]
  · intro key
    rw [keys]
    constructor
    · rintro (inRange | ⟨old, member, inOld⟩)
      · exact Or.inl inRange
      · exact Or.inr ⟨old, ((found old).mp member).1, ((found old).mp member).2, inOld⟩
    · rintro (inRange | ⟨old, inTree, overlap, inOld⟩)
      · exact Or.inl inRange
      · exact Or.inr ⟨old, (found old).mpr ⟨inTree, overlap⟩, inOld⟩

/-- A request with conflicts is refused, which changes no lock and names the conflicts exactly. -/
theorem acquireLockConsolidated_refused
    (taken : ∃ lock ∈ lkr.subtree.locks, range.overlaps lock.range = true ∧ lock.txnid ≠ txnid) :
    ∃ acquired conflicts, acquireLockConsolidated lkr txnid range [] =
        some (acquired, false, conflicts) ∧ acquired.release.locks = lkr.subtree.locks ∧
      ∀ other, other ∈ conflicts ↔ ∃ lock ∈ lkr.subtree.locks,
        range.overlaps lock.range = true ∧ lock.txnid ≠ txnid ∧ lock.txnid = other := by
  -- The overlapping locks are only looked at.
  obtain ⟨frames, tree, wide⟩ := lkr
  dsimp only at atRoot ok taken ⊢
  subst atRoot
  obtain ⟨locked, lockedEq, lockedOk, lockedRange, lockedLocks⟩ :=
    LockedKeyrange.acquire_ok wide ok ordered
  obtain ⟨iterated, iteratedEq, -, -, iteratedLocks, -⟩ :=
    iterateAndGetOverlappingRowLocks_ok lockedOk (by rwa [lockedRange])
  obtain ⟨exist, set⟩ := determineConflictingTxnids_ok (locked.release.locks.filter fun lock =>
      locked.range.overlaps lock.range) txnid []
  have conflict := exist.mpr (by
    obtain ⟨lock, inTree, overlap, other⟩ := taken
    refine ⟨lock, ?_, other⟩
    rw [List.mem_filter, lockedLocks, lockedRange]
    exact ⟨inTree, overlap⟩)
  refine ⟨iterated, (determineConflictingTxnids (locked.release.locks.filter fun lock =>
      locked.range.overlaps lock.range) txnid []).2, ?_, iteratedLocks.trans lockedLocks, ?_⟩
  · simp only [acquireLockConsolidated, lockedEq, bind_runs, iteratedEq, conflict, if_true]
  · intro other
    rw [set other, lockedLocks, lockedRange]
    simp only [List.mem_filter, List.not_mem_nil, false_or, and_assoc]

end

/-- A range with the keys of some ranges begins and ends where two of these do. -/
theorem Keyrange.ends_of_keys {hull : Keyrange Key} (ordered : hull.Ordered)
    {ranges : Set (Keyrange Key)} (each : ∀ range ∈ ranges, range.Ordered)
    (keys : ∀ key, key ∈ hull.keys ↔ ∃ range ∈ ranges, key ∈ range.keys) :
    ∃ first ∈ ranges, ∃ last ∈ ranges, hull.left = first.left ∧ hull.right = last.right := by
  -- An end lies in one of the ranges, whose own end lies in the hull.
  obtain ⟨first, firstMember, inFirst⟩ := (keys hull.left).mp (Keyrange.left_mem_keys ordered)
  obtain ⟨last, lastMember, inLast⟩ := (keys hull.right).mp (Set.right_mem_Icc.mpr ordered)
  have left := (keys first.left).mpr
    ⟨first, firstMember, Keyrange.left_mem_keys (each first firstMember)⟩
  have right := (keys last.right).mpr
    ⟨last, lastMember, Set.right_mem_Icc.mpr (each last lastMember)⟩
  exact ⟨first, firstMember, last, lastMember, le_antisymm left.1 inFirst.1,
    le_antisymm inLast.2 right.2⟩

/-- Consolidating own locks rearranges them together with the requested one. -/
theorem Consolidated.rearranged {hull : RowLock Key} {before : List (RowLock Key)}
    (consolidated : Consolidated txnid range hull before after) (ordered : range.Ordered)
    (beforeOrdered : ∀ lock ∈ before, lock.range.Ordered)
    (free : ∀ lock ∈ before, range.overlaps lock.range = true → lock.txnid = txnid) :
    Rearranged ({ range := range, txnid := txnid } :: before) after where
  stays := by
    have hullMember := (consolidated.mem hull).mpr (Or.inl rfl)
    intro old member
    rcases List.mem_cons.mp member with rfl | inBefore
    · exact ⟨hull, hullMember, consolidated.own,
        fun key inside => (consolidated.keys key).mpr (Or.inl inside)⟩
    · -- An old lock either stays or has gone into the new one.
      cases overlap : range.overlaps old.range with
      | false =>
        exact ⟨old, (consolidated.mem old).mpr (Or.inr ⟨inBefore, overlap⟩), rfl,
          Set.Subset.refl _⟩
      | true =>
        refine ⟨hull, hullMember, consolidated.own.trans (free old inBefore overlap).symm, ?_⟩
        exact fun key inside =>
          (consolidated.keys key).mpr (Or.inr ⟨old, inBefore, overlap, inside⟩)
  grown := by
    intro new member
    rcases (consolidated.mem new).mp member with rfl | ⟨old, -⟩
    · exact ⟨_, List.mem_cons_self, consolidated.own.symm,
        fun key inside => (consolidated.keys key).mpr (Or.inl inside)⟩
    · exact ⟨new, List.mem_cons_of_mem _ old, rfl, Set.Subset.refl _⟩
  within := by
    intro new member key inside
    rcases (consolidated.mem new).mp member with rfl | ⟨old, -⟩
    · rcases (consolidated.keys key).mp inside with inRange | ⟨old, inBefore, overlap, inOld⟩
      · exact ⟨_, List.mem_cons_self, consolidated.own.symm, inRange⟩
      · exact ⟨old, List.mem_cons_of_mem _ inBefore,
          (free old inBefore overlap).trans consolidated.own.symm, inOld⟩
    · exact ⟨new, List.mem_cons_of_mem _ old, rfl, inside⟩
  ends := by
    intro new member
    rcases (consolidated.mem new).mp member with rfl | ⟨old, -⟩
    · let joined : Set (Keyrange Key) := {old | ∃ lock ∈ { range, txnid } :: before,
        lock.txnid = txnid ∧ lock.range = old ∧ (old = range ∨ range.overlaps old = true)}
      have each : ∀ old ∈ joined, old.Ordered := by
        rintro old ⟨lock, there, -, rfl, -⟩
        rcases List.mem_cons.mp there with rfl | inBefore
        · exact ordered
        · exact beforeOrdered lock inBefore
      obtain ⟨-, ⟨first, firstThere, firstOwn, rfl, -⟩, -, ⟨last, lastThere, lastOwn, rfl, -⟩, left,
          right⟩ := Keyrange.ends_of_keys (consolidated.ok.ordered _ member) each fun key => by
        rw [consolidated.keys]
        constructor
        · rintro (inRange | ⟨old, inBefore, overlap, inOld⟩)
          · exact ⟨range, ⟨_, List.mem_cons_self, rfl, rfl, Or.inl rfl⟩, inRange⟩
          · exact ⟨old.range, ⟨old, List.mem_cons_of_mem _ inBefore, free old inBefore overlap, rfl,
              Or.inr overlap⟩, inOld⟩
        · rintro ⟨-, ⟨lock, there, -, rfl, same | overlap⟩, inOld⟩
          · exact Or.inl (same ▸ inOld)
          · rcases List.mem_cons.mp there with rfl | inBefore
            · exact Or.inl inOld
            · exact Or.inr ⟨lock, inBefore, overlap, inOld⟩
      exact ⟨first, firstThere, last, lastThere, firstOwn.trans consolidated.own.symm,
        lastOwn.trans consolidated.own.symm, left, right⟩
    · exact ⟨new, List.mem_cons_of_mem _ old, new, List.mem_cons_of_mem _ old, rfl, rfl, rfl, rfl⟩

/-- Locks of which those that overlap grew together, and no others did. -/
structure Coalesced (before after : List (RowLock Key)) : Prop extends Rearranged before after where
  ok : LocksOk after
  gapless : ∀ new ∈ after, ∀ key ∈ new.range.keys, key < new.range.right →
    ∃ old ∈ before, old.range.left ≤ key ∧ key < old.range.right

namespace Coalesced

variable {before : List (RowLock Key)}

/-- Locks that lie in order did not grow. -/
theorem refl (ok : LocksOk after) : Coalesced after after where
  toRearranged := .of_mem_iff fun _ => Iff.rfl
  ok := ok
  gapless := fun new member _ inside less => ⟨new, member, inside.1, less⟩

/-- It does not matter in which order the locks are listed. -/
theorem congr (coalesced : Coalesced before after) {given found : List (RowLock Key)}
    (sameGiven : ∀ lock, lock ∈ before ↔ lock ∈ given)
    (sameFound : ∀ lock, lock ∈ found ↔ lock ∈ after) (ok : LocksOk found) :
    Coalesced given found where
  toRearranged :=
    ((Rearranged.of_mem_iff sameGiven).trans coalesced.toRearranged).trans (.of_mem_iff sameFound)
  ok := ok
  gapless := by
    intro new member key inside less
    obtain ⟨old, there, goesOn⟩ := coalesced.gapless new ((sameFound new).mp member) key inside less
    exact ⟨old, (sameGiven old).mp there, goesOn⟩

/-- A range that is acquired grows together with what it overlaps. -/
theorem acquire {middle : List (RowLock Key)} {hull : RowLock Key}
    (coalesced : Coalesced before middle)
    (consolidated : Consolidated txnid range hull middle after)
    (ordered : range.Ordered)
    (free : ∀ lock ∈ middle, range.overlaps lock.range = true → lock.txnid = txnid) :
    Coalesced ({ range := range, txnid := txnid } :: before) after where
  toRearranged := (coalesced.toRearranged.cons _).trans
    (consolidated.rearranged ordered coalesced.ok.ordered free)
  ok := consolidated.ok
  gapless := by
    intro new member key inside less
    -- A lock that was there goes on behind its keys because old ones do.
    have goesOn (lock : RowLock Key) (there : lock ∈ middle) (begins : lock.range.left ≤ key)
        (ends : key < lock.range.right) : ∃ old ∈ { range := range, txnid := txnid } :: before,
          old.range.left ≤ key ∧ key < old.range.right := by
      obtain ⟨old, inBefore, both⟩ := coalesced.gapless lock there key ⟨begins, ends.le⟩ ends
      exact ⟨old, List.mem_cons_of_mem _ inBefore, both⟩
    rcases (consolidated.mem new).mp member with rfl | ⟨inMiddle, -⟩
    · by_cases inRange : range.left ≤ key ∧ key < range.right
      · exact ⟨_, List.mem_cons_self, inRange⟩
      -- Otherwise the lock at the right end of the hull begins in front of the key.
      rcases (consolidated.keys new.range.right).mp
          (Set.right_mem_Icc.mpr (consolidated.ok.ordered _ member)) with atEnd |
        ⟨last, lastMember, lastOverlap, atEnd⟩
      · have begins : key < range.left := by
          by_contra behind
          exact inRange ⟨not_lt.mp behind, less.trans_le atEnd.2⟩
        rcases (consolidated.keys key).mp inside with ⟨from', -⟩ | ⟨lock, there, overlap, inLock⟩
        · exact absurd from' (not_le.mpr begins)
        · exact goesOn lock there inLock.1
            (begins.trans_le (not_lt.mp (Keyrange.overlaps_iff.mp overlap).2))
      · rcases (consolidated.keys key).mp inside with ⟨from', upTo⟩ | ⟨lock, there, overlap, inLock⟩
        · have behind : range.right ≤ key := not_lt.mp fun ends => inRange ⟨from', ends⟩
          exact goesOn last lastMember
            ((not_lt.mp (Keyrange.overlaps_iff.mp lastOverlap).1).trans behind)
            (less.trans_le atEnd.2)
        · by_cases ends : key < lock.range.right
          · exact goesOn lock there inLock.1 ends
          · have reaches : range.left ≤ key :=
              (not_lt.mp (Keyrange.overlaps_iff.mp overlap).2).trans (not_lt.mp ends)
            have behind : range.right ≤ key := not_lt.mp fun ends => inRange ⟨reaches, ends⟩
            exact goesOn last lastMember
              ((not_lt.mp (Keyrange.overlaps_iff.mp lastOverlap).1).trans behind)
              (less.trans_le atEnd.2)
    · exact goesOn new inMiddle inside.1 less

end Coalesced

end Tokuft
