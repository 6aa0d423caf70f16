import Tokuft.Locktree.Locktree

/-! The keys that transactions hold by their locks, however the locks are arranged. -/

namespace Tokuft

variable {Key : Type} {lock : RowLock Key} {after : List (RowLock Key)}

/-- Taking a lock out of different ones leaves all the others. -/
theorem TakenOut.mem {other : RowLock Key} {before : List (RowLock Key)}
    (taken : TakenOut lock before after) (nodup : before.Nodup) :
    other ∈ after ↔ other ∈ before ∧ other ≠ lock := by
  obtain ⟨front, back, rfl, rfl⟩ := taken
  have notFront : lock ∉ front := by
    intro member
    exact (List.nodup_append.mp nodup).2.2 lock member lock List.mem_cons_self rfl
  have notBack : lock ∉ back := (List.nodup_cons.mp (List.nodup_append.mp nodup).2.1).1
  simp only [List.mem_append, List.mem_cons]
  constructor
  · intro member
    refine ⟨by tauto, ?_⟩
    intro same
    rw [same] at member
    exact member.elim notFront notBack
  · intro ⟨member, different⟩
    tauto

/-- Of different locks the first one can only be taken out at the front. -/
theorem TakenOut.head {rest : List (RowLock Key)} (taken : TakenOut lock (lock :: rest) after)
    (nodup : (lock :: rest).Nodup) : after = rest := by
  obtain ⟨front, back, whole, rfl⟩ := taken
  cases front with
  | nil => exact (List.cons.inj whole).2.symm
  | cons first front =>
    obtain ⟨rfl, inRest⟩ := List.cons.inj whole
    refine absurd ?_ (List.nodup_cons.mp nodup).1
    rw [inRest]
    exact List.mem_append_right _ List.mem_cons_self

/-- Conflicts exist exactly when another transaction has a lock, and they are its transactions. -/
theorem determineConflictingTxnids_ok (rowLocks : List (RowLock Key)) (txnid : Nat)
    (conflicts : List Nat) :
    ((determineConflictingTxnids rowLocks txnid conflicts).1 = true ↔
        ∃ lock ∈ rowLocks, lock.txnid ≠ txnid) ∧
      ∀ other, other ∈ (determineConflictingTxnids rowLocks txnid conflicts).2 ↔
        other ∈ conflicts ∨ ∃ lock ∈ rowLocks, lock.txnid ≠ txnid ∧ lock.txnid = other := by
  -- The loop carries a flag, which stays up once it is, and the set found so far.
  have loop (rowLocks : List (RowLock Key)) : ∀ (exist : Bool) (conflicts : List Nat),
      let result := rowLocks.foldl (fun result lock =>
        if lock.txnid ≠ txnid then (true, txnidSetAdd result.2 lock.txnid)
        else result) (exist, conflicts)
      (result.1 = true ↔ exist = true ∨ ∃ lock ∈ rowLocks, lock.txnid ≠ txnid) ∧
        ∀ other, other ∈ result.2 ↔
          other ∈ conflicts ∨ ∃ lock ∈ rowLocks, lock.txnid ≠ txnid ∧ lock.txnid = other := by
    induction rowLocks with
    | nil => simp
    | cons lock rest ih =>
      intro exist conflicts
      simp only [List.foldl_cons]
      by_cases own : lock.txnid = txnid
      · obtain ⟨flag, set⟩ := ih exist conflicts
        simp only [own, ne_eq, not_true_eq_false, if_false]
        exact ⟨flag.trans (by simp [own]), fun other => (set other).trans (by simp [own])⟩
      · obtain ⟨flag, set⟩ := ih true (txnidSetAdd conflicts lock.txnid)
        simp only [own, ne_eq, not_false_eq_true, if_true]
        refine ⟨flag.trans (by simp [own]), fun other => (set other).trans ?_⟩
        simp only [txnidSetAdd, List.mem_insert_iff, List.exists_mem_cons_iff]
        have here : (lock.txnid ≠ txnid ∧ lock.txnid = other) ↔ other = lock.txnid :=
          ⟨fun both => both.2.symm, fun same => ⟨own, same.symm⟩⟩
        rw [ne_eq] at here
        rw [here, or_assoc, or_left_comm]
  have result := loop rowLocks false conflicts
  exact ⟨result.1.trans (by simp), result.2⟩

/-- The locks that stand for ranges of one transaction. -/
def locksOf (txnid : Nat) (ranges : List (Keyrange Key)) : List (RowLock Key) :=
  ranges.map fun range => { range := range, txnid := txnid }

/-- Such a lock is of the transaction and on one of the ranges. -/
theorem mem_locksOf {txnid : Nat} {ranges : List (Keyrange Key)} :
    lock ∈ locksOf txnid ranges ↔ lock.txnid = txnid ∧ lock.range ∈ ranges := by
  rw [locksOf, List.mem_map]
  constructor
  · rintro ⟨range, member, rfl⟩
    exact ⟨rfl, member⟩
  · rintro ⟨rfl, member⟩
    exact ⟨lock.range, member, rfl⟩

/-- A last range stands for one more lock. -/
theorem mem_locksOf_snoc {txnid : Nat} {ranges : List (Keyrange Key)}
    {range : Keyrange Key} :
    lock ∈ locksOf txnid (ranges ++ [range]) ↔
      lock ∈ { range := range, txnid := txnid } :: locksOf txnid ranges := by
  rw [locksOf, locksOf, List.map_append, List.mem_cons, List.mem_append, List.map_singleton,
    List.mem_singleton, or_comm]

variable [LinearOrder Key]

/-- The keys that a transaction holds by a list of locks. -/
def heldKeys (locks : List (RowLock Key)) (txnid : Nat) : Set Key :=
  {key | ∃ lock ∈ locks, lock.txnid = txnid ∧ key ∈ lock.range.keys}

/-- Locks on the same keys for the same transactions, in which old ranges may
have grown together. -/
structure Rearranged (before after : List (RowLock Key)) : Prop where
  stays : ∀ old ∈ before, ∃ new ∈ after,
    new.txnid = old.txnid ∧ old.range.keys ⊆ new.range.keys
  grown : ∀ new ∈ after, ∃ old ∈ before,
    old.txnid = new.txnid ∧ old.range.keys ⊆ new.range.keys
  within : ∀ new ∈ after, ∀ key ∈ new.range.keys, ∃ old ∈ before,
    old.txnid = new.txnid ∧ key ∈ old.range.keys
  ends : ∀ new ∈ after, ∃ first ∈ before, ∃ last ∈ before,
    first.txnid = new.txnid ∧ last.txnid = new.txnid ∧
      new.range.left = first.range.left ∧ new.range.right = last.range.right

namespace Rearranged

variable {before after : List (RowLock Key)}

/-- Locks that stay the same are rearranged. -/
theorem of_mem_iff (same : ∀ lock, lock ∈ after ↔ lock ∈ before) : Rearranged before after where
  stays := fun old member => ⟨old, (same old).mpr member, rfl, Set.Subset.refl _⟩
  grown := fun new member => ⟨new, (same new).mp member, rfl, Set.Subset.refl _⟩
  within := fun new member _ inside => ⟨new, (same new).mp member, rfl, inside⟩
  ends := fun new member =>
    ⟨new, (same new).mp member, new, (same new).mp member, rfl, rfl, rfl, rfl⟩

/-- Rearranging locks twice rearranges them. -/
theorem trans {first second third : List (RowLock Key)} (earlier : Rearranged first second)
    (later : Rearranged second third) : Rearranged first third where
  stays := by
    intro old member
    obtain ⟨middle, there, txnid, covers⟩ := earlier.stays old member
    obtain ⟨new, newThere, newTxnid, newCovers⟩ := later.stays middle there
    exact ⟨new, newThere, newTxnid.trans txnid, covers.trans newCovers⟩
  grown := by
    intro new member
    obtain ⟨middle, there, txnid, covers⟩ := later.grown new member
    obtain ⟨old, oldThere, oldTxnid, oldCovers⟩ := earlier.grown middle there
    exact ⟨old, oldThere, oldTxnid.trans txnid, oldCovers.trans covers⟩
  within := by
    intro new member key inside
    obtain ⟨middle, there, txnid, inMiddle⟩ := later.within new member key inside
    obtain ⟨old, oldThere, oldTxnid, inOld⟩ := earlier.within middle there key inMiddle
    exact ⟨old, oldThere, oldTxnid.trans txnid, inOld⟩
  ends := by
    intro new member
    obtain ⟨first, firstThere, last, lastThere, own, lastOwn, left, right⟩ := later.ends new member
    obtain ⟨oldFirst, firstOld, -, -, firstSame, -, firstLeft, -⟩ := earlier.ends first firstThere
    obtain ⟨-, -, oldLast, lastOld, -, lastSame, -, lastRight⟩ := earlier.ends last lastThere
    exact ⟨oldFirst, firstOld, oldLast, lastOld, firstSame.trans own, lastSame.trans lastOwn,
      left.trans firstLeft, right.trans lastRight⟩

/-- Another lock may stand in front of rearranged ones. -/
theorem cons (lock : RowLock Key) (rearranged : Rearranged before after) :
    Rearranged (lock :: before) (lock :: after) where
  stays := by
    intro old member
    rcases List.mem_cons.mp member with rfl | inRest
    · exact ⟨old, List.mem_cons_self, rfl, Set.Subset.refl _⟩
    · obtain ⟨new, there, covers⟩ := rearranged.stays old inRest
      exact ⟨new, List.mem_cons_of_mem _ there, covers⟩
  grown := by
    intro new member
    rcases List.mem_cons.mp member with rfl | inRest
    · exact ⟨new, List.mem_cons_self, rfl, Set.Subset.refl _⟩
    · obtain ⟨old, there, covers⟩ := rearranged.grown new inRest
      exact ⟨old, List.mem_cons_of_mem _ there, covers⟩
  within := by
    intro new member key inside
    rcases List.mem_cons.mp member with rfl | inRest
    · exact ⟨new, List.mem_cons_self, rfl, inside⟩
    · obtain ⟨old, there, covers⟩ := rearranged.within new inRest key inside
      exact ⟨old, List.mem_cons_of_mem _ there, covers⟩
  ends := by
    intro new member
    rcases List.mem_cons.mp member with rfl | inRest
    · exact ⟨new, List.mem_cons_self, new, List.mem_cons_self, rfl, rfl, rfl, rfl⟩
    · obtain ⟨first, firstThere, last, lastThere, same⟩ := rearranged.ends new inRest
      exact ⟨first, List.mem_cons_of_mem _ firstThere, last, List.mem_cons_of_mem _ lastThere, same⟩

/-- Rearranging locks leaves every transaction the keys it holds. -/
theorem heldKeys_eq (rearranged : Rearranged before after) (txnid : Nat) :
    heldKeys after txnid = heldKeys before txnid := by
  ext key
  constructor
  · intro ⟨new, member, own, inside⟩
    obtain ⟨old, there, same, inOld⟩ := rearranged.within new member key inside
    exact ⟨old, there, same.trans own, inOld⟩
  · intro ⟨old, member, own, inside⟩
    obtain ⟨new, there, same, covers⟩ := rearranged.stays old member
    exact ⟨new, there, same.trans own, covers inside⟩

/-- The same transactions have locks that overlap a range, however the locks are arranged. -/
theorem overlaps_iff (rearranged : Rearranged before after)
    (beforeOrdered : ∀ lock ∈ before, lock.range.Ordered)
    (afterOrdered : ∀ lock ∈ after, lock.range.Ordered) {range : Keyrange Key}
    (ordered : range.Ordered) (txnid : Nat) :
    (∃ lock ∈ after, lock.txnid = txnid ∧ range.overlaps lock.range = true) ↔
      ∃ lock ∈ before, lock.txnid = txnid ∧ range.overlaps lock.range = true := by
  -- To overlap is to share a key, and the keys are the same.
  constructor
  · intro ⟨new, member, own, overlap⟩
    obtain ⟨key, inRange, inNew⟩ :=
      (Keyrange.overlaps_iff_shared ordered (afterOrdered new member)).mp overlap
    obtain ⟨old, there, same, inOld⟩ := rearranged.within new member key inNew
    exact ⟨old, there, same.trans own,
      (Keyrange.overlaps_iff_shared ordered (beforeOrdered old there)).mpr ⟨key, inRange, inOld⟩⟩
  · intro ⟨old, member, own, overlap⟩
    obtain ⟨key, inRange, inOld⟩ :=
      (Keyrange.overlaps_iff_shared ordered (beforeOrdered old member)).mp overlap
    obtain ⟨new, there, same, covers⟩ := rearranged.stays old member
    exact ⟨new, there, same.trans own,
      (Keyrange.overlaps_iff_shared ordered (afterOrdered new there)).mpr
        ⟨key, inRange, covers inOld⟩⟩

end Rearranged

namespace LocksOk

section

variable {locks : List (RowLock Key)} (ok : LocksOk locks)
include ok

/-- Locks in order are all different. -/
theorem nodup : locks.Nodup := by
  induction locks with
  | nil => exact List.nodup_nil
  | cons lock rest ih =>
    obtain ⟨ordered, restOk, before⟩ := cons.mp ok
    refine List.nodup_cons.mpr ⟨?_, ih restOk⟩
    -- A lock that came again would lie before itself.
    intro again
    exact absurd (before lock again) (not_lt.mpr ordered)

/-- Of two locks in order none overlaps the other. -/
theorem notOverlapping :
    locks.Pairwise fun first second => first.range.overlaps second.range = false := by
  refine ok.apart.imp ?_
  intro first second before
  rw [Bool.eq_false_iff]
  exact fun overlap => (Keyrange.overlaps_iff.mp overlap).1 before

end

end LocksOk

end Tokuft
