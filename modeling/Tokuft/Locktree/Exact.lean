import Tokuft.Locktree.LocktreeLaws
import Tokuft.Locktree.StoredRanges

/-! Row locks are exclusive along every run, and requests conflict exactly with what others hold. -/

namespace Tokuft

variable {Key : Type}

namespace LocktreeWorld

/-- The callbacks of an escalation leave transactions without a buffer as they are. -/
theorem foldl_escalateCallback_other {txnid : Nat} : ∀ {buffers : List (Nat × List (Keyrange Key))}
    {granted : Nat → List (Keyrange Key)}, (∀ buffer ∈ buffers, buffer.1 ≠ txnid) →
      buffers.foldl escalateCallback granted txnid = granted txnid := by
  -- By induction on the buffers, none of which is for the transaction.
  intro buffers
  induction buffers with
  | nil =>
    intro granted different
    rfl
  | cons buffer rest ih =>
    intro granted different
    rw [List.foldl_cons, ih fun other member => different other (List.mem_cons_of_mem _ member)]
    exact Function.update_of_ne (different buffer List.mem_cons_self).symm _ _

/-- The callbacks of an escalation give a transaction the ranges of its buffer. -/
theorem foldl_escalateCallback_own {buffer : Nat × List (Keyrange Key)} :
    ∀ {buffers : List (Nat × List (Keyrange Key))} {granted : Nat → List (Keyrange Key)},
      Locktree.Descending buffers → buffer ∈ buffers →
      buffers.foldl escalateCallback granted buffer.1 = buffer.2 := by
  intro buffers
  induction buffers with
  | nil =>
    intro granted descending member
    cases member
  | cons first rest ih =>
    intro granted descending member
    obtain ⟨above, restDescending⟩ := List.pairwise_cons.mp descending
    rw [List.foldl_cons]
    rcases List.mem_cons.mp member with rfl | inRest
    · -- No later buffer is of the same transaction.
      rw [foldl_escalateCallback_other fun other there => (above other there).ne]
      exact Function.update_self _ _ _
    · exact ih restDescending inRest

/-- A lock of the buffers is on a range that its transaction then notes. -/
theorem mem_locksOfBuffers {buffers : List (Nat × List (Keyrange Key))}
    {granted : Nat → List (Keyrange Key)} (descending : Locktree.Descending buffers)
    {lock : RowLock Key} (member : lock ∈ Locktree.locksOfBuffers buffers) :
    lock.range ∈ buffers.foldl escalateCallback granted lock.txnid := by
  rw [Locktree.locksOfBuffers, List.mem_flatMap] at member
  obtain ⟨buffer, there, inBuffer⟩ := member
  obtain ⟨range, inRanges, rfl⟩ := List.mem_map.mp inBuffer
  rw [foldl_escalateCallback_own descending there]
  exact inRanges

/-- A range that a transaction notes after an escalation is one of its buffer, or as before. -/
theorem mem_foldl_escalateCallback {buffers : List (Nat × List (Keyrange Key))}
    {granted : Nat → List (Keyrange Key)} (descending : Locktree.Descending buffers)
    {txnid : Nat} {range : Keyrange Key}
    (member : range ∈ buffers.foldl escalateCallback granted txnid) :
    { range := range, txnid := txnid } ∈ Locktree.locksOfBuffers buffers ∨
      range ∈ granted txnid ∧ ∀ buffer ∈ buffers, buffer.1 ≠ txnid := by
  -- A callback replaces what its transaction noted before.
  by_cases has : ∃ buffer ∈ buffers, buffer.1 = txnid
  · obtain ⟨buffer, there, rfl⟩ := has
    rw [foldl_escalateCallback_own descending there] at member
    refine Or.inl ?_
    rw [Locktree.locksOfBuffers, List.mem_flatMap]
    exact ⟨buffer, there, List.mem_map.mpr ⟨range, member, rfl⟩⟩
  · have different : ∀ buffer ∈ buffers, buffer.1 ≠ txnid :=
      fun buffer there own => has ⟨buffer, there, own⟩
    rw [foldl_escalateCallback_other different] at member
    exact Or.inr ⟨member, different⟩

end LocktreeWorld

variable [LinearOrder Key]

/-- Noted ranges are held, and every lock has a noted range of its transaction in it. -/
structure Noted (granted : Nat → List (Keyrange Key)) (locks : List (RowLock Key)) : Prop where
  ordered : ∀ txnid, ∀ range ∈ granted txnid, range.Ordered
  covered : ∀ txnid, ∀ range ∈ granted txnid, ∃ lock ∈ locks,
    lock.txnid = txnid ∧ range.keys ⊆ lock.range.keys
  anchored : ∀ lock ∈ locks, ∃ range ∈ granted lock.txnid, range.keys ⊆ lock.range.keys

namespace Noted

variable {granted : Nat → List (Keyrange Key)}

/-- Before anything is granted there is nothing to note. -/
theorem start : Noted (fun _ => []) ([] : List (RowLock Key)) := by
  constructor <;> simp

/-- Noted ranges stay noted when the locks are rearranged. -/
theorem rearranged {before after : List (RowLock Key)} (noted : Noted granted before)
    (rearranged : Rearranged before after) :
    Noted granted after where
  ordered := noted.ordered
  covered := by
    intro txnid range member
    obtain ⟨old, there, own, covers⟩ := noted.covered txnid range member
    obtain ⟨new, newThere, same, grows⟩ := rearranged.stays old there
    exact ⟨new, newThere, same.trans own, covers.trans grows⟩
  anchored := by
    intro new member
    obtain ⟨old, there, same, grows⟩ := rearranged.grown new member
    obtain ⟨range, inGranted, covers⟩ := noted.anchored old there
    exact ⟨range, same ▸ inGranted, covers.trans grows⟩

/-- A granted range that is noted is tied to its new lock. -/
theorem noteRowLock {locks : List (RowLock Key)} (noted : Noted granted locks) (txnid : Nat)
    {range : Keyrange Key} (ordered : range.Ordered) :
    Noted (LocktreeWorld.noteRowLock granted txnid range)
      ({ range := range, txnid := txnid } :: locks) := by
  -- The new range is its own lock, and each old one is covered as before.
  have mem (other : Nat) (old : Keyrange Key) :
      old ∈ LocktreeWorld.noteRowLock granted txnid range other ↔
        old ∈ granted other ∨ other = txnid ∧ old = range := by
    unfold LocktreeWorld.noteRowLock
    by_cases same : other = txnid
    · subst same
      simp
    · simp [same]
  refine ⟨?_, ?_, ?_⟩
  · intro other old member
    rcases (mem other old).mp member with earlier | ⟨-, rfl⟩
    · exact noted.ordered other old earlier
    · exact ordered
  · intro other old member
    rcases (mem other old).mp member with earlier | ⟨rfl, rfl⟩
    · obtain ⟨lock, there, covers⟩ := noted.covered other old earlier
      exact ⟨lock, List.mem_cons_of_mem _ there, covers⟩
    · exact ⟨_, List.mem_cons_self, rfl, Set.Subset.refl _⟩
  · intro lock member
    rcases List.mem_cons.mp member with rfl | inRest
    · exact ⟨range, (mem txnid range).mpr (Or.inr ⟨rfl, rfl⟩), Set.Subset.refl _⟩
    · obtain ⟨old, there, covers⟩ := noted.anchored lock inRest
      exact ⟨old, (mem lock.txnid old).mpr (Or.inl there), covers⟩

/-- A transaction that released its locks has nothing noted. -/
theorem release {before after : List (RowLock Key)} (noted : Noted granted before) {txnid : Nat}
    (mem : ∀ lock, lock ∈ after ↔ lock ∈ before ∧ lock.txnid ≠ txnid) :
    Noted (Function.update granted txnid []) after := by
  -- The lock that covers a noted range of another transaction is not released.
  have other {id : Nat} (different : id ≠ txnid) :
      Function.update granted txnid [] id = granted id := Function.update_of_ne different _ _
  have none {id : Nat} {range : Keyrange Key}
      (member : range ∈ Function.update granted txnid [] id) : id ≠ txnid := by
    rintro rfl
    simp at member
  refine ⟨?_, ?_, ?_⟩
  · intro id range member
    rw [other (none member)] at member
    exact noted.ordered id range member
  · intro id range member
    have different := none member
    rw [other different] at member
    obtain ⟨lock, there, own, covers⟩ := noted.covered id range member
    exact ⟨lock, (mem lock).mpr ⟨there, own.symm ▸ different⟩, own, covers⟩
  · intro lock member
    obtain ⟨there, different⟩ := (mem lock).mp member
    rw [other different]
    exact noted.anchored lock there

end Noted

/-- After an escalation every transaction notes exactly the merged ranges it holds. -/
theorem Noted.escalate {granted : Nat → List (Keyrange Key)}
    {before moved after : List (RowLock Key)}
    (noted : Noted granted before) (rearranged : Rearranged before moved)
    (merged : Merged moved after) {buffers : List (Nat × List (Keyrange Key))}
    (descending : Locktree.Descending buffers)
    (mem : ∀ lock, lock ∈ after ↔ lock ∈ Locktree.locksOfBuffers buffers) :
    Noted (buffers.foldl LocktreeWorld.escalateCallback granted) after := by
  -- Whoever noted a range holds locks, so it has a buffer of merged ones.
  have noneLeft {txnid : Nat} {range : Keyrange Key}
      (member : range ∈ buffers.foldl LocktreeWorld.escalateCallback granted txnid) :
      { range := range, txnid := txnid } ∈ after := by
    rw [mem]
    rcases LocktreeWorld.mem_foldl_escalateCallback descending member with found |
      ⟨old, different⟩
    · exact found
    · obtain ⟨lock, there, own, -⟩ := noted.covered txnid range old
      obtain ⟨middle, inMoved, same, -⟩ := rearranged.stays lock there
      obtain ⟨wide, inAfter, sameMerged, -⟩ := merged.covered middle inMoved
      have inBuffers := (mem wide).mp inAfter
      rw [Locktree.locksOfBuffers, List.mem_flatMap] at inBuffers
      obtain ⟨buffer, inList, inBuffer⟩ := inBuffers
      obtain ⟨ownRange, inRanges, rfl⟩ := List.mem_map.mp inBuffer
      exact absurd (sameMerged.trans (same.trans own)) (different buffer inList)
  refine ⟨?_, ?_, ?_⟩
  · exact fun txnid range member => merged.ok.ordered _ (noneLeft member)
  · exact fun txnid range member => ⟨_, noneLeft member, rfl, Set.Subset.refl _⟩
  · intro lock member
    exact ⟨lock.range, LocktreeWorld.mem_locksOfBuffers descending ((mem lock).mp member),
      Set.Subset.refl _⟩

/-- No other transaction holds a lock that overlaps a range. -/
def Locktree.Free (lt : Locktree Key) (txnid : Nat) (range : Keyrange Key) : Prop :=
  ∀ lock ∈ lt.heldLocks, range.overlaps lock.range = true → lock.txnid = txnid

/-- A granted range is held by one lock, and it is all that is held in addition. -/
structure GrantedExactly (before : Locktree Key) (txnid : Nat) (range : Keyrange Key)
    (after : Locktree Key) : Prop where
  covers : ∃ lock ∈ after.heldLocks, lock.txnid = txnid ∧ range.keys ⊆ lock.range.keys
  own : heldKeys after.heldLocks txnid = heldKeys before.heldLocks txnid ∪ range.keys
  others : ∀ other, other ≠ txnid →
    heldKeys after.heldLocks other = heldKeys before.heldLocks other

/-- A refusal changes no key that is held, and names the transactions in the way. -/
structure RefusedExactly (before : Locktree Key) (txnid : Nat) (range : Keyrange Key)
    (conflicts : List Nat) (after : Locktree Key) : Prop where
  rearranged : Rearranged before.heldLocks after.heldLocks
  unmoved : before.stoTxnid = none → after.heldLocks = before.heldLocks
  keys : ∀ other, heldKeys after.heldLocks other = heldKeys before.heldLocks other
  conflicts : ∀ other, other ∈ conflicts ↔ other ≠ txnid ∧
    ∃ lock ∈ before.heldLocks, lock.txnid = other ∧ range.overlaps lock.range = true

namespace Locktree

/-- A key is held in front of others too, and by its own transaction only. -/
theorem heldKeys_cons {lock : RowLock Key} {locks : List (RowLock Key)} {txnid : Nat} :
    heldKeys (lock :: locks) txnid =
      heldKeys locks txnid ∪ {key | lock.txnid = txnid ∧ key ∈ lock.range.keys} := by
  ext key
  rw [heldKeys, heldKeys, Set.mem_union, Set.mem_ofPred_eq, Set.mem_ofPred_eq, Set.mem_ofPred_eq,
    List.exists_mem_cons_iff]
  exact or_comm

variable [BoundedOrder Key] [RangeBuffers Key]

/-- A request comes to a grant exactly when no other transaction is in the way. -/
theorem acquireLock_exact {lt : Locktree Key} (ok : lt.Ok) (reads : GivesBack lt.stoBuffer)
    (txnid : Nat) {range : Keyrange Key} (ordered : range.Ordered) :
    (lt.Free txnid range → ∃ after, lt.acquireLock txnid range = some (after, .granted) ∧
      after.Ok ∧ GrantedExactly lt txnid range after ∧
      Rearranged ({ range := range, txnid := txnid } :: lt.heldLocks) after.heldLocks) ∧
    (¬ lt.Free txnid range → ∃ after conflicts,
      lt.acquireLock txnid range = some (after, .notGranted conflicts) ∧
      after.Ok ∧ RefusedExactly lt txnid range conflicts after) := by
  -- Whether the range is free of others decides between the two laws.
  constructor
  · intro free
    obtain ⟨after, done, afterOk, rearranged⟩ := acquireLock_granted ok reads ordered free
    refine ⟨after, done, afterOk, ⟨?_, ?_, ?_⟩, rearranged⟩
    · exact rearranged.stays _ List.mem_cons_self
    · rw [rearranged.heldKeys_eq, heldKeys_cons]
      simp
    · intro other different
      rw [rearranged.heldKeys_eq, heldKeys_cons]
      simp [different.symm]
  · intro notFree
    unfold Free at notFree
    push Not at notFree
    obtain ⟨after, conflicts, done, afterOk, rearranged, unmoved, exactly⟩ :=
      acquireLock_refused ok reads ordered notFree
    exact ⟨after, conflicts, done, afterOk,
      ⟨rearranged, unmoved, fun other => rearranged.heldKeys_eq other, exactly⟩⟩

end Locktree

/-- There is memory for locks without an escalation. -/
def LockMemory.Enough (memory : LockMemory) : Prop :=
  memory.overBigThreshold = false ∧ memory.outOfLocks = false

namespace LocktreeWorld

/-- No transaction loses a key that it holds. -/
def Covered (before after : LocktreeWorld Key) : Prop :=
  ∀ lock ∈ before.lt.heldLocks, ∃ wide ∈ after.lt.heldLocks,
    wide.txnid = lock.txnid ∧ lock.range.keys ⊆ wide.range.keys

/-- What a request comes to once the manager checked its memory and escalated where it had to. -/
structure RequestedExactly (checked : LocktreeWorld Key) (outOfLocks : Bool) (txnid : Nat)
    (range : Keyrange Key) (after : LocktreeWorld Key) (result : Locktree.AcquireResult) :
    Prop where
  refused : outOfLocks = true → result = .outOfLocks ∧ after = checked
  granted_iff : outOfLocks = false → (result = .granted ↔ checked.lt.Free txnid range)
  granted : result = .granted → GrantedExactly checked.lt txnid range after.lt
  notGranted : outOfLocks = false → result ≠ .granted → ∃ conflicts,
    result = .notGranted conflicts ∧ RefusedExactly checked.lt txnid range conflicts after.lt

/-- The lock tree is in order, and what transactions noted is tied to what they hold. -/
structure Good (kept : Nat → Set (Keyrange Key)) (world : LocktreeWorld Key) : Prop where
  ok : world.lt.Ok
  noted : Noted world.granted world.lt.heldLocks
  stored : Stored kept world.lt.heldLocks
  notedKept : ∀ txnid, ∀ range ∈ world.granted txnid, range ∈ kept txnid

variable {kept : Nat → Set (Keyrange Key)}

/-- At first all is well. -/
theorem start_good : (start : LocktreeWorld Key).Good kept := by
  refine ⟨Locktree.create_ok, Noted.start, fun lock member => ?_, fun txnid range member => ?_⟩
  · cases member
  · cases member

variable [BoundedOrder Key] [RangeBuffers Key] {world : LocktreeWorld Key}
  (keeps : RangeBuffers.Keeps kept)
include keeps

/-- An escalation takes no key away from anyone. -/
theorem escalate_good (good : world.Good kept) :
    ∃ after, world.escalate = some after ∧ after.Good kept ∧ Covered world after := by
  obtain ⟨after, buffers, moved, done, afterOk, descending, coalesced, merged, idle, mem, stored⟩ :=
    Locktree.escalate_kept good.ok keeps good.stored
  have held : after.heldLocks = after.rangetree.locks := Locktree.heldLocks_idle idle
  rw [← held] at stored
  have noted : Noted (buffers.foldl escalateCallback world.granted) after.heldLocks := by
    rw [held]
    exact good.noted.escalate coalesced.toRearranged merged descending mem
  refine ⟨{ lt := after, granted := buffers.foldl escalateCallback world.granted }, ?_,
    ⟨afterOk, noted, stored, fun txnid range member => ?_⟩, fun lock member => ?_⟩
  · simp only [escalate, done, bind_runs]
  · -- What a transaction notes now it holds, unless it noted that before.
    rcases mem_foldl_escalateCallback descending member with found | ⟨old, -⟩
    · exact stored _ (held ▸ (mem _).mpr found)
    · exact good.notedKept txnid range old
  · obtain ⟨middle, inMoved, same, covers⟩ := coalesced.stays lock member
    obtain ⟨wide, inAfter, sameWide, left, right⟩ := merged.covered middle inMoved
    refine ⟨wide, held ▸ inAfter, sameWide.trans same, covers.trans ?_⟩
    exact Set.Icc_subset_Icc left right

/-- An escalation that may be left out takes no key away either. -/
theorem escalateIf_good (good : world.Good kept) (short : Bool) :
    ∃ after, world.escalateIf short = some after ∧
      after.Good kept ∧ Covered world after ∧ (short = false → after = world) := by
  cases short with
  | true =>
    obtain ⟨after, done, afterGood, covers⟩ := escalate_good keeps good
    exact ⟨after, done, afterGood, covers, fun wrong => by cases wrong⟩
  | false => exact ⟨world, rfl, good, fun lock member => ⟨lock, member, rfl, fun _ => id⟩,
      fun _ => rfl⟩

/-- Checking the memory for locks takes no key away, and changes nothing if there is enough. -/
theorem checkCurrentLockConstraints_good (good : world.Good kept) (memory : LockMemory) :
    ∃ checked outOfLocks,
      world.checkCurrentLockConstraints memory = some (checked, outOfLocks) ∧
      checked.Good kept ∧ Covered world checked ∧
      (memory.Enough → checked = world ∧ outOfLocks = false) := by
  -- A big transaction may escalate first, and then anyone whose locks do not fit.
  obtain ⟨first, escalated, firstGood, covers, unchanged⟩ :=
    escalateIf_good keeps good memory.overBigThreshold
  rw [checkCurrentLockConstraints, escalated]
  by_cases still : memory.overBigThreshold ∧ memory.stillOverBigThreshold
  · refine ⟨first, true, by simp only [bind_runs, if_pos still], firstGood, covers,
      fun enough => ?_⟩
    rw [enough.1] at still
    cases still.1
  · obtain ⟨second, again, secondGood, further, unchangedAgain⟩ :=
      escalateIf_good keeps firstGood memory.outOfLocks
    refine ⟨second, memory.outOfLocks && memory.stillOutOfLocks, ?_, secondGood, ?_,
      fun enough => ?_⟩
    · simp only [bind_runs, if_neg still, again]
    · intro lock member
      obtain ⟨wide, there, own, inWide⟩ := covers lock member
      obtain ⟨wider, inSecond, same, inWider⟩ := further wide there
      exact ⟨wider, inSecond, same.trans own, inWide.trans inWider⟩
    · exact ⟨(unchangedAgain enough.2).trans (unchanged enough.1), by rw [enough.2]; rfl⟩

/-- A request that may be made comes to what it should. -/
theorem next_acquire (good : world.Good kept) (memory : LockMemory) (txnid : Nat)
    {range : Keyrange Key} (ordered : range.Ordered) (keptRange : range ∈ kept txnid) :
    ∃ checked outOfLocks after result,
      world.checkCurrentLockConstraints memory = some (checked, outOfLocks) ∧
      world.next (.acquire memory txnid range) = some (after, some result) ∧
      Covered world checked ∧ (memory.Enough → checked = world ∧ outOfLocks = false) ∧
      after.Good kept ∧ RequestedExactly checked outOfLocks txnid range after result := by
  -- The memory for locks is checked first, and only when there is some is the range tried.
  obtain ⟨checked, outOfLocks, done, checkedGood, covers, enough⟩ :=
    checkCurrentLockConstraints_good keeps good memory
  cases outOfLocks with
  | true =>
    refine ⟨checked, true, checked, .outOfLocks, done, ?_, covers, enough, checkedGood,
      ⟨fun _ => ⟨rfl, rfl⟩, fun wrong => (by cases wrong), fun wrong => (by cases wrong),
        fun wrong => (by cases wrong)⟩⟩
    simp only [next, tryAcquireLock, done, bind_runs, if_true]
  | false =>
    obtain ⟨whenFree, whenTaken⟩ := Locktree.acquireLock_exact checkedGood.ok
      (checkedGood.ok.givesBack keeps checkedGood.stored) txnid ordered
    by_cases free : checked.lt.Free txnid range
    · obtain ⟨after, acquired, afterOk, granted, rearranged⟩ := whenFree free
      have stored : Stored kept ({ range, txnid } :: checked.lt.heldLocks) :=
        List.forall_mem_cons.mpr ⟨keptRange, checkedGood.stored⟩
      refine ⟨checked, false, { lt := after, granted := noteRowLock checked.granted txnid range },
        .granted, done, ?_, covers, enough, ⟨afterOk,
          (checkedGood.noted.noteRowLock txnid ordered).rearranged rearranged,
          rearranged.stored keeps afterOk.ordered stored, fun other noted member => ?_⟩,
        ⟨fun wrong => (by cases wrong), fun _ => ⟨fun _ => free, fun _ => rfl⟩, fun _ => granted,
          fun _ different => absurd rfl different⟩⟩
      · simp only [next, tryAcquireLock, done, bind_runs, Bool.false_eq_true, if_false, acquired]
      · have member : noted ∈ noteRowLock checked.granted txnid range other := member
        rw [noteRowLock, Function.update_apply] at member
        split at member
        · rename_i same
          subst same
          rcases List.mem_append.mp member with old | new
          · exact checkedGood.notedKept other noted old
          · rw [List.mem_singleton.mp new]
            exact keptRange
        · exact checkedGood.notedKept other noted member
    · obtain ⟨after, conflicts, acquired, afterOk, refused⟩ := whenTaken free
      refine ⟨checked, false, { lt := after, granted := checked.granted }, .notGranted conflicts,
        done, ?_, covers, enough, ⟨afterOk, checkedGood.noted.rearranged refused.rearranged,
          refused.rearranged.stored keeps afterOk.ordered checkedGood.stored,
          checkedGood.notedKept⟩,
        ⟨fun wrong => (by cases wrong), fun _ => ⟨fun wrong => (by cases wrong),
          fun free' => absurd free' free⟩, fun wrong => (by cases wrong),
          fun _ _ => ⟨conflicts, rfl, refused⟩⟩⟩
      simp only [next, tryAcquireLock, done, bind_runs, Bool.false_eq_true, if_false, acquired]

/-- A transaction that releases what it was granted holds nothing any more, and others the same. -/
theorem next_release (good : world.Good kept) {txnid : Nat} (granted : world.granted txnid ≠ []) :
    ∃ after, world.next (.release txnid) = some (after, none) ∧ after.Good kept ∧
      ∀ lock, lock ∈ after.lt.heldLocks ↔ lock ∈ world.lt.heldLocks ∧ lock.txnid ≠ txnid := by
  obtain ⟨range, member⟩ := List.exists_mem_of_ne_nil _ granted
  obtain ⟨held, heldMember, own, -⟩ := good.noted.covered txnid range member
  obtain ⟨after, done, afterOk, mem⟩ := Locktree.releaseLocks_ok good.ok
    (keeps.givesBack txnid _ (good.notedKept txnid)) (good.noted.ordered txnid)
    ⟨held, heldMember, own⟩ (by
      intro lock there owned
      -- A noted range lies within the lock, so they overlap.
      obtain ⟨range, inGranted, covers⟩ := good.noted.anchored lock there
      rw [owned] at inGranted
      have ordered := good.noted.ordered txnid range inGranted
      have inRange := Keyrange.left_mem_keys ordered
      exact ⟨range, inGranted, (Keyrange.overlaps_iff_shared ordered
        (good.ok.ordered lock there)).mpr ⟨_, inRange, covers inRange⟩⟩)
  refine ⟨{ lt := after, granted := Function.update world.granted txnid [] }, ?_,
    ⟨afterOk, good.noted.release mem, fun lock there => good.stored lock ((mem lock).mp there).1,
      fun other range noted => ?_⟩, mem⟩
  · simp only [next, done, bind_runs]
  · have noted : range ∈ Function.update world.granted txnid [] other := noted
    rw [Function.update_apply] at noted
    split at noted
    · cases noted
    · exact good.notedKept other range noted

/-- Every allowed event passes all checks and keeps the lock tree in order. -/
theorem next_good (good : world.Good kept) {event : LocktreeEvent Key}
    (allowed : world.Allowed event) (keptEvent : Kept kept event) :
    ∃ after result, world.next event = some (after, result) ∧ after.Good kept := by
  -- One case for each event.
  cases event with
  | acquire memory txnid range =>
    obtain ⟨-, -, after, result, -, done, -, -, afterGood, -⟩ :=
      next_acquire keeps good memory txnid allowed keptEvent
    exact ⟨after, _, done, afterGood⟩
  | release txnid =>
    obtain ⟨after, done, afterGood, -⟩ := next_release keeps good allowed
    exact ⟨after, _, done, afterGood⟩
  | escalate =>
    obtain ⟨after, done, afterGood, -⟩ := escalate_good keeps good
    exact ⟨after, none, by simp only [next, done, bind_runs], afterGood⟩

/-- Along every run all stays well. -/
theorem run_good {events : List (LocktreeEvent Key)}
    (run : Runs (KeptStep kept) start events world) : world.Good kept := by
  refine run.invariant start_good ?_
  rintro before event after good ⟨keptEvent, allowed, result, done⟩
  obtain ⟨other, otherResult, otherDone, otherGood⟩ := next_good keeps good allowed keptEvent
  rw [done] at otherDone
  obtain ⟨rfl, -⟩ := Prod.ext_iff.mp (Option.some.inj otherDone)
  exact otherGood

end LocktreeWorld

/-- Locks of different transactions never overlap, and every event does exactly what it should. -/
theorem rowLocks_exact [BoundedOrder Key] [KeyBytes Key] {kept : Nat → Set (Keyrange Key)}
    (joins : ∀ txnid, ∀ first ∈ kept txnid, ∀ last ∈ kept txnid, first.left ≤ last.right →
      { left := first.left, right := last.right } ∈ kept txnid)
    (storable : ∀ txnid, ∀ range ∈ kept txnid, KeyBytes.Storable range)
    {events : List (LocktreeEvent Key)} {world : LocktreeWorld Key}
    (run : Runs (LocktreeWorld.KeptStep kept) LocktreeWorld.start events world) :
    (∀ lock ∈ world.lt.heldLocks, ∀ other ∈ world.lt.heldLocks, lock.txnid ≠ other.txnid →
      lock.range.overlaps other.range = false) ∧
    (∀ event, world.Allowed event → LocktreeWorld.Kept kept event →
      (world.next event).isSome = true) ∧
    (∀ memory txnid range after result, range.Ordered → range ∈ kept txnid →
      world.next (.acquire memory txnid range) = some (after, some result) →
      ∃ checked outOfLocks,
        world.checkCurrentLockConstraints memory = some (checked, outOfLocks) ∧
        LocktreeWorld.Covered world checked ∧
        (memory.Enough → checked = world ∧ outOfLocks = false) ∧
        LocktreeWorld.RequestedExactly checked outOfLocks txnid range after result) ∧
    (∀ txnid after result, world.granted txnid ≠ [] →
      world.next (.release txnid) = some (after, result) →
      ∀ lock, lock ∈ after.lt.heldLocks ↔ lock ∈ world.lt.heldLocks ∧ lock.txnid ≠ txnid) ∧
    (∀ after result, world.next .escalate = some (after, result) →
      LocktreeWorld.Covered world after) := by
  -- All is well after every run, and each part follows from the law of one event.
  have keeps := KeyBytes.keeps joins storable
  have good := LocktreeWorld.run_good keeps run
  refine ⟨?_, ?_, ?_, ?_, ?_⟩
  · exact fun lock member other otherMember different =>
      good.ok.exclusive member otherMember different
  · intro event allowed keptEvent
    obtain ⟨after, result, done, -⟩ := LocktreeWorld.next_good keeps good allowed keptEvent
    rw [done]
    rfl
  · intro memory txnid range after result ordered keptRange came
    obtain ⟨checked, outOfLocks, same, sameResult, constraints, done, covers, enough, -, exactly⟩ :=
      LocktreeWorld.next_acquire keeps good memory txnid ordered keptRange
    rw [came, Option.some.injEq, Prod.mk.injEq, Option.some.injEq] at done
    obtain ⟨rfl, rfl⟩ := done
    exact ⟨checked, outOfLocks, constraints, covers, enough, exactly⟩
  · intro txnid after result granted came
    obtain ⟨same, done, -, mem⟩ := LocktreeWorld.next_release keeps good granted
    rw [came, Option.some.injEq, Prod.mk.injEq] at done
    rw [done.1]
    exact mem
  · intro after result came
    obtain ⟨same, done, -, covers⟩ := LocktreeWorld.escalate_good keeps good
    simp only [LocktreeWorld.next, done, bind_runs, Option.some.injEq, Prod.mk.injEq] at came
    rw [← came.1]
    exact covers

section

/-- Keys of one byte, between the two infinite ones. -/
local instance oneByteKeys : KeyBytes (Fin 10) where
  endpoint k :=
    if k = 0 then .negativeInfinity else if k = 9 then .positiveInfinity else .key [k.val.toUInt8]
  key := fun
    | .negativeInfinity => 0
    | .positiveInfinity => 9
    | .key bytes => Fin.ofNat 10 (bytes.headD 0).toNat
  key_endpoint := by decide
  fits := by decide

/-- Ranges of such keys can be stored. -/
theorem storable_oneByteKeys (range : Keyrange (Fin 10)) : KeyBytes.Storable range := by
  have all : ∀ left right : Fin 10,
      KeyBytes.Storable ({ left := left, right := right } : Keyrange (Fin 10)) := by decide
  exact all range.left range.right

/-- One transaction takes two ranges that overlap, which stay apart in the buffer. -/
def bufferedEvents : List (LocktreeEvent (Fin 10)) :=
  [.acquire {} 1 { left := 1, right := 5 }, .acquire {} 1 { left := 3, right := 7 }]

/-- The lock tree after these two requests. -/
def bufferedWorld : LocktreeWorld (Fin 10) where
  lt := { Locktree.create with
    stoTxnid := some 1
    stoBuffer := [{ left := 1, right := 5 }, { left := 3, right := 7 }] }
  granted := LocktreeWorld.noteRowLock (LocktreeWorld.noteRowLock (fun _ => []) 1
    { left := 1, right := 5 }) 1 { left := 3, right := 7 }

/-- The two requests lead there. -/
theorem bufferedWorld_run : Runs (LocktreeWorld.KeptStep fun _ => Set.univ) LocktreeWorld.start
    bufferedEvents bufferedWorld := by
  have split : bufferedEvents = [] ++ [.acquire {} 1 { left := 1, right := 5 }] ++
      [.acquire {} 1 { left := 3, right := 7 }] := rfl
  rw [split]
  exact .next (.next .start ⟨trivial, show Keyrange.Ordered _ by decide, _, rfl⟩)
    ⟨trivial, show Keyrange.Ordered _ by decide, _, rfl⟩

/-- There a second transaction is refused a key in both ranges, and granted one in neither. -/
theorem rowLocks_exact_buffered :
    (∃ after conflicts, bufferedWorld.next (.acquire {} 2 { left := 4, right := 4 }) =
        some (after, some (.notGranted conflicts)) ∧
      RefusedExactly bufferedWorld.lt 2 { left := 4, right := 4 } conflicts after.lt) ∧
    ∃ after, bufferedWorld.next (.acquire {} 2 { left := 8, right := 8 }) =
        some (after, some .granted) ∧
      GrantedExactly bufferedWorld.lt 2 { left := 8, right := 8 } after.lt := by
  obtain ⟨-, -, requests, -⟩ := @rowLocks_exact _ _ _ _ (fun _ => Set.univ)
    (fun _ _ _ _ _ _ => trivial) (fun _ range _ => storable_oneByteKeys range) _ _
    bufferedWorld_run
  constructor
  · have came : bufferedWorld.next (.acquire {} 2 { left := 4, right := 4 }) =
        some (_, some (.notGranted [1])) := rfl
    obtain ⟨checked, outOfLocks, -, -, enough, exactly⟩ :=
      requests {} 2 _ _ _ (by decide) trivial came
    obtain ⟨rfl, rfl⟩ := enough ⟨rfl, rfl⟩
    obtain ⟨conflicts, same, refused⟩ := exactly.notGranted rfl (by decide)
    exact ⟨_, conflicts, same ▸ came, refused⟩
  · have came : bufferedWorld.next (.acquire {} 2 { left := 8, right := 8 }) =
        some (_, some .granted) := rfl
    obtain ⟨checked, outOfLocks, -, -, enough, exactly⟩ :=
      requests {} 2 _ _ _ (by decide) trivial came
    obtain ⟨rfl, rfl⟩ := enough ⟨rfl, rfl⟩
    exact ⟨_, came, exactly.granted rfl⟩

/-- A refusal leaves one range where two were held, also one for lack of memory. -/
theorem refused_request_merges_ranges :
    (Runs (LocktreeWorld.KeptStep fun _ => Set.univ) LocktreeWorld.start bufferedEvents
        bufferedWorld ∧
      bufferedWorld.lt.heldLocks =
        [{ range := { left := 1, right := 5 }, txnid := 1 },
          { range := { left := 3, right := 7 }, txnid := 1 }] ∧
      (bufferedWorld.next (.acquire {} 2 { left := 4, right := 4 })).map
          (fun (after, result) => (after.lt.heldLocks, result)) =
        some ([{ range := { left := 1, right := 7 }, txnid := 1 }], some (.notGranted [1]))) ∧
    bufferedWorld.lt.Free 2 { left := 8, right := 8 } ∧
    (bufferedWorld.next (.acquire { outOfLocks := true, stillOutOfLocks := true } 2
        { left := 8, right := 8 })).map (fun (after, result) => (after.lt.heldLocks, result)) =
      some ([{ range := { left := 1, right := 7 }, txnid := 1 }], some .outOfLocks) := by
  refine ⟨⟨bufferedWorld_run, rfl, by decide⟩, ?_, by decide⟩
  unfold Locktree.Free
  decide

end

end Tokuft
