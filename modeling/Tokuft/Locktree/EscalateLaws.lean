import Tokuft.Locktree.ReleaseLaws

/-! Escalation: neighbouring locks of one transaction become one, and no transaction loses a key. -/

namespace Tokuft

variable {Key : Type}

namespace Locktree

/-- Range buffers are kept from the largest transaction to the smallest. -/
def Descending (buffers : List (Nat × List (Keyrange Key))) : Prop :=
  buffers.Pairwise fun earlier later => later.1 < earlier.1

/-- Only the transaction of an appended lock may be new among the buffers. -/
theorem mem_appendToBuffer {lock : RowLock Key} {buffers : List (Nat × List (Keyrange Key))}
    {buffer : Nat × List (Keyrange Key)} (member : buffer ∈ appendToBuffer lock buffers) :
    buffer.1 = lock.txnid ∨ ∃ old ∈ buffers, old.1 = buffer.1 := by
  -- By induction on the buffers, which the lock passes until it finds its own.
  induction buffers with
  | nil =>
    rw [appendToBuffer, List.mem_singleton] at member
    exact Or.inl (by rw [member])
  | cons first rest ih =>
    obtain ⟨txnid, ranges⟩ := first
    rw [appendToBuffer] at member
    split at member
    · rcases List.mem_cons.mp member with rfl | inRest
      · exact Or.inr ⟨_, List.mem_cons_self, rfl⟩
      · rcases ih inRest with new | ⟨old, oldMember, same⟩
        · exact Or.inl new
        · exact Or.inr ⟨old, List.mem_cons_of_mem _ oldMember, same⟩
    · split at member
      · rcases List.mem_cons.mp member with rfl | inRest
        · exact Or.inr ⟨_, List.mem_cons_self, rfl⟩
        · exact Or.inr ⟨buffer, List.mem_cons_of_mem _ inRest, rfl⟩
      · rcases List.mem_cons.mp member with rfl | inRest
        · exact Or.inl rfl
        · exact Or.inr ⟨buffer, inRest, rfl⟩

/-- Appending a lock keeps the buffers in their order. -/
theorem appendToBuffer_descending (lock : RowLock Key)
    {buffers : List (Nat × List (Keyrange Key))} (descending : Descending buffers) :
    Descending (appendToBuffer lock buffers) := by
  -- By induction on the buffers: a new one goes in front of the first with a smaller name.
  induction buffers with
  | nil => exact List.pairwise_singleton _ _
  | cons first rest ih =>
    obtain ⟨txnid, ranges⟩ := first
    obtain ⟨above, restDescending⟩ := List.pairwise_cons.mp descending
    rw [appendToBuffer]
    split
    · rename_i less
      refine List.pairwise_cons.mpr ⟨?_, ih restDescending⟩
      intro later member
      rcases mem_appendToBuffer member with new | ⟨old, oldMember, same⟩
      · rw [new]
        exact less
      · rw [← same]
        exact above old oldMember
    · rename_i notLess
      split
      · exact List.pairwise_cons.mpr ⟨above, restDescending⟩
      · rename_i different
        have larger : txnid < lock.txnid := by omega
        refine List.pairwise_cons.mpr ⟨?_, descending⟩
        intro later member
        rcases List.mem_cons.mp member with rfl | inRest
        · exact larger
        · exact lt_trans (above later inRest) larger

/-- Appending a lock adds it to the locks of the buffers. -/
theorem locksOfBuffers_appendToBuffer (lock : RowLock Key)
    (buffers : List (Nat × List (Keyrange Key))) :
    (locksOfBuffers (appendToBuffer lock buffers)).Perm (locksOfBuffers buffers ++ [lock]) := by
  -- By induction on the buffers.
  induction buffers with
  | nil => exact List.Perm.refl _
  | cons first rest ih =>
    obtain ⟨txnid, ranges⟩ := first
    rw [appendToBuffer]
    split
    · simp only [locksOfBuffers, List.flatMap_cons, List.append_assoc] at ih ⊢
      exact List.Perm.append_left _ ih
    · split
      · rename_i same
        subst same
        simp only [locksOfBuffers, List.flatMap_cons, List.map_append, List.map_singleton,
          List.append_assoc]
        exact List.Perm.append_left _ List.perm_append_comm
      · simp only [locksOfBuffers, List.flatMap_cons, List.map_singleton, List.singleton_append]
        exact (List.perm_append_singleton _ _).symm

/-- Appending locks one after the other adds all of them and keeps the order of the buffers. -/
theorem foldl_appendToBuffer (locks : List (RowLock Key)) :
    ∀ {buffers : List (Nat × List (Keyrange Key))}, Descending buffers →
      Descending (locks.foldl (fun buffers lock => appendToBuffer lock buffers) buffers) ∧
      (locksOfBuffers (locks.foldl (fun buffers lock => appendToBuffer lock buffers) buffers)).Perm
        (locksOfBuffers buffers ++ locks) := by
  -- By induction on the locks.
  induction locks with
  | nil =>
    intro buffers descending
    exact ⟨descending, by simp⟩
  | cons lock rest ih =>
    intro buffers descending
    obtain ⟨still, perm⟩ := ih (appendToBuffer_descending lock descending)
    refine ⟨still, perm.trans ?_⟩
    have first := (locksOfBuffers_appendToBuffer lock buffers).append_right rest
    rwa [List.append_assoc, List.singleton_append] at first

/-- Appending a lock leaves no buffer without a range. -/
theorem appendToBuffer_nonempty {lock : RowLock Key} {buffers : List (Nat × List (Keyrange Key))}
    (nonempty : ∀ buffer ∈ buffers, buffer.2 ≠ []) :
    ∀ buffer ∈ appendToBuffer lock buffers, buffer.2 ≠ [] := by
  -- By induction on the buffers.
  induction buffers with
  | nil =>
    intro buffer member
    rw [List.mem_singleton.mp member]
    exact List.cons_ne_nil _ _
  | cons first rest ih =>
    obtain ⟨txnid, ranges⟩ := first
    have firstNonempty : ranges ≠ [] := nonempty _ List.mem_cons_self
    have restNonempty := ih fun buffer member => nonempty buffer (List.mem_cons_of_mem _ member)
    intro buffer member
    rw [appendToBuffer] at member
    split at member
    · rcases List.mem_cons.mp member with rfl | inRest
      · exact firstNonempty
      · exact restNonempty buffer inRest
    · split at member
      · rcases List.mem_cons.mp member with rfl | inRest
        · exact List.append_ne_nil_of_left_ne_nil firstNonempty _
        · exact nonempty buffer (List.mem_cons_of_mem _ inRest)
      · rcases List.mem_cons.mp member with rfl | inRest
        · exact List.cons_ne_nil _ _
        · exact nonempty buffer inRest

/-- Appending locks one after the other leaves no buffer without a range. -/
theorem foldl_appendToBuffer_nonempty (locks : List (RowLock Key)) :
    ∀ {buffers : List (Nat × List (Keyrange Key))}, (∀ buffer ∈ buffers, buffer.2 ≠ []) →
      ∀ buffer ∈ locks.foldl (fun buffers lock => appendToBuffer lock buffers) buffers,
        buffer.2 ≠ [] := by
  induction locks with
  | nil => exact fun nonempty => nonempty
  | cons lock rest ih => exact fun nonempty => ih (appendToBuffer_nonempty nonempty)

/-- Copying locks out takes as many as there is room for. -/
theorem foldl_extractLock (numToExtract : Nat) (locks : List (RowLock Key)) :
    ∀ extracted : List (RowLock Key), extracted.length ≤ numToExtract →
      locks.foldl (fun extracted lock => (extractLock numToExtract extracted lock).1) extracted =
        extracted ++ locks.take (numToExtract - extracted.length) := by
  -- By induction on the locks, with the number of copied ones as accumulator.
  induction locks with
  | nil => simp
  | cons lock rest ih =>
    intro extracted fits
    rw [List.foldl_cons, extractLock]
    split
    · rename_i room
      rw [ih _ (by simp; omega)]
      have more : numToExtract - extracted.length =
          numToExtract - (extracted ++ [lock]).length + 1 := by
        simp
        omega
      rw [more, List.take_succ_cons, List.append_assoc, List.singleton_append]
    · rename_i full
      rw [ih _ fits]
      have none : numToExtract - extracted.length = 0 := by omega
      simp [none]

end Locktree

variable [LinearOrder Key]

/-- Locks that came of others by merging neighbours of the same transaction. -/
structure Merged (before after : List (RowLock Key)) : Prop where
  ok : LocksOk after
  ends : ∀ merged ∈ after, ∃ first ∈ before, ∃ last ∈ before, first.txnid = merged.txnid ∧
    merged.range.left = first.range.left ∧ merged.range.right = last.range.right
  covered : ∀ lock ∈ before, ∃ merged ∈ after, merged.txnid = lock.txnid ∧
    merged.range.left ≤ lock.range.left ∧ lock.range.right ≤ merged.range.right

namespace Merged

/-- Of no locks come no locks. -/
theorem nil : Merged ([] : List (RowLock Key)) [] := ⟨LocksOk.nil, by simp, by simp⟩

/-- Two parts of locks in order may be merged apart from each other. -/
theorem append {front back merged rest : List (RowLock Key)} (ok : LocksOk (front ++ back))
    (ofFront : Merged front merged) (ofBack : Merged back rest) :
    Merged (front ++ back) (merged ++ rest) where
  ok := by
    obtain ⟨-, -, across⟩ := LocksOk.append.mp ok
    refine LocksOk.append.mpr ⟨ofFront.ok, ofBack.ok, ?_⟩
    intro earlier inMerged later inRest
    -- The ends of merged locks are ends of old ones, which lie in order.
    obtain ⟨-, -, last, lastMember, -, -, right⟩ := ofFront.ends earlier inMerged
    obtain ⟨first, firstMember, -, -, -, left, -⟩ := ofBack.ends later inRest
    rw [Keyrange.Before, right, left]
    exact across last lastMember first firstMember
  ends := by
    intro lock member
    rcases List.mem_append.mp member with member | member
    · obtain ⟨first, firstMember, last, lastMember, same⟩ := ofFront.ends lock member
      exact ⟨first, List.mem_append_left _ firstMember, last, List.mem_append_left _ lastMember,
        same⟩
    · obtain ⟨first, firstMember, last, lastMember, same⟩ := ofBack.ends lock member
      exact ⟨first, List.mem_append_right _ firstMember, last, List.mem_append_right _ lastMember,
        same⟩
  covered := by
    intro lock member
    rcases List.mem_append.mp member with member | member
    · obtain ⟨wide, there, covers⟩ := ofFront.covered lock member
      exact ⟨wide, List.mem_append_left _ there, covers⟩
    · obtain ⟨wide, there, covers⟩ := ofBack.covered lock member
      exact ⟨wide, List.mem_append_right _ there, covers⟩

/-- A single lock may stay as it is. -/
theorem single {lock : RowLock Key} (ordered : lock.range.Ordered) : Merged [lock] [lock] := by
  refine ⟨LocksOk.cons.mpr ⟨ordered, LocksOk.nil, by simp⟩, ?_, ?_⟩
  · intro merged member
    rw [List.mem_singleton.mp member]
    exact ⟨lock, by simp, lock, by simp, rfl, rfl, rfl⟩
  · intro other member
    rw [List.mem_singleton.mp member]
    exact ⟨lock, by simp, rfl, le_refl _, le_refl _⟩

/-- Both ends of a merged lock are ends of old locks of its transaction, one of
which it contains. -/
theorem own {before after : List (RowLock Key)} (ok : LocksOk before)
    (merged : Merged before after) {lock : RowLock Key} (member : lock ∈ after) :
    ∃ first ∈ before, ∃ last ∈ before, first.txnid = lock.txnid ∧ last.txnid = lock.txnid ∧
      lock.range.left = first.range.left ∧ lock.range.right = last.range.right ∧
      first.range.keys ⊆ lock.range.keys := by
  obtain ⟨first, firstMember, last, lastMember, own, left, right⟩ := merged.ends lock member
  have lockOrdered := merged.ok.ordered lock member
  -- The merged locks around the ends share a key with this one, so they are this one.
  have around {old : RowLock Key} (oldMember : old ∈ before) {key : Key}
      (inOld : key ∈ old.range.keys) (inLock : key ∈ lock.range.keys) :
      old.txnid = lock.txnid ∧ old.range.keys ⊆ lock.range.keys := by
    obtain ⟨wide, wideMember, same, wideLeft, wideRight⟩ := merged.covered old oldMember
    have within : old.range.keys ⊆ wide.range.keys := Set.Icc_subset_Icc wideLeft wideRight
    have overlap : wide.range.overlaps lock.range = true :=
      (Keyrange.overlaps_iff_shared (merged.ok.ordered wide wideMember) lockOrdered).mpr
        ⟨key, within inOld, inLock⟩
    rw [merged.ok.eq_of_overlaps wideMember member overlap] at same within
    exact ⟨same.symm, within⟩
  have firstKey : lock.range.left ∈ first.range.keys := by
    rw [left]
    exact Keyrange.left_mem_keys (ok.ordered first firstMember)
  have lastKey : lock.range.right ∈ last.range.keys := by
    rw [right]
    exact Set.right_mem_Icc.mpr (ok.ordered last lastMember)
  exact ⟨first, firstMember, last, lastMember, own,
    (around lastMember lastKey (Set.right_mem_Icc.mpr lockOrdered)).1, left, right,
    (around firstMember firstKey (Set.left_mem_Icc.mpr lockOrdered)).2⟩

/-- Merged ranges are kept when those before are. -/
theorem stored [RangeBuffers Key] {kept : Nat → Set (Keyrange Key)}
    (keeps : RangeBuffers.Keeps kept) {before after : List (RowLock Key)} (ok : LocksOk before)
    (merged : Merged before after) (stored : Stored kept before) : Stored kept after := by
  rintro ⟨⟨left, right⟩, txnid⟩ member
  obtain ⟨first, firstMember, last, lastMember, rfl, same, rfl, rfl, -⟩ := merged.own ok member
  exact keeps.joins _ _ (stored first firstMember) _ (same ▸ stored last lastMember)
    (merged.ok.ordered _ member)

end Merged

/-- A range from end to end of neighbouring locks, all of its transaction in one place of a list. -/
def RunOf (locks : List (RowLock Key)) (wide : RowLock Key) : Prop :=
  ∃ before run after, locks = before ++ run ++ after ∧ (∀ lock ∈ run, lock.txnid = wide.txnid) ∧
    (∀ lock ∈ before.getLast?, lock.txnid ≠ wide.txnid) ∧
    (∀ lock ∈ after.head?, lock.txnid ≠ wide.txnid) ∧
    run.head?.map (·.range.left) = some wide.range.left ∧
    run.getLast?.map (·.range.right) = some wide.range.right

/-- The same in one of the batches that are taken out of some locks. -/
def BatchRun (locks : List (RowLock Key)) (wide : RowLock Key) : Prop :=
  ∃ turn, RunOf ((locks.drop (turn * numRowLocksPerBatch)).take numRowLocksPerBatch) wide

namespace Locktree

omit [LinearOrder Key] in
/-- Merging the runs of a batch makes one range of each of them. -/
theorem mergeRuns_runs : ∀ {rest : List (RowLock Key)} {current : RowLock Key}
    {before run : List (RowLock Key)}, (∀ lock ∈ run, lock.txnid = current.txnid) →
      (∀ lock ∈ before.getLast?, lock.txnid ≠ current.txnid) →
      run.head?.map (·.range.left) = some current.range.left →
      run.getLast?.map (·.range.right) = some current.range.right →
      ∀ wide ∈ mergeRuns current rest, RunOf (before ++ run ++ rest) wide := by
  intro rest
  induction rest with
  | nil =>
    intro current before run own others left right wide member
    rw [List.mem_singleton.mp member]
    exact ⟨before, run, [], rfl, own, others, (fun lock wrong => by cases wrong), left, right⟩
  | cons next rest ih =>
    intro current before run own others left right wide member
    obtain ⟨first, back, rfl⟩ := List.exists_cons_of_ne_nil
      (show run ≠ [] from fun none => by rw [none] at left; cases left)
    rw [mergeRuns] at member
    split at member
    · -- The run goes on with the next lock.
      rename_i same
      have more := @ih { current with range := ⟨current.range.left, next.range.right⟩ } before
        (first :: back ++ [next]) (fun lock there => by
          rcases List.mem_append.mp there with old | new
          · exact own lock old
          · rw [List.mem_singleton.mp new]
            exact same.symm) others left (by rw [List.getLast?_concat]; rfl) wide member
      rwa [List.append_assoc, List.append_assoc, List.singleton_append, ← List.append_assoc] at more
    · rename_i different
      rcases List.mem_cons.mp member with rfl | inRest
      · exact ⟨before, first :: back, next :: rest, rfl, own, others,
          fun lock head => by rw [← Option.some.inj head]; exact fun same => different same.symm,
          left, right⟩
      · have more := @ih next (before ++ first :: back) [next] (by simp) (fun lock last => by
          rw [List.getLast?_append_of_ne_nil _ (List.cons_ne_nil _ _)] at last
          rw [own lock (List.mem_of_getLast? last)]
          exact different) rfl rfl wide inRest
        rwa [List.append_assoc _ [next], List.singleton_append] at more

/-- Merging the runs of a batch merges neighbours of the same transaction. -/
theorem mergeRuns_merged {rest : List (RowLock Key)} :
    ∀ {current : RowLock Key}, LocksOk (current :: rest) →
      Merged (current :: rest) (mergeRuns current rest) := by
  induction rest with
  | nil =>
    intro current ok
    exact Merged.single (ok.ordered current List.mem_cons_self)
  | cons next rest ih =>
    intro current ok
    obtain ⟨ordered, restOk, before⟩ := LocksOk.cons.mp ok
    obtain ⟨nextOrdered, lastOk, nextBefore⟩ := LocksOk.cons.mp restOk
    have beforeNext := before next List.mem_cons_self
    rw [mergeRuns]
    split
    · -- The next lock joins the current one, which goes on from there.
      rename_i same
      have joined : current.range.left ≤ next.range.right :=
        le_trans ordered (le_trans beforeNext.le nextOrdered)
      let wider : RowLock Key :=
        { current with range := { left := current.range.left, right := next.range.right } }
      have widerOk : LocksOk (wider :: rest) := LocksOk.cons.mpr ⟨joined, lastOk, nextBefore⟩
      obtain ⟨mergedOk, ends, covered⟩ := ih widerOk
      refine ⟨mergedOk, ?_, ?_⟩
      · intro merged member
        obtain ⟨first, firstMember, last, lastMember, txnid, left, right⟩ := ends merged member
        have firstOld : ∃ old ∈ current :: next :: rest, old.txnid = merged.txnid ∧
            merged.range.left = old.range.left := by
          rcases List.mem_cons.mp firstMember with rfl | inRest
          · exact ⟨current, by simp, txnid, left⟩
          · exact ⟨first, by simp [inRest], txnid, left⟩
        have lastOld : ∃ old ∈ current :: next :: rest, merged.range.right = old.range.right := by
          rcases List.mem_cons.mp lastMember with rfl | inRest
          · exact ⟨next, by simp, right⟩
          · exact ⟨last, by simp [inRest], right⟩
        obtain ⟨old, oldMember, oldTxnid, oldLeft⟩ := firstOld
        obtain ⟨end', endMember, endRight⟩ := lastOld
        exact ⟨old, oldMember, end', endMember, oldTxnid, oldLeft, endRight⟩
      · intro lock member
        obtain ⟨wide, wideMember, txnid, left, right⟩ := covered _ List.mem_cons_self
        rcases List.mem_cons.mp member with rfl | inTail
        · exact ⟨wide, wideMember, txnid, left, le_trans (le_trans beforeNext.le nextOrdered) right⟩
        · rcases List.mem_cons.mp inTail with rfl | inRest
          · exact ⟨wide, wideMember, txnid.trans same,
              le_trans left (le_trans ordered beforeNext.le),
              right⟩
          · exact covered lock (List.mem_cons_of_mem _ inRest)
    · have alone := Merged.single ordered
      exact Merged.append ok alone (ih restOk)

/-- No batch leaves a buffer without a range. -/
theorem extractBatches_nonempty : ∀ (fuel : Nat) {lkr emptied : LockedKeyrange Key}
    {buffers collected : List (Nat × List (Keyrange Key))},
    extractBatches fuel lkr buffers = some (emptied, collected) →
      (∀ buffer ∈ buffers, buffer.2 ≠ []) → ∀ buffer ∈ collected, buffer.2 ≠ [] := by
  -- By induction on the fuel.
  intro fuel
  induction fuel with
  | zero =>
    intro lkr emptied buffers collected run
    cases run
  | succ fuel ih =>
    intro lkr emptied buffers collected run nonempty
    rw [extractBatches] at run
    obtain ⟨⟨after, extracted⟩, batch, rest⟩ := of_bind run
    cases extracted with
    | nil =>
      obtain ⟨-, rfl⟩ := Prod.mk.inj (Option.some.inj rest)
      exact nonempty
    | cons first others => exact ih rest (foldl_appendToBuffer_nonempty _ nonempty)

/-- The first locks of a tree are removed one after the other, and the others stay. -/
theorem removeLocks_ok : ∀ (locks : List (RowLock Key)) {lkr : LockedKeyrange Key}
    {rest : List (RowLock Key)}, lkr.Ok → lkr.frames = [] → lkr.subtree.locks = locks ++ rest →
      (∀ lock ∈ locks, lkr.range.overlaps lock.range = true) →
      ∃ removed, removeLocks lkr locks = some removed ∧ removed.frames = [] ∧
        removed.range = lkr.range ∧ removed.subtree.locks = rest := by
  -- By induction on the locks, each of which is the first of the tree when it goes.
  intro locks
  induction locks with
  | nil =>
    intro lkr rest ok atRoot whole overlap
    exact ⟨lkr, rfl, atRoot, rfl, whole⟩
  | cons lock locks ih =>
    intro lkr rest ok atRoot whole overlap
    have member : lock ∈ lkr.release.locks := by
      rw [LockedKeyrange.release_of_atRoot atRoot, whole]
      exact List.mem_append_left _ List.mem_cons_self
    obtain ⟨first, done, firstOk, sameRange, sameFrames, -, taken⟩ :=
      LockedKeyrange.remove_ok ok member (overlap lock List.mem_cons_self)
    have nodup := ok.subtreeOk.nodup
    rw [whole] at taken nodup
    have left : first.subtree.locks = locks ++ rest := taken.head nodup
    obtain ⟨removed, run, removedAtRoot, removedRange, remains⟩ :=
      ih firstOk (sameFrames.trans atRoot) left (by
        intro other inRest
        rw [sameRange]
        exact overlap other (List.mem_cons_of_mem _ inRest))
    refine ⟨removed, ?_, removedAtRoot, removedRange.trans sameRange, remains⟩
    simp only [removeLocks, done, bind_runs, run]

variable [BoundedOrder Key]

/-- A batch takes the first locks out of the tree. -/
theorem extractFirstNRowLocks_ok {lkr : LockedKeyrange Key} (atRoot : lkr.frames = [])
    (whole : lkr.range = .infinite) (ok : LocksOk lkr.subtree.locks) (numToExtract : Nat) :
    ∃ extracted, extractFirstNRowLocks lkr numToExtract =
        some (extracted, lkr.subtree.locks.take numToExtract) ∧ extracted.frames = [] ∧
      extracted.range = .infinite ∧
      extracted.subtree.locks = lkr.subtree.locks.drop numToExtract := by
  -- Copying stops at the number of locks that are wanted.
  have lkrOk := LockedKeyrange.ok_of_atRoot atRoot ok
  have stays : Treenode.StaysDone (@extractLock Key numToExtract) := by
    intro extracted lock done other
    unfold extractLock at done ⊢
    split at done
    · cases done
    · rename_i full
      simp [full]
  obtain ⟨iteratedOk, iteratedRange, -, found⟩ := LockedKeyrange.iterate_ok @stays lkrOk
    (show lkr.range.Ordered by rw [whole]; exact bot_le) []
  have kept : (lkr.iterate (extractLock numToExtract) []).1.subtree.locks = lkr.subtree.locks :=
    Treenode.locks_traverseOverlaps _ _ _ _
  have all : lkr.release.locks.filter (fun lock => lkr.range.overlaps lock.range) =
      lkr.subtree.locks := by
    rw [LockedKeyrange.release_of_atRoot atRoot, whole]
    exact List.filter_eq_self.mpr fun lock member => infinite_overlaps lock.range
  rw [all, foldl_extractLock _ _ _ (Nat.zero_le _), List.nil_append, List.length_nil,
    Nat.sub_zero] at found
  obtain ⟨removed, run, removedAtRoot, removedRange, remains⟩ :=
    removeLocks_ok (lkr.subtree.locks.take numToExtract) iteratedOk atRoot
      (kept.trans (List.take_append_drop numToExtract _).symm) (by
        intro lock member
        rw [iteratedRange, whole]
        exact infinite_overlaps lock.range)
  have few : (lkr.subtree.locks.take numToExtract).length ≤ numToExtract := by
    rw [List.length_take]
    exact min_le_left _ _
  refine ⟨removed, ?_, removedAtRoot, removedRange.trans (iteratedRange.trans whole), remains⟩
  have pair : lkr.iterate (extractLock numToExtract) [] =
      ((lkr.iterate (extractLock numToExtract) []).1, lkr.subtree.locks.take numToExtract) :=
    Prod.ext rfl found
  rw [extractFirstNRowLocks, pair]
  simp only [invariant_of few, run, bind_runs]

/-- All batches together empty the tree and collect its locks, merged. -/
theorem extractBatches_ok : ∀ (fuel : Nat) {lkr : LockedKeyrange Key}
    {buffers : List (Nat × List (Keyrange Key))}, lkr.frames = [] → lkr.range = .infinite →
      LocksOk lkr.subtree.locks → lkr.subtree.locks.length < fuel → Descending buffers →
      ∃ emptied collected merged, extractBatches fuel lkr buffers = some (emptied, collected) ∧
        emptied.frames = [] ∧ emptied.range = .infinite ∧ emptied.subtree.locks = [] ∧
        Descending collected ∧
        (locksOfBuffers collected).Perm (locksOfBuffers buffers ++ merged) ∧
        Merged lkr.subtree.locks merged ∧ ∀ wide ∈ merged, BatchRun lkr.subtree.locks wide := by
  intro fuel
  induction fuel with
  | zero =>
    intro lkr buffers atRoot whole ok enough descending
    omega
  | succ fuel ih =>
    intro lkr buffers atRoot whole ok enough descending
    obtain ⟨extracted, run, extractedAtRoot, extractedRange, remains⟩ :=
      extractFirstNRowLocks_ok atRoot whole ok numRowLocksPerBatch
    have parts := List.take_append_drop numRowLocksPerBatch lkr.subtree.locks
    cases batch : lkr.subtree.locks.take numRowLocksPerBatch with
    | nil =>
      rw [batch] at run parts
      have none : lkr.subtree.locks = [] := by
        rcases List.take_eq_nil_iff.mp batch with zero | none
        · cases zero
        · exact none
      rw [none, List.drop_nil] at remains
      refine ⟨extracted, buffers, [], ?_, extractedAtRoot, extractedRange, remains, descending,
        by simp, by rw [none]; exact Merged.nil, fun wide wrong => by cases wrong⟩
      simp only [extractBatches, run, bind_runs]
    | cons first rest =>
      rw [batch] at run parts
      rw [← parts] at ok
      obtain ⟨batchOk, dropOk, -⟩ := LocksOk.append.mp ok
      obtain ⟨appended, appendedPerm⟩ :=
        foldl_appendToBuffer (mergeRuns first rest) descending
      have fewer : extracted.subtree.locks.length < fuel := by
        rw [remains]
        have lengths := congrArg List.length parts
        simp only [List.length_append, List.length_cons] at lengths
        omega
      obtain ⟨emptied, collected, merged, more, emptiedAtRoot, emptiedRange, emptyLocks,
          collectedDescending, collectedPerm, restMerged, restRuns⟩ :=
        ih extractedAtRoot extractedRange (by rw [remains]; exact dropOk) fewer appended
      rw [remains] at restMerged restRuns
      refine ⟨emptied, collected, mergeRuns first rest ++ merged, ?_, emptiedAtRoot, emptiedRange,
        emptyLocks, collectedDescending, ?_, ?_, fun wide member => ?_⟩
      · simp only [extractBatches, run, bind_runs, more]
      · rw [← List.append_assoc]
        exact collectedPerm.trans (appendedPerm.append_right merged)
      · rw [← parts]
        exact Merged.append ok (mergeRuns_merged batchOk) restMerged
      · rcases List.mem_append.mp member with inBatch | inRest
        · refine ⟨0, ?_⟩
          rw [Nat.zero_mul, List.drop_zero, batch]
          exact @mergeRuns_runs _ rest first [] [first]
            (fun lock alone => by rw [List.mem_singleton.mp alone])
            (fun lock wrong => by cases wrong) rfl rfl wide inBatch
        · -- The batches of what remains are the later ones.
          obtain ⟨turn, isRun⟩ := restRuns wide inRest
          refine ⟨turn + 1, ?_⟩
          rwa [Nat.succ_mul, Nat.add_comm, ← List.drop_drop]

end Locktree

end Tokuft
