import Tokuft.Locktree.Memory

/-! Every operation of a lock tree tells the manager exactly by how much its memory changes. -/

namespace Tokuft

variable {Key : Type}

/-- The memory of all row locks of a list. -/
def locksMemory (sizes : LockSizes Key) (locks : List (RowLock Key)) : Nat :=
  (locks.map (rowLockSizeInTree sizes)).sum

namespace LockedKeyrange

/-- The memory of all row locks of the tree that a locked range is part of. -/
def memory (sizes : LockSizes Key) (lkr : LockedKeyrange Key) : Nat :=
  locksMemory sizes lkr.release.locks

end LockedKeyrange

section Locks

variable (sizes : LockSizes Key)

/-- A first lock occupies its own memory. -/
@[simp]
theorem locksMemory_cons (lock : RowLock Key) (locks : List (RowLock Key)) :
    locksMemory sizes (lock :: locks) = rowLockSizeInTree sizes lock + locksMemory sizes locks :=
  rfl

/-- Locks behind each other occupy the memory of both. -/
@[simp]
theorem locksMemory_append (front back : List (RowLock Key)) :
    locksMemory sizes (front ++ back) = locksMemory sizes front + locksMemory sizes back := by
  simp [locksMemory]

/-- The order of locks does not matter for their memory. -/
theorem locksMemory_perm {locks others : List (RowLock Key)} (same : locks.Perm others) :
    locksMemory sizes locks = locksMemory sizes others :=
  (same.map _).sum_nat

/-- The locks around a subtree occupy what the tree occupies beside the subtree. -/
theorem LockedKeyrange.memory_eq (lkr : LockedKeyrange Key) :
    lkr.memory sizes = locksMemory sizes (LockedKeyrange.outerLeft lkr.frames) +
      locksMemory sizes lkr.subtree.locks +
      locksMemory sizes (LockedKeyrange.outerRight lkr.frames) := by
  rw [LockedKeyrange.memory, LockedKeyrange.locks_release, locksMemory_append, locksMemory_append]

end Locks

namespace Memarena

/-- No chunk is used beyond its size. -/
def Ok (arena : Memarena) : Prop := arena.used ≤ arena.size

/-- Rounding up makes nothing smaller. -/
theorem le_roundToPage (size : Nat) : size ≤ roundToPage size := by
  unfold roundToPage
  omega

/-- An allocation fits its chunk, and what is in use grows by as much at least. -/
theorem mallocFromArena_ok {arena : Memarena} (ok : arena.Ok) (size : Nat) :
    (arena.mallocFromArena size).Ok ∧
      arena.totalSizeInUse + size ≤ (arena.mallocFromArena size).totalSizeInUse := by
  unfold Ok at ok
  unfold mallocFromArena
  split
  · -- The old chunk counts as full from now on.
    refine ⟨?_, ?_⟩
    · dsimp only [Ok]
      refine le_trans ?_ (le_roundToPage _)
      split <;> omega
    · simp only [totalSizeInUse]
      omega
  · rename_i fits
    rw [not_or, Nat.not_lt] at fits
    exact ⟨fits.2, by simp only [totalSizeInUse]; omega⟩

variable (sizes : LockSizes Key)

/-- A buffer with a range is in use. -/
theorem append_ok {arena : Memarena} (ok : arena.Ok) (point : Bool) (range : Keyrange Key) :
    (arena.append sizes point range).Ok ∧
      arena.totalSizeInUse < (arena.append sizes point range).totalSizeInUse := by
  -- Any record has a header, so that the memory in use grows.
  have header := sizes.headerPositive
  unfold append
  split
  · obtain ⟨appendedOk, grown⟩ :=
      mallocFromArena_ok ok (sizes.recordHeader + sizes.key range.left)
    exact ⟨appendedOk, by omega⟩
  · obtain ⟨appendedOk, grown⟩ :=
      mallocFromArena_ok ok (sizes.recordHeader + sizes.key range.left + sizes.key range.right)
    exact ⟨appendedOk, by omega⟩

end Memarena

namespace AccountedLocktree

variable (sizes : LockSizes Key) (other : Nat)

/-- What is counted beside something else can be released. -/
theorem noteMemReleased_add (released : Nat) :
    noteMemReleased (other + released) released = some other := by
  simp only [noteMemReleased, invariant_of (Nat.le_add_left released other), bind_runs,
    Nat.add_sub_cancel]

/-- The memory of the locks in the tree and of the buffer. -/
def memory (sizes : LockSizes Key) (accounted : AccountedLocktree Key) : Nat :=
  locksMemory sizes accounted.lt.rangetree.locks + accounted.stoArena.totalSizeInUse

/-- The buffer is in use exactly when it has a range. -/
structure ArenaOk (accounted : AccountedLocktree Key) : Prop where
  arenaOk : accounted.stoArena.Ok
  empty : accounted.stoArena.totalSizeInUse = 0 ↔ accounted.lt.stoBuffer = []

variable {lt : Locktree Key}

/-- A new buffer is not in use. -/
theorem ArenaOk.of_create (nothing : lt.stoBuffer = []) :
    ArenaOk { lt := lt, stoArena := .create } :=
  ⟨le_refl 0, iff_of_true rfl nothing⟩

variable {accounted : AccountedLocktree Key}

/-- A buffer that a range was appended to is in use. -/
theorem ArenaOk.append (sizes : LockSizes Key) (ok : accounted.ArenaOk) (point : Bool)
    (range : Keyrange Key) {earlier : List (Keyrange Key)}
    (appended : lt.stoBuffer = earlier ++ [range]) :
    ArenaOk { lt := lt, stoArena := accounted.stoArena.append sizes point range } := by
  obtain ⟨appendedOk, grown⟩ := Memarena.append_ok sizes ok.arenaOk point range
  refine ⟨appendedOk, iff_of_false ?_ ?_⟩
  · exact Nat.ne_of_gt (Nat.zero_lt_of_lt grown)
  · simp [appended]

/-- Ending the optimisation releases the buffer. -/
theorem stoEnd_eq (accounted : AccountedLocktree Key) :
    accounted.stoEnd (other + accounted.stoArena.totalSizeInUse) =
      some ({ lt := accounted.lt.stoEnd, stoArena := .create }, other) := by
  simp only [stoEnd, noteMemReleased_add, bind_runs]

/-- Appending to the buffer counts by how much it grows. -/
theorem stoAppend_eq (arenaOk : accounted.ArenaOk) (point : Bool) (range : Keyrange Key) :
    accounted.stoAppend sizes point range (other + accounted.stoArena.totalSizeInUse) =
      ({ lt := { accounted.lt with stoBuffer := accounted.lt.stoBuffer ++ [range] }
         stoArena := accounted.stoArena.append sizes point range },
        other + (accounted.stoArena.append sizes point range).totalSizeInUse) := by
  obtain ⟨-, grown⟩ := Memarena.append_ok sizes arenaOk.arenaOk point range
  simp only [stoAppend, noteMemUsed, Prod.mk.injEq, true_and]
  omega

end AccountedLocktree

variable [LinearOrder Key]

namespace Treenode

/-- Whatever the order of the tree is, an insertion adds exactly the lock. -/
theorem insertFrom_perm {lock : RowLock Key} : ∀ {fuel : Nat} {tree after : Treenode Key},
    insertFrom fuel tree lock = some after → after.locks.Perm (lock :: tree.locks) := by
  -- By induction on the fuel: the lock goes down to a free place, and rotations on the way move
  -- none.
  intro fuel
  induction fuel with
  | zero =>
    intro tree after done
    cases tree with
    | nil =>
      cases done
      rfl
    | node left leftEst here right rightEst => cases done
  | succ fuel ih =>
    intro tree after done
    cases tree with
    | nil =>
      cases done
      rfl
    | node left leftEst here right rightEst =>
      rw [insertFrom] at done
      cases side : lock.range.compare here.range with
      | lessThan =>
        simp only [side, bind_inv] at done
        obtain ⟨inserted, below, same⟩ := done
        cases same
        have grown := ih below
        rw [locks_maybeRebalance] at grown
        exact grown.append_right _
      | greaterThan =>
        simp only [side, bind_inv] at done
        obtain ⟨inserted, below, same⟩ := done
        cases same
        have grown := ih below
        rw [locks_maybeRebalance] at grown
        -- The lock moves from the front of the right subtree to the front of all.
        refine (List.Perm.append_left _ ((grown.cons here).trans (List.Perm.swap _ _ _))).trans ?_
        exact List.perm_middle
      | equals => simp [side] at done
      | overlaps => simp [side] at done

/-- Whatever the order of the tree is, a removal takes out exactly one lock,
which is on the range. -/
theorem remove_perm {range : Keyrange Key} : ∀ {tree after : Treenode Key},
    remove tree range = some after →
      ∃ lock, lock.range = range ∧ tree.locks.Perm (lock :: after.locks) := by
  -- The lock comes from the root of some subtree, which its neighbour then takes the place of.
  intro tree
  induction tree with
  | nil =>
    intro after done
    cases done
  | node left leftEst here right rightEst ihLeft ihRight =>
    intro after done
    rw [remove] at done
    cases side : range.compare here.range with
    | equals =>
      simp only [side, Option.some.injEq] at done
      subst done
      refine ⟨here, (Keyrange.eq_of_compare_eq_equals side).symm, ?_⟩
      rw [locks_removeRootOfSubtree]
      exact List.perm_middle
    | lessThan =>
      simp only [side, bind_inv] at done
      obtain ⟨rest, below, same⟩ := done
      cases same
      obtain ⟨lock, onRange, perm⟩ := ihLeft below
      exact ⟨lock, onRange, perm.append_right _⟩
    | greaterThan =>
      simp only [side, bind_inv] at done
      obtain ⟨rest, below, same⟩ := done
      cases same
      obtain ⟨lock, onRange, perm⟩ := ihRight below
      refine ⟨lock, onRange, ?_⟩
      exact (List.Perm.append_left _ ((perm.cons here).trans (List.Perm.swap _ _ _))).trans
        List.perm_middle
    | overlaps => simp [side] at done

end Treenode

namespace LockedKeyrange

variable (sizes : LockSizes Key) {lkr : LockedKeyrange Key}

/-- An insertion adds the memory of the lock. -/
theorem memory_insert {inserted : LockedKeyrange Key} {lock : RowLock Key}
    (done : lkr.insert lock = some inserted) :
    inserted.memory sizes = lkr.memory sizes + rowLockSizeInTree sizes lock := by
  -- The frames around the subtree keep their locks.
  simp only [insert, Treenode.insert, bind_inv] at done
  obtain ⟨subtree, below, same⟩ := done
  cases same
  have grown := locksMemory_perm sizes (Treenode.insertFrom_perm below)
  rw [locksMemory_cons] at grown
  simp only [memory_eq, grown]
  omega

/-- A removal takes the memory of a lock on the range. -/
theorem memory_remove {removed : LockedKeyrange Key} {lock : RowLock Key}
    (done : lkr.remove lock.range = some removed) :
    lkr.memory sizes = removed.memory sizes + rowLockSizeInTree sizes lock := by
  -- The frames around the subtree keep their locks.
  simp only [remove, bind_inv] at done
  obtain ⟨-, -, subtree, below, -, -, same⟩ := done
  cases same
  obtain ⟨taken, onRange, perm⟩ := Treenode.remove_perm below
  have shrunk := locksMemory_perm sizes perm
  rw [locksMemory_cons] at shrunk
  have size : rowLockSizeInTree sizes taken = rowLockSizeInTree sizes lock := by
    rw [rowLockSizeInTree, rowLockSizeInTree, onRange]
  simp only [memory_eq, shrunk, size]
  omega

/-- An iteration leaves the memory as it is. -/
theorem memory_iterate {State : Type} (lkr : LockedKeyrange Key)
    (fn : State → RowLock Key → State × Bool) (state : State) :
    (lkr.iterate fn state).1.memory sizes = lkr.memory sizes := by
  rw [memory_eq, memory_eq]
  simp [iterate, Treenode.locks_traverseOverlaps fn lkr.range lkr.subtree state]

/-- Locking a smaller part of the tree only rebalances it. -/
theorem locks_findNode {range : Keyrange Key} : ∀ {fuel : Nat} {frames frames' : List (Frame Key)}
    {tree subtree : Treenode Key},
    findNodeWithOverlappingChild range fuel frames tree = some (frames', subtree) →
      outerLeft frames' ++ subtree.locks ++ outerRight frames' =
        outerLeft frames ++ tree.locks ++ outerRight frames := by
  -- By induction on the fuel: what the walk leaves behind goes into the frames.
  intro fuel
  induction fuel with
  | zero =>
    intro frames frames' tree subtree found
    cases tree <;> cases found
  | succ fuel ih =>
    intro frames frames' tree subtree found
    cases tree with
    | nil => cases found
    | node left leftEst here right rightEst =>
      rw [findNodeWithOverlappingChild] at found
      cases side : range.compare here.range with
      | lessThan =>
        have same := left.locks_maybeRebalance
        simp only [side] at found
        cases child : left.maybeRebalance with
        | nil =>
          rw [child] at same found
          cases found
          simp [Treenode.locks, ← same]
        | node childLeft childLeftEst childLock childRight childRightEst =>
          rw [child] at same found
          dsimp only at found
          split at found
          · cases found
            simp only [Treenode.locks] at same ⊢
            simp [same]
          · rw [ih found, same]
            simp [outerLeft, outerRight, Treenode.locks]
      | greaterThan =>
        have same := right.locks_maybeRebalance
        simp only [side] at found
        cases child : right.maybeRebalance with
        | nil =>
          rw [child] at same found
          cases found
          simp [Treenode.locks, ← same]
        | node childLeft childLeftEst childLock childRight childRightEst =>
          rw [child] at same found
          dsimp only at found
          split at found
          · cases found
            simp only [Treenode.locks] at same ⊢
            simp [same]
          · rw [ih found, same]
            simp [outerLeft, outerRight, Treenode.locks]
      | equals => simp [side] at found
      | overlaps => simp [side] at found

/-- Acquiring a range leaves the memory as it is. -/
theorem memory_acquire {acquired : LockedKeyrange Key} {range : Keyrange Key}
    (done : lkr.acquire range = some acquired) : acquired.memory sizes = lkr.memory sizes := by
  -- The root stays locked, or a node below it is.
  unfold acquire at done
  split at done
  · cases done
    rw [memory_eq, memory_eq]
  · rename_i left leftEst here right rightEst tree
    split at done
    · cases done
      rw [memory_eq, memory_eq]
    · simp only [bind_inv] at done
      obtain ⟨⟨frames, subtree⟩, found, same⟩ := done
      cases same
      rw [memory, memory, locks_release, locks_release, locks_findNode found, tree]

end LockedKeyrange

namespace AccountedLocktree

variable (sizes : LockSizes Key) (other : Nat)

/-- Removing a row lock releases its memory. -/
theorem removeRowLockFromTree_eq (lkr : LockedKeyrange Key) (lock : RowLock Key) :
    removeRowLockFromTree sizes lkr lock (other + lkr.memory sizes) =
      (lkr.remove lock.range).map fun removed => (removed, other + removed.memory sizes) := by
  rw [removeRowLockFromTree]
  rcases Option.eq_none_or_eq_some (lkr.remove lock.range) with none | ⟨removed, done⟩
  · simp [none]
  · have released : noteMemReleased (other + lkr.memory sizes) (rowLockSizeInTree sizes lock) =
        some (other + removed.memory sizes) := by
      rw [LockedKeyrange.memory_remove sizes done, ← Nat.add_assoc, noteMemReleased_add]
    simp only [done, released, bind_runs, Option.map_some]

/-- Inserting a row lock uses its memory. -/
theorem insertRowLockIntoTree_eq (lkr : LockedKeyrange Key) (lock : RowLock Key) :
    insertRowLockIntoTree sizes lkr lock (other + lkr.memory sizes) =
      (lkr.insert lock).map fun inserted => (inserted, other + inserted.memory sizes) := by
  rw [insertRowLockIntoTree]
  rcases Option.eq_none_or_eq_some (lkr.insert lock) with none | ⟨inserted, done⟩
  · simp [none]
  · simp only [done, noteMemUsed, LockedKeyrange.memory_insert sizes done, bind_runs,
      Option.map_some, Nat.add_assoc]

/-- Consolidation releases the memory of what it takes out. -/
theorem consolidate_eq (txnid : Nat) : ∀ (locks : List (RowLock Key)) (lkr : LockedKeyrange Key)
    (range : Keyrange Key),
    consolidate sizes txnid lkr range locks (other + lkr.memory sizes) =
      (Tokuft.consolidate txnid lkr range locks).map fun (taken, hull) =>
        (taken, hull, other + taken.memory sizes) := by
  -- By induction on the locks, each of which is taken out and then released.
  intro locks
  induction locks with
  | nil =>
    intro lkr range
    rfl
  | cons lock locks ih =>
    intro lkr range
    rw [consolidate, Tokuft.consolidate, removeRowLockFromTree_eq]
    by_cases own : lock.txnid = txnid
    · rcases Option.eq_none_or_eq_some (lkr.remove lock.range) with none | ⟨removed, done⟩
      · simp [none, invariant_of own]
      · simp only [invariant_of own, done, bind_runs, Option.map_some]
        exact ih removed (range.extend lock.range)
    · simp [invariant, own]

/-- Acquiring a range counts exactly what its lock and those it replaces occupy. -/
theorem acquireLockConsolidated_eq (lkr : LockedKeyrange Key) (txnid : Nat)
    (range : Keyrange Key) (conflicts : List Nat) :
    acquireLockConsolidated sizes lkr txnid range conflicts (other + lkr.memory sizes) =
      (Tokuft.acquireLockConsolidated lkr txnid range conflicts).map
        fun (acquired, granted, conflicts) =>
          (acquired, granted, conflicts, other + acquired.memory sizes) := by
  -- Locking a part of the tree uses no memory, but taking locks out and putting one in does.
  rw [acquireLockConsolidated, Tokuft.acquireLockConsolidated]
  rcases Option.eq_none_or_eq_some (lkr.acquire range) with none | ⟨acquired, done⟩
  · simp [none]
  · rw [← LockedKeyrange.memory_acquire sizes done]
    simp only [done, bind_runs]
    rw [iterateAndGetOverlappingRowLocks,
      ← LockedKeyrange.memory_iterate sizes acquired
        (fun found lock => (found ++ [lock], true)) []]
    generalize acquired.iterate (fun found lock => (found ++ [lock], true)) [] = iterated
    obtain ⟨lkr, overlapping⟩ := iterated
    dsimp only
    cases determineConflictingTxnids overlapping txnid conflicts with
    | mk exist conflicts =>
      cases exist with
      | true => rfl
      | false =>
        simp only [Bool.false_eq_true, if_false, consolidate_eq]
        rcases Option.eq_none_or_eq_some (Tokuft.consolidate txnid lkr range overlapping) with
          none | ⟨⟨taken, hull⟩, consolidated⟩
        · simp [none]
        · simp only [consolidated, Option.map_some, Option.bind_some, insertRowLockIntoTree_eq]
          rcases Option.eq_none_or_eq_some (taken.insert { range := hull, txnid := txnid }) with
            none | ⟨inserted, put⟩
          · simp [none]
          · simp only [put, Option.map_some, Option.bind_some]

/-- Removing the locks of a transaction releases their memory. -/
theorem removeLocksOf_eq (txnid : Nat) : ∀ (locks : List (RowLock Key))
    (lkr : LockedKeyrange Key),
    removeLocksOf sizes txnid lkr locks (other + lkr.memory sizes) =
      (Locktree.removeLocksOf txnid lkr locks).map fun removed =>
        (removed, other + removed.memory sizes) := by
  -- By induction on the locks, of which those of other transactions are passed over.
  intro locks
  induction locks with
  | nil =>
    intro lkr
    rfl
  | cons lock locks ih =>
    intro lkr
    rw [removeLocksOf, Locktree.removeLocksOf, removeRowLockFromTree_eq]
    by_cases own : lock.txnid = txnid
    · rcases Option.eq_none_or_eq_some (lkr.remove lock.range) with none | ⟨removed, done⟩
      · simp [none, own]
      · simp only [own, if_true, done, Option.map_some, bind_runs]
        exact ih removed
    · simp only [own, if_false, bind_runs]
      exact ih lkr

/-- Removing locks releases their memory. -/
theorem removeLocks_eq : ∀ (locks : List (RowLock Key)) (lkr : LockedKeyrange Key),
    removeLocks sizes lkr locks (other + lkr.memory sizes) =
      (Locktree.removeLocks lkr locks).map fun removed =>
        (removed, other + removed.memory sizes) := by
  -- By induction on the locks.
  intro locks
  induction locks with
  | nil =>
    intro lkr
    rfl
  | cons lock locks ih =>
    intro lkr
    rw [removeLocks, Locktree.removeLocks, removeRowLockFromTree_eq]
    rcases Option.eq_none_or_eq_some (lkr.remove lock.range) with none | ⟨removed, done⟩
    · simp [none]
    · simp only [done, Option.map_some, bind_runs]
      exact ih removed

/-- Inserting locks uses their memory. -/
theorem insertLocks_eq : ∀ (locks : List (RowLock Key)) (lkr : LockedKeyrange Key),
    insertLocks sizes lkr locks (other + lkr.memory sizes) =
      (Locktree.insertLocks lkr locks).map fun inserted =>
        (inserted, other + inserted.memory sizes) := by
  -- By induction on the locks.
  intro locks
  induction locks with
  | nil =>
    intro lkr
    rfl
  | cons lock locks ih =>
    intro lkr
    rw [insertLocks, Locktree.insertLocks, insertRowLockIntoTree_eq]
    rcases Option.eq_none_or_eq_some (lkr.insert lock) with none | ⟨inserted, done⟩
    · simp [none]
    · simp only [done, Option.map_some, bind_runs]
      exact ih inserted

/-- Taking the first locks out releases their memory. -/
theorem extractFirstNRowLocks_eq (lkr : LockedKeyrange Key) (numToExtract : Nat) :
    extractFirstNRowLocks sizes lkr numToExtract (other + lkr.memory sizes) =
      (Locktree.extractFirstNRowLocks lkr numToExtract).map fun (rest, extracted) =>
        (rest, extracted, other + rest.memory sizes) := by
  rw [extractFirstNRowLocks, Locktree.extractFirstNRowLocks,
    ← LockedKeyrange.memory_iterate sizes lkr (Locktree.extractLock numToExtract) []]
  generalize lkr.iterate (Locktree.extractLock numToExtract) [] = iterated
  obtain ⟨lkr, extracted⟩ := iterated
  dsimp only
  by_cases few : extracted.length ≤ numToExtract
  · simp only [invariant_of few, removeLocks_eq, bind_runs]
    rcases Option.eq_none_or_eq_some (Locktree.removeLocks lkr extracted) with
      none | ⟨removed, done⟩
    · simp [none]
    · simp only [done, Option.map_some, Option.bind_some]
  · simp [invariant, few]

/-- Taking all locks out in batches releases their memory. -/
theorem extractBatches_eq : ∀ (fuel : Nat) (lkr : LockedKeyrange Key)
    (buffers : List (Nat × List (Keyrange Key))),
    extractBatches sizes fuel lkr buffers (other + lkr.memory sizes) =
      (Locktree.extractBatches fuel lkr buffers).map fun (emptied, buffers) =>
        (emptied, buffers, other + emptied.memory sizes) := by
  -- By induction on the fuel, one batch after another.
  intro fuel
  induction fuel with
  | zero =>
    intro lkr buffers
    rfl
  | succ fuel ih =>
    intro lkr buffers
    rw [extractBatches, Locktree.extractBatches, extractFirstNRowLocks_eq]
    rcases Option.eq_none_or_eq_some (Locktree.extractFirstNRowLocks lkr numRowLocksPerBatch) with
      none | ⟨⟨rest, extracted⟩, done⟩
    · simp [none]
    · simp only [done, Option.map_some, bind_runs]
      cases extracted with
      | nil => rfl
      | cons first others => exact ih rest _

variable {lt : Locktree Key} {accounted : AccountedLocktree Key}

/-- Inserted locks add their memory. -/
theorem memory_insertLocks : ∀ (locks : List (RowLock Key)) {lkr inserted : LockedKeyrange Key},
    Locktree.insertLocks lkr locks = some inserted →
      inserted.memory sizes = lkr.memory sizes + locksMemory sizes locks := by
  -- By induction on the locks.
  intro locks
  induction locks with
  | nil =>
    intro lkr inserted done
    cases done
    rfl
  | cons lock locks ih =>
    intro lkr inserted done
    simp only [Locktree.insertLocks, bind_inv] at done
    obtain ⟨first, put, rest⟩ := done
    rw [ih rest, LockedKeyrange.memory_insert sizes put, locksMemory_cons]
    omega

variable [BoundedOrder Key] {txnid : Nat}

/-- Collecting ranges counts the memory of the tree they are collected in. -/
theorem collectRanges_eq (txnid : Nat) : ∀ (ranges : List (Keyrange Key)) (tree : Treenode Key),
    collectRanges sizes txnid tree ranges (other + locksMemory sizes tree.locks) =
      (Locktree.collectRanges txnid tree ranges).map fun collected =>
        (collected, other + locksMemory sizes collected.locks) := by
  -- By induction on the ranges, each of which goes into the tree like a request.
  intro ranges
  induction ranges with
  | nil =>
    intro tree
    rfl
  | cons range ranges ih =>
    intro tree
    rw [collectRanges, Locktree.collectRanges,
      show locksMemory sizes tree.locks = (LockedKeyrange.prepare tree).memory sizes from rfl,
      acquireLockConsolidated_eq]
    rcases Option.eq_none_or_eq_some (Tokuft.acquireLockConsolidated (LockedKeyrange.prepare tree)
      txnid range []) with none | ⟨⟨acquired, granted, conflicts⟩, done⟩
    · simp [none]
    · cases granted with
      | false => simp [done, invariant]
      | true =>
        simp only [done, Option.map_some, bind_runs, invariant_of trivial]
        exact ih acquired.release

section

variable (ordered : ∀ range ∈ accounted.lt.stoBuffer, range.Ordered) (lkr : LockedKeyrange Key)
include ordered lkr

/-- The migration counts in the tree it leaves what it first collected in another one. -/
theorem stoMigrateBufferRangesToTree_eq :
    accounted.stoMigrateBufferRangesToTree sizes lkr (other + lkr.memory sizes) =
      (accounted.lt.stoMigrateBufferRangesToTree lkr).map fun migrated =>
        (migrated, other + migrated.memory sizes) := by
  -- The locks are counted where they are collected, and once more where they end up.
  rw [stoMigrateBufferRangesToTree, Locktree.stoMigrateBufferRangesToTree]
  by_cases buffered : accounted.lt.stoBuffer.isEmpty = false
  · by_cases empty : accounted.lt.rangetree.size = 0
    · rcases Option.eq_none_or_eq_some accounted.lt.stoTxnid with none | ⟨txnid, active⟩
      · simp [none]
      · obtain ⟨collected, run, collects⟩ :=
          Locktree.collectRanges_ok txnid accounted.lt.stoBuffer []
            (show Coalesced (locksOf txnid []) Treenode.nil.locks from .refl LocksOk.nil) ordered
        have counted := collectRanges_eq sizes (other + lkr.memory sizes) txnid
          accounted.lt.stoBuffer .nil
        rw [run, Option.map_some, show locksMemory sizes Treenode.nil.locks = 0 from rfl,
          Nat.add_zero] at counted
        obtain ⟨iterated, found, -, -, -, -⟩ := iterateAndGetOverlappingRowLocks_ok
          (LockedKeyrange.prepare_ok collects.ok) (show Keyrange.infinite.Ordered from bot_le)
        -- All that was collected is copied.
        have all : (LockedKeyrange.prepare collected).release.locks.filter (fun lock =>
            (LockedKeyrange.prepare collected).range.overlaps lock.range) = collected.locks :=
          List.filter_eq_self.mpr fun lock member => Locktree.infinite_overlaps lock.range
        rw [all] at found
        simp only [invariant_of buffered, invariant_of empty, active,
          RangeBuffers.iterate_lossless, run,
          counted, found, bind_runs]
        rcases Option.eq_none_or_eq_some (Locktree.insertLocks lkr collected.locks) with
          none | ⟨inserted, put⟩
        · simp [none]
        · have grown := memory_insertLocks sizes collected.locks put
          by_cases full : inserted.release.size ≠ 0
          · simp only [put, Option.bind_some, invariant_of full, Option.map_some,
              grown, Nat.add_assoc]
          · rw [not_not] at full
            simp [put, invariant, full]
    · simp [invariant, empty]
  · simp [invariant, buffered]

/-- Ending the optimisation early counts the ranges in the tree instead of the buffer. -/
theorem stoEndEarly_eq :
    accounted.stoEndEarly sizes lkr
        (other + lkr.memory sizes + accounted.stoArena.totalSizeInUse) =
      (accounted.lt.stoEndEarly lkr).map fun (ended, migrated) =>
        ({ lt := ended, stoArena := .create }, migrated, other + migrated.memory sizes) := by
  rw [stoEndEarly, Locktree.stoEndEarly, Nat.add_right_comm, stoMigrateBufferRangesToTree_eq
    sizes _ ordered]
  rcases Option.eq_none_or_eq_some (accounted.lt.stoMigrateBufferRangesToTree lkr) with
    none | ⟨migrated, done⟩
  · simp [none]
  · simp only [done, Option.map_some, bind_runs]
    rw [Nat.add_right_comm, stoEnd_eq]
    rfl

end

/-- Whether a request goes into the buffer or finds the tree, exactly what it changes is counted. -/
theorem stoTryAcquire_accounted (ok : accounted.lt.Ok) (arenaOk : accounted.ArenaOk)
    {lkr lkr' : LockedKeyrange Key} (point : Bool) {range : Keyrange Key} {acquired : Bool}
    (done : accounted.lt.stoTryAcquire lkr txnid range = some (lt, lkr', acquired)) :
    ∃ arena, accounted.stoTryAcquire sizes lkr txnid point range
        (other + lkr.memory sizes + accounted.stoArena.totalSizeInUse) =
      some ({ lt := lt, stoArena := arena }, lkr', acquired,
        other + lkr'.memory sizes + arena.totalSizeInUse) ∧
      ArenaOk { lt := lt, stoArena := arena } := by
  -- The request begins the optimisation, goes on with it, ends it, or finds it off.
  rw [Locktree.stoTryAcquire] at done
  rw [stoTryAcquire]
  split at done
  · -- The optimisation begins.
    rename_i begins
    rw [if_pos begins]
    simp only [Locktree.stoBegin, bind_inv, Option.map_eq_some_iff, invariant_eq_some] at done
    obtain ⟨-, ⟨begun, ⟨-, idle, -, empty, rfl⟩, rfl⟩, rest⟩ := done
    simp only [invariant_of trivial, Option.bind_some, Option.some.injEq, Prod.mk.injEq] at rest
    obtain ⟨rfl, rfl, rfl⟩ := rest
    have begunOk : ArenaOk
        { accounted with lt := { accounted.lt with stoTxnid := some txnid } } :=
      ⟨arenaOk.arenaOk, arenaOk.empty⟩
    refine ⟨accounted.stoArena.append sizes point range, ?_,
      arenaOk.append sizes point range rfl⟩
    simp only [Locktree.stoBegin, invariant_of idle, invariant_of empty, invariant_of trivial,
      stoAppend_eq sizes _ begunOk, bind_runs, Option.map_some]
  · rename_i begins
    rw [if_neg begins]
    split at done
    · -- The optimisation ends early, and the request finds the tree.
      rename_i early
      rw [if_pos early]
      simp only [bind_inv] at done
      obtain ⟨⟨ended, migrated⟩, moved, rest⟩ := done
      obtain ⟨noOwner, nothing⟩ : ended.stoTxnid = none ∧ ended.stoBuffer = [] := by
        simp only [Locktree.stoEndEarly, bind_inv, Prod.mk.injEq] at moved
        obtain ⟨-, -, rfl, -⟩ := moved
        exact ⟨rfl, rfl⟩
      simp only [noOwner, nothing, List.isEmpty_nil, invariant_of trivial, Option.bind_some,
        Option.some.injEq, Prod.mk.injEq] at rest
      obtain ⟨rfl, rfl, rfl⟩ := rest
      refine ⟨.create, ?_, ArenaOk.of_create nothing⟩
      rw [stoEndEarly_eq sizes other ok.bufferOrdered, moved]
      simp only [Option.map_some, bind_runs, noOwner, nothing, List.isEmpty_nil,
        invariant_of trivial]
      rfl
    · rename_i goesOn
      rw [if_neg goesOn]
      simp only [bind_runs] at done ⊢
      cases sto : accounted.lt.stoTxnid with
      | none =>
        simp only [sto, Option.bind_eq_some_iff, invariant_eq_some, Option.some.injEq,
          Prod.mk.injEq] at done
        obtain ⟨-, empty, rfl, rfl, rfl⟩ := done
        exact ⟨accounted.stoArena, by simp only [invariant_of empty, Option.bind_some], arenaOk⟩
      | some owner =>
        simp only [sto, Option.bind_eq_some_iff, invariant_eq_some, Option.some.injEq,
          Prod.mk.injEq] at done
        obtain ⟨-, own, rfl, rfl, rfl⟩ := done
        refine ⟨accounted.stoArena.append sizes point range, ?_,
          arenaOk.append sizes point range rfl⟩
        simp only [invariant_of own, stoAppend_eq sizes _ arenaOk, Option.bind_some,
          sto]

/-- A request counts exactly what it changes, whether it is granted or refused. -/
theorem acquireLock_accounted (ok : accounted.lt.Ok) (arenaOk : accounted.ArenaOk) (point : Bool)
    {range : Keyrange Key} {result : Locktree.AcquireResult}
    (done : accounted.lt.acquireLock txnid range = some (lt, result)) :
    ∃ arena, accounted.acquireLock sizes txnid point range (other + accounted.memory sizes) =
      some ({ lt := lt, stoArena := arena }, result,
        other + memory sizes { lt := lt, stoArena := arena }) ∧
      ArenaOk { lt := lt, stoArena := arena } := by
  -- Only a request that is not for the buffer goes to the tree.
  simp only [Locktree.acquireLock, bind_inv] at done
  obtain ⟨⟨tried, lkr, acquired⟩, attempt, rest⟩ := done
  obtain ⟨arena, counted, triedOk⟩ := stoTryAcquire_accounted sizes other ok arenaOk point attempt
  have before : other + accounted.memory sizes = other +
      (LockedKeyrange.prepare accounted.lt.rangetree).memory sizes +
      accounted.stoArena.totalSizeInUse := (Nat.add_assoc _ _ _).symm
  rw [acquireLock, before, counted]
  cases acquired with
  | true =>
    simp only [if_true, Option.some.injEq, Prod.mk.injEq] at rest
    obtain ⟨rfl, rfl⟩ := rest
    refine ⟨arena, ?_, triedOk.arenaOk, triedOk.empty⟩
    simp only [bind_runs, if_true, memory, LockedKeyrange.memory, Nat.add_assoc]
  | false =>
    simp only [Bool.false_eq_true, if_false, Option.bind_eq_some_iff, Option.some.injEq,
      Prod.mk.injEq] at rest
    obtain ⟨⟨final, granted, conflicts⟩, consolidated, rfl, rfl⟩ := rest
    refine ⟨arena, ?_, triedOk.arenaOk, triedOk.empty⟩
    simp only [bind_runs, Bool.false_eq_true, if_false]
    rw [Nat.add_right_comm, acquireLockConsolidated_eq, consolidated]
    simp only [Option.map_some, Option.bind_some, memory,
      LockedKeyrange.memory, Nat.add_assoc, Nat.add_comm arena.totalSizeInUse]

/-- Removing the locks that overlap a range releases their memory. -/
theorem removeOverlappingLocksForTxnid_eq (tree : Treenode Key) (txnid : Nat)
    (range : Keyrange Key) :
    removeOverlappingLocksForTxnid sizes tree txnid range
        (other + locksMemory sizes tree.locks) =
      (Locktree.removeOverlappingLocksForTxnid tree txnid range).map fun removed =>
        (removed, other + locksMemory sizes removed.locks) := by
  -- What overlaps the range is found first, and of it the own locks go.
  rw [removeOverlappingLocksForTxnid, Locktree.removeOverlappingLocksForTxnid]
  rcases Option.eq_none_or_eq_some ((LockedKeyrange.prepare tree).acquire range) with
    none | ⟨acquired, done⟩
  · simp [none]
  · have same : locksMemory sizes tree.locks =
        (iterateAndGetOverlappingRowLocks acquired).1.memory sizes :=
      ((LockedKeyrange.memory_iterate sizes acquired _ _).trans
        (LockedKeyrange.memory_acquire sizes done)).symm
    simp only [done, bind_runs, same, removeLocksOf_eq]
    rcases Option.eq_none_or_eq_some (Locktree.removeLocksOf txnid
      (iterateAndGetOverlappingRowLocks acquired).1
      (iterateAndGetOverlappingRowLocks acquired).2) with none | ⟨removed, taken⟩
    · simp [none]
    · simp only [taken, Option.map_some, Option.bind_some]
      rfl

/-- Removing the locks that overlap some ranges releases their memory. -/
theorem removeOverlappingLocks_eq (txnid : Nat) : ∀ (ranges : List (Keyrange Key))
    (tree : Treenode Key),
    removeOverlappingLocks sizes txnid tree ranges (other + locksMemory sizes tree.locks) =
      (Locktree.removeOverlappingLocks txnid tree ranges).map fun removed =>
        (removed, other + locksMemory sizes removed.locks) := by
  -- By induction on the ranges.
  intro ranges
  induction ranges with
  | nil =>
    intro tree
    rfl
  | cons range ranges ih =>
    intro tree
    rw [removeOverlappingLocks, Locktree.removeOverlappingLocks,
      removeOverlappingLocksForTxnid_eq]
    rcases Option.eq_none_or_eq_some (Locktree.removeOverlappingLocksForTxnid tree txnid range)
      with none | ⟨removed, done⟩
    · simp [none]
    · simp only [done, Option.map_some, bind_runs]
      exact ih removed

/-- A release counts exactly what it changes. -/
theorem releaseLocks_accounted (arenaOk : accounted.ArenaOk) {ranges : List (Keyrange Key)}
    (done : accounted.lt.releaseLocks txnid ranges = some lt) :
    ∃ arena, accounted.releaseLocks sizes txnid ranges (other + accounted.memory sizes) =
      some ({ lt := lt, stoArena := arena },
        other + memory sizes { lt := lt, stoArena := arena }) ∧
      ArenaOk { lt := lt, stoArena := arena } := by
  -- A buffer gives its memory back at once, and the locks of a tree one by one.
  cases sto : accounted.lt.stoTxnid with
  | some owner =>
    simp only [Locktree.releaseLocks, sto, bind_inv, invariant_eq_some] at done
    obtain ⟨-, own, -, empty, rfl⟩ := done
    refine ⟨.create, ?_, ArenaOk.of_create rfl⟩
    simp only [releaseLocks, sto, invariant_of own, invariant_of empty, memory, ← Nat.add_assoc,
      stoEnd_eq, bind_runs]
    rfl
  | none =>
    simp only [Locktree.releaseLocks, sto, RangeBuffers.iterate_lossless, bind_inv] at done
    obtain ⟨_, rfl, removed, taken, rfl⟩ := done
    refine ⟨accounted.stoArena, ?_, arenaOk.arenaOk, arenaOk.empty⟩
    have before : other + accounted.memory sizes = other + accounted.stoArena.totalSizeInUse +
        locksMemory sizes accounted.lt.rangetree.locks := by
      rw [memory]
      omega
    have counted := removeOverlappingLocks_eq sizes (other + accounted.stoArena.totalSizeInUse)
      txnid ranges accounted.lt.rangetree
    rw [taken, Option.map_some] at counted
    rw [before, releaseLocks]
    simp only [sto, counted, bind_runs, Option.some.injEq, Prod.mk.injEq, memory, true_and]
    omega

omit [BoundedOrder Key] in
/-- Once the buffer is in the tree, merging the locks there counts exactly what it changes. -/
theorem mergeLocks_accounted {moved : Locktree Key} {lkr : LockedKeyrange Key} {arena : Memarena}
    {buffers : List (Nat × List (Keyrange Key))}
    (movedOk : ArenaOk { lt := moved, stoArena := arena })
    (done : ((Locktree.extractBatches (lkr.release.size + 1) lkr []).bind fun batches =>
      (invariant (batches.1.release.size = 0)).bind fun _ =>
        (Locktree.insertLocks batches.1 (Locktree.locksOfBuffers batches.2)).bind fun inserted =>
          some ({ moved with rangetree := inserted.release }, batches.2)) = some (lt, buffers)) :
    ((extractBatches sizes (lkr.release.size + 1) lkr []
        (other + lkr.memory sizes + arena.totalSizeInUse)).bind fun batches =>
      (invariant (batches.1.release.size = 0)).bind fun _ =>
        (insertLocks sizes batches.1 (Locktree.locksOfBuffers batches.2.1) batches.2.2).bind
          fun inserted => some
            (({ lt := { moved with rangetree := inserted.1.release }, stoArena := arena } :
              AccountedLocktree Key), batches.2.1, inserted.2)) =
      some ({ lt := lt, stoArena := arena }, buffers,
        other + memory sizes { lt := lt, stoArena := arena }) ∧
      ArenaOk { lt := lt, stoArena := arena } := by
  -- All locks are released before the merged ones are counted.
  simp only [Option.bind_eq_some_iff, invariant_eq_some, Option.some.injEq, Prod.mk.injEq] at done
  obtain ⟨⟨emptied, merged⟩, batches, -, empty, inserted, put, rfl, rfl⟩ := done
  refine ⟨?_, movedOk.arenaOk, movedOk.empty⟩
  rw [Nat.add_right_comm, extractBatches_eq, batches]
  simp only [Option.map_some, Option.bind_some, invariant_of empty, insertLocks_eq, put,
    Option.some.injEq, Prod.mk.injEq, true_and]
  simp only [memory, LockedKeyrange.memory]
  omega

/-- An escalation counts exactly what it changes. -/
theorem escalate_accounted (ok : accounted.lt.Ok)
    (arenaOk : accounted.ArenaOk)
    {buffers : List (Nat × List (Keyrange Key))}
    (done : accounted.lt.escalate = some (lt, buffers)) :
    ∃ arena, accounted.escalate sizes (other + accounted.memory sizes) =
      some ({ lt := lt, stoArena := arena }, buffers,
        other + memory sizes { lt := lt, stoArena := arena }) ∧
      ArenaOk { lt := lt, stoArena := arena } := by
  -- The buffer goes into the tree first, if there is one.
  have before : other + accounted.memory sizes = other +
      (LockedKeyrange.prepare accounted.lt.rangetree).memory sizes +
      accounted.stoArena.totalSizeInUse := (Nat.add_assoc _ _ _).symm
  rw [Locktree.escalate, Locktree.acquire_infinite] at done
  simp only [Locktree.iterateBuffers_lossless] at done
  rw [escalate, Locktree.acquire_infinite, before]
  by_cases active : accounted.lt.stoTxnid.isSome
  · -- First the buffer moves into the tree.
    obtain ⟨owner, sto⟩ := Option.isSome_iff_exists.mp active
    obtain ⟨migrated, moved, -⟩ :=
      Locktree.stoEndEarly_ok ok (Locktree.givesBack_lossless _) sto
    simp only [if_pos active, bind_runs, moved] at done
    simp only [if_pos active, bind_runs, stoEndEarly_eq sizes other ok.bufferOrdered, moved,
      Option.map_some]
    have ended : ArenaOk
        { lt := { accounted.lt.stoEnd with stoScore := 0 }, stoArena := .create } :=
      ArenaOk.of_create rfl
    exact ⟨.create, mergeLocks_accounted sizes other ended done⟩
  · simp only [if_neg active, bind_runs] at done
    simp only [if_neg active, bind_runs]
    exact ⟨accounted.stoArena, mergeLocks_accounted sizes other arenaOk done⟩

end AccountedLocktree

end Tokuft
