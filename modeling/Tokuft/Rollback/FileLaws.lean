import Tokuft.Rollback.Log

/-! What the file of rollback logs keeps, and how the nodes in use change hands. -/

namespace Tokuft

variable {Item : Type}

/-- Every stored node is in use or waits empty in the cache, and freed numbers store nothing. -/
structure FileOk (file : RollbackFile Item) : Prop where
  named : ∀ {blocknum log}, file.nodes blocknum = some log → log.blocknum = blocknum
  usedStored : ∀ {blocknum}, file.inUse blocknum = true → (file.nodes blocknum).isSome
  storedHeld : ∀ {blocknum}, (file.nodes blocknum).isSome →
    file.inUse blocknum = true ∨ blocknum ∈ file.rollbackCache.contents
  cachedOnce : file.rollbackCache.contents.Nodup
  cachedIdle : ∀ {blocknum}, blocknum ∈ file.rollbackCache.contents → file.inUse blocknum = false
  cachedUnused : ∀ {blocknum}, blocknum ∈ file.rollbackCache.contents →
    ∃ log, file.nodes blocknum = some log ∧ log.isUnused
  freeOnce : file.freelist.Nodup
  freeEmpty : ∀ {blocknum}, blocknum ∈ file.freelist →
    file.nodes blocknum = none ∧ blocknum < file.smallestNeverUsed
  bounded : ∀ {blocknum}, (file.nodes blocknum).isSome → blocknum < file.smallestNeverUsed

/-- The nodes in use before an operation on one owner give way to others, and
no one else's change. -/
structure Moves (file after : RollbackFile Item) (before owned : List Blocknum) : Prop where
  ok : FileOk after
  nodup : owned.Nodup
  used : ∀ blocknum, after.inUse blocknum = true ↔
    blocknum ∈ owned ∨ (file.inUse blocknum = true ∧ blocknum ∉ before)
  kept : ∀ {blocknum}, file.inUse blocknum = true → blocknum ∉ before →
    after.nodes blocknum = file.nodes blocknum
  fresh : ∀ {blocknum}, blocknum ∈ owned → blocknum ∉ before → file.inUse blocknum = false

/-- A list of nodes in use, each named once. -/
structure Owned (file : RollbackFile Item) (owned : List Blocknum) : Prop where
  nodup : owned.Nodup
  used : ∀ {blocknum}, blocknum ∈ owned → file.inUse blocknum = true

variable {file after : RollbackFile Item} {before : List Blocknum}

/-- Nothing moves when nothing is done. -/
theorem Moves.refl {owned : List Blocknum} (ok : FileOk file) (held : Owned file owned) :
    Moves file file owned owned where
  ok := ok
  nodup := held.nodup
  used := by
    intro blocknum
    by_cases member : blocknum ∈ owned
    · simp [member, held.used member]
    · simp [member]
  kept := fun _ _ => rfl
  fresh := fun member outside => absurd member outside

/-- One node in use is a list of nodes in use. -/
theorem Owned.single {blocknum : Blocknum} (used : file.inUse blocknum = true) :
    Owned file [blocknum] where
  nodup := by simp
  used := by simp [used]

/-- After a move the new owner's nodes are in use, each once. -/
theorem Moves.owned {owned : List Blocknum} (moves : Moves file after before owned) :
    Owned after owned where
  nodup := moves.nodup
  used := fun member => (moves.used _).mpr (Or.inl member)

/-- Moves follow one another. -/
theorem Moves.trans {middle : RollbackFile Item} {between owned : List Blocknum}
    (first : Moves file middle before between) (second : Moves middle after between owned) :
    Moves file after before owned where
  ok := second.ok
  nodup := second.nodup
  used := by
    intro blocknum
    rw [second.used, first.used]
    constructor
    · rintro (member | ⟨middleOwned | other, outside⟩)
      · exact Or.inl member
      · exact absurd middleOwned outside
      · exact Or.inr other
    · rintro (member | other)
      · exact Or.inl member
      · by_cases member : blocknum ∈ between
        · -- A node that was neither owned nor free cannot have been picked up in between.
          have unused := first.fresh member other.2
          exact absurd other.1 (by simp [unused])
        · exact Or.inr ⟨Or.inr other, member⟩
  kept := by
    intro blocknum used outside
    have notBetween : blocknum ∉ between := by
      intro member
      have unused := first.fresh member outside
      exact absurd used (by simp [unused])
    rw [second.kept ((first.used _).mpr (Or.inr ⟨used, outside⟩)) notBetween,
      first.kept used outside]
  fresh := by
    intro blocknum member outside
    by_cases between : blocknum ∈ between
    · exact first.fresh between outside
    · -- What was idle in between and not just released was idle before.
      have idle := second.fresh member between
      by_contra used
      have stillUsed : middle.inUse blocknum = true :=
        (first.used _).mpr (Or.inr ⟨by simpa using used, outside⟩)
      simp [idle] at stillUsed

section

variable {owned others : List Blocknum} (moves : Moves file after before owned)
  (held : Owned file others) (apart : ∀ blocknum ∈ others, blocknum ∉ before)
include moves held apart

/-- The nodes of another owner are unaffected by a move. -/
theorem Moves.other :
    Owned after others ∧ (∀ blocknum ∈ others, blocknum ∉ owned) ∧
      ∀ blocknum ∈ others, after.nodes blocknum = file.nodes blocknum := by
  -- What was in use before is not given out again.
  refine ⟨⟨held.nodup, ?_⟩, ?_, ?_⟩
  · intro blocknum member
    exact (moves.used _).mpr (Or.inr ⟨held.used member, apart _ member⟩)
  · intro blocknum member inside
    have unused := moves.fresh inside (apart _ member)
    have used := held.used member
    simp [unused] at used
  · intro blocknum member
    exact moves.kept (held.used member) (apart _ member)

/-- A move may be seen as one of a larger list of nodes, the rest of which stay. -/
theorem Moves.frame :
    Moves file after (before ++ others) (owned ++ others) := by
  -- The rest is another owner, whose nodes the move leaves alone.
  obtain ⟨still, disjoint, same⟩ := moves.other held apart
  refine ⟨moves.ok, ?_, ?_, ?_, ?_⟩
  · refine List.nodup_append.mpr ⟨moves.nodup, held.nodup, ?_⟩
    rintro blocknum inside _ member rfl
    exact disjoint _ member inside
  · intro blocknum
    rw [moves.used]
    simp only [List.mem_append, not_or]
    by_cases member : blocknum ∈ others
    · simp [member, held.used member, apart _ member]
    · simp [member]
  · intro blocknum used outside
    simp only [List.mem_append, not_or] at outside
    exact moves.kept used outside.1
  · intro blocknum inside outside
    simp only [List.mem_append, not_or] at inside outside
    exact moves.fresh (inside.resolve_right outside.2) outside.1

end

/-- A list of nodes in use may be split into two that share none. -/
theorem Owned.split {file : RollbackFile Item} {front back : List Blocknum}
    (held : Owned file (front ++ back)) :
    Owned file front ∧ Owned file back ∧ ∀ blocknum ∈ back, blocknum ∉ front := by
  obtain ⟨frontOnce, backOnce, apart⟩ := List.nodup_append.mp held.nodup
  refine ⟨⟨frontOnce, fun member => held.used (List.mem_append_left _ member)⟩,
    ⟨backOnce, fun member => held.used (List.mem_append_right _ member)⟩, ?_⟩
  intro blocknum behind before
  exact apart _ before _ behind rfl

/-- A move of the front of a list of nodes leaves the back as it was. -/
theorem Moves.within {front owned : List Blocknum} (moves : Moves file after front owned)
    (back : List Blocknum) (held : Owned file (front ++ back)) :
    Moves file after (front ++ back) (owned ++ back) ∧ Owned after back ∧
      ∀ blocknum ∈ back, after.nodes blocknum = file.nodes blocknum := by
  obtain ⟨-, heldBack, apart⟩ := held.split
  obtain ⟨still, -, same⟩ := moves.other heldBack apart
  exact ⟨moves.frame heldBack apart, still, same⟩

/-- The order in which nodes are listed does not matter to a move. -/
theorem Moves.perm {before' owned owned' : List Blocknum} (moves : Moves file after before owned)
    (sameBefore : before.Perm before') (sameOwned : owned.Perm owned') :
    Moves file after before' owned' where
  ok := moves.ok
  nodup := sameOwned.nodup_iff.mp moves.nodup
  used := by
    intro blocknum
    rw [moves.used, sameOwned.mem_iff, sameBefore.mem_iff]
  kept := fun used outside => moves.kept used (fun member => outside (sameBefore.mem_iff.mp member))
  fresh := fun inside outside => moves.fresh (sameOwned.mem_iff.mpr inside)
    (fun member => outside (sameBefore.mem_iff.mp member))

/-- A list of nodes in use may be listed in any order. -/
theorem Owned.perm {owned owned' : List Blocknum} (held : Owned file owned)
    (same : owned.Perm owned') : Owned file owned' where
  nodup := same.nodup_iff.mp held.nodup
  used := fun member => held.used (same.mem_iff.mpr member)

/-- An operation on one node that leaves it in use is one on every list with that node. -/
theorem Moves.inside {blocknum : Blocknum} {owned : List Blocknum}
    (moves : Moves file after [blocknum] [blocknum]) (held : Owned file owned)
    (member : blocknum ∈ owned) : Moves file after owned owned := by
  have front := List.perm_cons_erase member
  have framed := (moves.within (owned.erase blocknum) (held.perm front)).1
  exact framed.perm front.symm front.symm

/-- A list of distinct nodes in use is no longer than the numbers ever given out. -/
theorem Owned.length_le {file : RollbackFile Item} {owned : List Blocknum}
    (held : Owned file owned) (ok : FileOk file) : owned.length ≤ file.smallestNeverUsed := by
  have inside : owned ⊆ List.range file.smallestNeverUsed := by
    intro blocknum member
    exact List.mem_range.mpr (ok.bounded (ok.usedStored (held.used member)))
  simpa using (List.subperm_of_subset held.nodup inside).length_le

namespace RollbackFile

variable {log : RollbackLogNode Item}

/-- A pinned node with the expected owner and number passes its check. -/
theorem verify_sequence {txnid : TxnidPair} (owner : log.txnid = txnid) :
    rollbackVerifyContents log txnid (log.sequence + 1) = some () := by
  simp [rollbackVerifyContents, owner]

/-- A node in use can be pinned. -/
theorem getAndPin_used {blocknum : Blocknum} (ok : FileOk file) (used : file.inUse blocknum = true)
    (stored : file.nodes blocknum = some log) :
    file.getAndPinRollbackLog blocknum = some log := by
  simp [getAndPinRollbackLog, used, stored, ok.named stored]

/-- Writing to a node in use moves nothing. -/
theorem moves_unpin (ok : FileOk file) (used : file.inUse log.blocknum = true) :
    Moves file (file.rollbackLogUnpin log) [log.blocknum] [log.blocknum] := by
  have stored := ok.usedStored used
  refine ⟨⟨?_, ?_, ?_, ok.cachedOnce, ok.cachedIdle, ?_, ok.freeOnce, ?_, ?_⟩, by simp, ?_, ?_, ?_⟩
  · intro blocknum other found
    by_cases same : blocknum = log.blocknum
    · subst same
      simp only [rollbackLogUnpin, Function.update_self, Option.some.injEq] at found
      rw [found]
    · simp only [rollbackLogUnpin, Function.update_of_ne same] at found
      exact ok.named found
  · intro blocknum here
    by_cases same : blocknum = log.blocknum
    · simp [rollbackLogUnpin, same]
    · simpa [rollbackLogUnpin, Function.update_of_ne same] using ok.usedStored here
  · intro blocknum here
    by_cases same : blocknum = log.blocknum
    · exact Or.inl (same ▸ used)
    · exact ok.storedHeld (by simpa [rollbackLogUnpin, Function.update_of_ne same] using here)
  · intro blocknum cached
    -- A node in the cache is not in use, so it is not the one written to.
    have idle := ok.cachedIdle cached
    have different : blocknum ≠ log.blocknum := by
      intro same
      simp [same, used] at idle
    simpa [rollbackLogUnpin, Function.update_of_ne different] using ok.cachedUnused cached
  · intro blocknum free
    obtain ⟨absent, small⟩ := ok.freeEmpty free
    have different : blocknum ≠ log.blocknum := by
      intro same
      simp [← same, absent] at stored
    exact ⟨by simpa [rollbackLogUnpin, Function.update_of_ne different] using absent, small⟩
  · intro blocknum here
    by_cases same : blocknum = log.blocknum
    · exact same ▸ ok.bounded stored
    · exact ok.bounded (by simpa [rollbackLogUnpin, Function.update_of_ne same] using here)
  · exact (Moves.refl ok (Owned.single used)).used
  · intro blocknum _ outside
    have different : blocknum ≠ log.blocknum := by simpa using outside
    simp [rollbackLogUnpin, Function.update_of_ne different]
  · exact fun inside outside => absurd inside outside

/-- A node that was written to reads as it was written. -/
@[simp] theorem nodes_unpin (log : RollbackLogNode Item) :
    (file.rollbackLogUnpin log).nodes log.blocknum = some log := by
  simp [rollbackLogUnpin]

/-- Removing a node in use clears its place and frees its number. -/
theorem unpinAndRemove_used (used : file.inUse log.blocknum = true) :
    file.rollbackLogUnpinAndRemove log = some { file with
      nodes := Function.update file.nodes log.blocknum none
      freelist := log.blocknum :: file.freelist
      inUse := Function.update file.inUse log.blocknum false } := by
  simp [rollbackLogUnpinAndRemove, endUse, used]

/-- A node in use can be removed. -/
theorem moves_remove (ok : FileOk file) (used : file.inUse log.blocknum = true) :
    ∃ after, file.rollbackLogUnpinAndRemove log = some after ∧
      Moves file after [log.blocknum] [] := by
  have stored := ok.usedStored used
  refine ⟨_, unpinAndRemove_used used, ⟨?_, ?_, ?_, ok.cachedOnce, ?_, ?_, ?_, ?_, ?_⟩,
    List.nodup_nil, ?_, ?_, by simp⟩
  · intro blocknum other found
    by_cases same : blocknum = log.blocknum
    · simp [same] at found
    · exact ok.named (by simpa [Function.update_of_ne same] using found)
  · intro blocknum here
    by_cases same : blocknum = log.blocknum
    · simp [same] at here
    · simpa [Function.update_of_ne same] using
        ok.usedStored (by simpa [Function.update_of_ne same] using here)
  · intro blocknum here
    by_cases same : blocknum = log.blocknum
    · simp [same] at here
    · simpa [Function.update_of_ne same] using
        ok.storedHeld (by simpa [Function.update_of_ne same] using here)
  · intro blocknum cached
    have idle := ok.cachedIdle cached
    by_cases same : blocknum = log.blocknum
    · simp [same]
    · simpa [Function.update_of_ne same] using idle
  · intro blocknum cached
    have idle := ok.cachedIdle cached
    have different : blocknum ≠ log.blocknum := by
      intro same
      simp [same, used] at idle
    simpa [Function.update_of_ne different] using ok.cachedUnused cached
  · refine List.nodup_cons.mpr ⟨fun free => ?_, ok.freeOnce⟩
    -- A stored node's number is not free yet.
    have absent := (ok.freeEmpty free).1
    simp [absent] at stored
  · intro blocknum free
    rcases List.mem_cons.mp free with rfl | free
    · exact ⟨by simp, ok.bounded stored⟩
    · obtain ⟨absent, small⟩ := ok.freeEmpty free
      refine ⟨?_, small⟩
      by_cases same : blocknum = log.blocknum
      · simp [same]
      · simpa [Function.update_of_ne same] using absent
  · intro blocknum here
    by_cases same : blocknum = log.blocknum
    · simp [same] at here
    · exact ok.bounded (by simpa [Function.update_of_ne same] using here)
  · intro blocknum
    by_cases same : blocknum = log.blocknum
    · simp [same]
    · simp [same]
  · intro blocknum _ away
    have different : blocknum ≠ log.blocknum := by simpa using away
    simp [Function.update_of_ne different]

/-- A node given to the cache waits there empty. -/
theorem give_used {cache : RingBuffer Blocknum} (used : file.inUse log.blocknum = true)
    (room : file.rollbackCache.push log.blocknum = some cache) :
    file.giveRollbackLogNode log = some (true, { file with
      nodes := Function.update file.nodes log.blocknum (some (rollbackEmptyLogInit log.blocknum))
      rollbackCache := cache
      inUse := Function.update file.inUse log.blocknum false }) := by
  simp [giveRollbackLogNode, room, endUse, used, rollbackLogUnpin, rollbackEmptyLogInit]

section

variable (ok : FileOk file)
include ok

/-- A node in use can be given back or removed. -/
theorem moves_giveOrRemove (used : file.inUse log.blocknum = true) :
    ∃ after, file.giveOrRemove log = some after ∧ Moves file after [log.blocknum] [] := by
  have stored := ok.usedStored used
  cases room : file.rollbackCache.push log.blocknum with
  | none =>
    -- A full cache refuses the node.
    obtain ⟨after, removed, moves⟩ := moves_remove ok used
    exact ⟨after, by simp [giveOrRemove, giveRollbackLogNode, room, removed], moves⟩
  | some cache =>
    have cached := RingBuffer.contents_push room
    have notCached : log.blocknum ∉ file.rollbackCache.contents := by
      intro member
      have idle := ok.cachedIdle member
      simp [used] at idle
    have given : file.giveOrRemove log = some { file with
        nodes := Function.update file.nodes log.blocknum (some (rollbackEmptyLogInit log.blocknum))
        rollbackCache := cache
        inUse := Function.update file.inUse log.blocknum false } := by
      simp [giveOrRemove, give_used used room]
    refine ⟨_, given, ⟨?_, ?_, ?_, ?_, ?_, ?_, ok.freeOnce, ?_, ?_⟩, List.nodup_nil, ?_, ?_,
      by simp⟩
    · intro blocknum other found
      by_cases same : blocknum = log.blocknum
      · simp only [same, Function.update_self, Option.some.injEq] at found
        rw [← found, same]
        rfl
      · exact ok.named (by simpa [Function.update_of_ne same] using found)
    · intro blocknum here
      by_cases same : blocknum = log.blocknum
      · simp [same]
      · simpa [Function.update_of_ne same] using
          ok.usedStored (by simpa [Function.update_of_ne same] using here)
    · intro blocknum here
      by_cases same : blocknum = log.blocknum
      · exact Or.inr (by simp [cached, same])
      · have before := ok.storedHeld (by simpa [Function.update_of_ne same] using here)
        simpa [Function.update_of_ne same, cached, same] using before
    · rw [cached]
      refine List.nodup_append.mpr ⟨ok.cachedOnce, by simp, ?_⟩
      rintro blocknum member _ last rfl
      exact notCached (List.mem_singleton.mp last ▸ member)
    · intro blocknum member
      by_cases same : blocknum = log.blocknum
      · simp [same]
      · simpa [Function.update_of_ne same] using
          ok.cachedIdle (by simpa [cached, same] using member)
    · intro blocknum member
      by_cases same : blocknum = log.blocknum
      · exact ⟨rollbackEmptyLogInit log.blocknum, by simp [same], rfl⟩
      · simpa [Function.update_of_ne same] using
          ok.cachedUnused (by simpa [cached, same] using member)
    · intro blocknum free
      obtain ⟨absent, small⟩ := ok.freeEmpty free
      have different : blocknum ≠ log.blocknum := by
        intro same
        simp [← same, absent] at stored
      exact ⟨by simpa [Function.update_of_ne different] using absent, small⟩
    · intro blocknum here
      by_cases same : blocknum = log.blocknum
      · rw [same]
        exact ok.bounded stored
      · exact ok.bounded (by simpa [Function.update_of_ne same] using here)
    · intro blocknum
      by_cases same : blocknum = log.blocknum
      · simp [same]
      · simp [same]
    · intro blocknum _ away
      have different : blocknum ≠ log.blocknum := by simpa using away
      simp [Function.update_of_ne different]

/-- The cache has nothing to give, or it gives a node that nobody used. -/
theorem getRollbackLogNode_moves :
    file.getRollbackLogNode = some (none, file) ∨
      ∃ log after, file.getRollbackLogNode = some (some log, after) ∧
        Moves file after [] [log.blocknum] := by
  -- A cached node is stored and unused, and the cache names it once.
  cases popped : file.rollbackCache.pop with
  | none => exact Or.inl (by simp [getRollbackLogNode, popped])
  | some pair =>
    obtain ⟨blocknum, cache⟩ := pair
    have cached := RingBuffer.contents_pop popped
    have first : blocknum ∈ file.rollbackCache.contents := by simp [cached]
    have idle := ok.cachedIdle first
    obtain ⟨log, stored, unused⟩ := ok.cachedUnused first
    obtain rfl := ok.named stored
    have once : (log.blocknum :: cache.contents).Nodup := cached ▸ ok.cachedOnce
    obtain ⟨notCached, distinct⟩ := List.nodup_cons.mp once
    have taken : file.getRollbackLogNode = some (some log, { file with
        rollbackCache := cache
        inUse := Function.update file.inUse log.blocknum true }) := by
      simp [getRollbackLogNode, popped, beginUse, idle, getAndPinRollbackLog, stored, unused]
    refine Or.inr ⟨log, _, taken, ⟨ok.named, ?_, ?_, distinct, ?_, ?_, ok.freeOnce, ok.freeEmpty,
      ok.bounded⟩, by simp, ?_, fun _ _ => rfl, ?_⟩
    · intro blocknum here
      by_cases same : blocknum = log.blocknum
      · simp [same, stored]
      · exact ok.usedStored (by simpa [Function.update_of_ne same] using here)
    · intro blocknum here
      by_cases same : blocknum = log.blocknum
      · simp [same]
      · simpa [Function.update_of_ne same, cached, same] using ok.storedHeld here
    · intro blocknum member
      have different : blocknum ≠ log.blocknum := fun same => notCached (same ▸ member)
      simpa [Function.update_of_ne different] using ok.cachedIdle (by simp [cached, member])
    · exact fun member => ok.cachedUnused (by simp [cached, member])
    · intro blocknum
      by_cases same : blocknum = log.blocknum
      · simp [same]
      · simp [same]
    · intro blocknum inside _
      obtain rfl := List.mem_singleton.mp inside
      exact idle

/-- The block number that is given out stores nothing and is not free any more. -/
theorem allocateBlocknum_fresh :
    file.nodes file.allocateBlocknum.1 = none ∧
      file.allocateBlocknum.1 ∉ file.allocateBlocknum.2.freelist ∧
      file.allocateBlocknum.1 < file.allocateBlocknum.2.smallestNeverUsed ∧
      file.smallestNeverUsed ≤ file.allocateBlocknum.2.smallestNeverUsed ∧
      file.allocateBlocknum.2.freelist.Sublist file.freelist ∧
      file.allocateBlocknum.2.nodes = file.nodes ∧
      file.allocateBlocknum.2.rollbackCache = file.rollbackCache ∧
      file.allocateBlocknum.2.inUse = file.inUse := by
  unfold allocateBlocknum
  cases free : file.freelist with
  | nil =>
    -- The first number never used is above every stored one.
    refine ⟨?_, by simp, by simp, by simp, by simp, rfl, rfl, rfl⟩
    by_contra stored
    exact lt_irrefl _ (ok.bounded (Option.isSome_iff_ne_none.mpr stored))
  | cons blocknum rest =>
    obtain ⟨absent, small⟩ := ok.freeEmpty (free ▸ List.mem_cons_self)
    have once : (blocknum :: rest).Nodup := free ▸ ok.freeOnce
    exact ⟨absent, (List.nodup_cons.mp once).1, small, le_refl _, by simp, rfl, rfl, rfl⟩

/-- A created node is one that nobody used. -/
theorem rollbackLogCreate_moves (txnid : TxnidPair) (info : RollInfo) (previous : Option Blocknum) :
    ∃ log after, file.rollbackLogCreate txnid info previous = some (log, after,
        { info with
          numRollbackNodes := info.numRollbackNodes + 1
          currentRollback := some log.blocknum }) ∧
      log = (rollbackInitializeForTxn log txnid info previous).1 ∧
      after.nodes log.blocknum = some log ∧
      Moves file after [] [log.blocknum] := by
  -- A new number is above all earlier ones, or it comes from the list of free ones.
  obtain ⟨absent, notFree, small, grows, fewer, sameNodes, sameCache, sameUse⟩ :=
    allocateBlocknum_fresh ok
  generalize allocated : file.allocateBlocknum = pair at *
  obtain ⟨blocknum, middle⟩ := pair
  obtain ⟨nodes, freelist, smallest, cache, inUse⟩ := middle
  obtain rfl : nodes = file.nodes := sameNodes
  obtain rfl : cache = file.rollbackCache := sameCache
  obtain rfl : inUse = file.inUse := sameUse
  dsimp only at absent notFree small grows fewer
  have idle : file.inUse blocknum = false := by
    by_contra used
    have stored := ok.usedStored (by simpa using used)
    simp [absent] at stored
  have created : file.rollbackLogCreate txnid info previous = some (
      (rollbackInitializeForTxn (rollbackEmptyLogInit blocknum) txnid info previous).1,
      { nodes := Function.update file.nodes blocknum
          (some (rollbackInitializeForTxn (rollbackEmptyLogInit blocknum) txnid info previous).1)
        freelist := freelist
        smallestNeverUsed := smallest
        rollbackCache := file.rollbackCache
        inUse := Function.update file.inUse blocknum true },
      { info with
        numRollbackNodes := info.numRollbackNodes + 1
        currentRollback := some blocknum }) := by
    simp [rollbackLogCreate, allocated, beginUse, idle, rollbackLogUnpin, rollbackInitializeForTxn,
      rollbackEmptyLogInit]
  refine ⟨_, _, created, rfl, by simp [rollbackInitializeForTxn, rollbackEmptyLogInit],
    ⟨?_, ?_, ?_, ok.cachedOnce, ?_, ?_, fewer.nodup ok.freeOnce, ?_, ?_⟩, by simp, ?_, ?_, ?_⟩
  all_goals simp only [rollbackInitializeForTxn, rollbackEmptyLogInit]
  · intro here log found
    by_cases same : here = blocknum
    · simp only [same, Function.update_self, Option.some.injEq] at found
      rw [← found, same]
    · exact ok.named (by simpa [Function.update_of_ne same] using found)
  · intro here used
    by_cases same : here = blocknum
    · simp [same]
    · simpa [Function.update_of_ne same] using
        ok.usedStored (by simpa [Function.update_of_ne same] using used)
  · intro here stored
    by_cases same : here = blocknum
    · simp [same]
    · simpa [Function.update_of_ne same] using
        ok.storedHeld (by simpa [Function.update_of_ne same] using stored)
  · intro here cached
    have different : here ≠ blocknum := by
      rintro rfl
      obtain ⟨log, stored, _⟩ := ok.cachedUnused cached
      simp [absent] at stored
    simpa [Function.update_of_ne different] using ok.cachedIdle cached
  · intro here cached
    have different : here ≠ blocknum := by
      rintro rfl
      obtain ⟨log, stored, _⟩ := ok.cachedUnused cached
      simp [absent] at stored
    simpa [Function.update_of_ne different] using ok.cachedUnused cached
  · intro here free
    have different : here ≠ blocknum := fun same => notFree (same ▸ free)
    obtain ⟨empty, below⟩ := ok.freeEmpty (fewer.subset free)
    exact ⟨by simpa [Function.update_of_ne different] using empty, lt_of_lt_of_le below grows⟩
  · intro here stored
    by_cases same : here = blocknum
    · exact same ▸ small
    · have below := ok.bounded (by simpa [Function.update_of_ne same] using stored)
      exact lt_of_lt_of_le below grows
  · intro here
    by_cases same : here = blocknum
    · simp [same]
    · simp [same]
  · intro here used outside
    have different : here ≠ blocknum := by
      rintro rfl
      simp [idle] at used
    simp [Function.update_of_ne different]
  · intro here inside _
    obtain rfl := List.mem_singleton.mp inside
    exact idle

end

end RollbackFile

end Tokuft
