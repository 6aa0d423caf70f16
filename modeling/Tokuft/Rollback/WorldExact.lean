import Tokuft.Rollback.SaveExact
import Tokuft.Rollback.SavedOrder

/-! Rollback entries are applied exactly once, and rollback log nodes are let go exactly once. -/

namespace Tokuft

variable {Item : Type}

/-- Every node in use belongs to the log of one live transaction, and to no other log. -/
structure Accounted (world : RollWorld Item) (owned : TxnidPair → List Blocknum) : Prop where
  file : FileOk world.file
  once : ∀ txnid, (owned txnid).Nodup
  apart : ∀ {txnid other blocknum}, txnid ≠ other → blocknum ∈ owned txnid →
    blocknum ∉ owned other
  used : ∀ blocknum, world.file.inUse blocknum = true ↔ ∃ txnid, blocknum ∈ owned txnid
  closed : ∀ {txnid}, world.txns txnid = none → owned txnid = []

/-- The nodes of one transaction are in use. -/
theorem Accounted.owned {world : RollWorld Item} {owned : TxnidPair → List Blocknum}
    (accounted : Accounted world owned) (txnid : TxnidPair) : Owned world.file (owned txnid) where
  nodup := accounted.once txnid
  used := fun member => (accounted.used _).mpr ⟨txnid, member⟩

/-- The nodes of two transactions are in use, and shared by none. -/
theorem Accounted.owned_pair {world : RollWorld Item} {owned : TxnidPair → List Blocknum}
    (accounted : Accounted world owned) {txnid other : TxnidPair} (different : txnid ≠ other) :
    Owned world.file (owned txnid ++ owned other) where
  nodup := by
    refine List.nodup_append.mpr ⟨accounted.once _, accounted.once _, ?_⟩
    rintro blocknum member _ there rfl
    exact accounted.apart different member there
  used := by
    intro blocknum member
    rcases List.mem_append.mp member with member | member
    · exact (accounted.owned txnid).used member
    · exact (accounted.owned other).used member

/-- One transaction comes to own some nodes, and others that are gone own none any more. -/
def handOver (owned : TxnidPair → List Blocknum) (heir : TxnidPair) (gone : List TxnidPair)
    (list : List Blocknum) : TxnidPair → List Blocknum :=
  fun txnid => if txnid = heir then list else if txnid ∈ gone then [] else owned txnid

/-- Nodes that move to an heir stay accounted for, and the nodes of all others stay the same. -/
theorem Accounted.handOver {world after : RollWorld Item} {owned : TxnidPair → List Blocknum}
    {list : List Blocknum} (accounted : Accounted world owned) (heir : TxnidPair)
    (gone : List TxnidPair)
    (moves : Moves world.file after.file (owned heir ++ gone.flatMap owned) list)
    (closed : after.txns heir = none → list = [])
    (sameTxns : ∀ txnid, txnid ≠ heir → txnid ∉ gone → after.txns txnid = world.txns txnid) :
    Accounted after (handOver owned heir gone list) ∧
      ∀ txnid, txnid ≠ heir → txnid ∉ gone → ∀ blocknum ∈ owned txnid,
        after.file.nodes blocknum = world.file.nodes blocknum := by
  have outside : ∀ {txnid blocknum}, txnid ≠ heir → txnid ∉ gone → blocknum ∈ owned txnid →
      blocknum ∉ owned heir ++ gone.flatMap owned := by
    intro txnid blocknum notHeir still member inside
    rcases List.mem_append.mp inside with inside | inside
    · exact accounted.apart notHeir member inside
    · obtain ⟨other, there, inside⟩ := List.mem_flatMap.mp inside
      have different : txnid ≠ other := fun same => still (same ▸ there)
      exact accounted.apart different member inside
  -- A transaction that has a node now either is the heir or kept what it had.
  have kinds : ∀ {txnid blocknum}, blocknum ∈ Tokuft.handOver owned heir gone list txnid →
      (txnid = heir ∧ blocknum ∈ list) ∨
        (txnid ≠ heir ∧ txnid ∉ gone ∧ blocknum ∈ owned txnid) := by
    intro txnid blocknum member
    unfold Tokuft.handOver at member
    split at member
    · rename_i same
      exact Or.inl ⟨same, member⟩
    · rename_i notHeir
      split at member
      · simp at member
      · rename_i still
        exact Or.inr ⟨notHeir, still, member⟩
  have notHeirs : ∀ {txnid blocknum}, txnid ≠ heir → txnid ∉ gone → blocknum ∈ owned txnid →
      blocknum ∉ list := by
    intro txnid blocknum notHeir still member
    have apart := (moves.other (accounted.owned txnid)
      (fun _ here => outside notHeir still here)).2.1
    exact apart blocknum member
  refine ⟨⟨moves.ok, ?_, ?_, ?_, ?_⟩, ?_⟩
  · intro txnid
    unfold Tokuft.handOver
    split
    · exact moves.nodup
    · split
      · exact List.nodup_nil
      · exact accounted.once txnid
  · intro txnid other blocknum different member there
    rcases kinds member with ⟨isHeir, inside⟩ | ⟨notHeir, still, inside⟩
    · rcases kinds there with ⟨alsoHeir, -⟩ | ⟨notHeir, still, elsewhere⟩
      · exact different (isHeir.trans alsoHeir.symm)
      · exact notHeirs notHeir still elsewhere inside
    · rcases kinds there with ⟨-, elsewhere⟩ | ⟨-, -, elsewhere⟩
      · exact notHeirs notHeir still inside elsewhere
      · exact accounted.apart different inside elsewhere
  · intro blocknum
    rw [moves.used]
    constructor
    · rintro (member | ⟨used, away⟩)
      · exact ⟨heir, by simpa [Tokuft.handOver] using member⟩
      · obtain ⟨txnid, member⟩ := (accounted.used blocknum).mp used
        have notHeir : txnid ≠ heir := by
          rintro rfl
          exact away (List.mem_append_left _ member)
        have still : txnid ∉ gone := fun there =>
          away (List.mem_append_right _ (List.mem_flatMap.mpr ⟨txnid, there, member⟩))
        exact ⟨txnid, by simpa [Tokuft.handOver, notHeir, still] using member⟩
    · rintro ⟨txnid, member⟩
      rcases kinds member with ⟨-, member⟩ | ⟨notHeir, still, member⟩
      · exact Or.inl member
      · exact Or.inr ⟨(accounted.used _).mpr ⟨txnid, member⟩, outside notHeir still member⟩
  · intro txnid absent
    unfold Tokuft.handOver
    split
    · rename_i same
      exact closed (same ▸ absent)
    · rename_i notHeir
      split
      · rfl
      · rename_i still
        exact accounted.closed (by rwa [← sameTxns txnid notHeir still])
  · intro txnid notHeir still blocknum member
    exact moves.kept ((accounted.used _).mpr ⟨txnid, member⟩) (outside notHeir still member)

/-- The logs hold, for every live transaction, the items that it answers for. -/
structure RollWorld.Represents (world : RollWorld Item) (saved : SavedWorld Item)
    (owned : TxnidPair → List Blocknum) : Prop where
  accounted : Accounted world owned
  parents : ∀ txnid, (world.txns txnid).map RollTxn.parent =
    (saved.live txnid).map SavedTxn.parent
  holds : ∀ {txnid txn savedTxn}, world.txns txnid = some txn →
    saved.live txnid = some savedTxn →
    TxnHolds world.file.nodes txnid txn.rollInfo (owned txnid)
      (savedTxn.saved.map SavedEntry.item).reverse

namespace RollWorld.Represents

variable {world : RollWorld Item} {saved : SavedWorld Item} {owned : TxnidPair → List Blocknum}

/-- A transaction that answers for entries has a log, under the same parent. -/
theorem txn_of_live (represents : world.Represents saved owned) {txnid : TxnidPair}
    {savedTxn : SavedTxn Item} (live : saved.live txnid = some savedTxn) :
    ∃ info, world.txns txnid = some { parent := savedTxn.parent, rollInfo := info } := by
  have parents := represents.parents txnid
  rw [live, Option.map_some] at parents
  obtain ⟨txn, found, same⟩ := Option.map_eq_some_iff.mp parents
  exact ⟨txn.rollInfo, by rw [found, ← same]⟩

/-- A transaction that is not live has no log. -/
theorem none_of_not_live (represents : world.Represents saved owned) {txnid : TxnidPair}
    (absent : saved.live txnid = none) : world.txns txnid = none := by
  have parents := represents.parents txnid
  rw [absent, Option.map_none] at parents
  exact Option.map_eq_none_iff.mp parents

/-- An heir with a log that holds what it answers for is enough, when all others stay or go. -/
theorem toHeir (represents : world.Represents saved owned) (heir : TxnidPair)
    (gone : List TxnidPair) (txn : RollTxn) (savedTxn : SavedTxn Item) {list : List Blocknum}
    {after : RollWorld Item} {saved' : SavedWorld Item}
    (moves : Moves world.file after.file (owned heir ++ gone.flatMap owned) list)
    (txns : after.txns = fun txnid => if txnid = heir then some txn
      else if txnid ∈ gone then none else world.txns txnid)
    (live : saved'.live = fun txnid => if txnid = heir then some savedTxn
      else if txnid ∈ gone then none else saved.live txnid)
    (parent : txn.parent = savedTxn.parent)
    (holds : TxnHolds after.file.nodes heir txn.rollInfo list
      (savedTxn.saved.map SavedEntry.item).reverse) :
    after.Represents saved' (handOver owned heir gone list) := by
  -- The nodes of the one that is gone now count among those of the heir.
  obtain ⟨accounted, same⟩ := represents.accounted.handOver heir gone moves (by simp [txns])
    (fun txnid notHeir still => by simp [txns, notHeir, still])
  refine ⟨accounted, ?_, ?_⟩
  · intro txnid
    rw [txns, live]
    dsimp only
    split
    · simp [parent]
    · split
      · rfl
      · exact represents.parents txnid
  · intro txnid txnThere savedThere found foundLive
    rw [txns] at found
    rw [live] at foundLive
    unfold handOver
    dsimp only at found foundLive
    split at found
    · rename_i here
      simp only [here, if_true, Option.some.injEq] at found foundLive ⊢
      rw [← found, ← foundLive]
      exact holds
    · rename_i notHeir
      split at found
      · simp at found
      · rename_i still
        simp only [notHeir, still, if_false] at foundLive ⊢
        exact (represents.holds found foundLive).congr (same txnid notHeir still)

/-- A transaction that lets go of every node may close. -/
theorem close (represents : world.Represents saved owned) (txnid : TxnidPair)
    {after : RollWorld Item} {saved' : SavedWorld Item}
    (moves : Moves world.file after.file (owned txnid) [])
    (txns : after.txns = Function.update world.txns txnid none)
    (live : saved'.live = Function.update saved.live txnid none) :
    after.Represents saved' (handOver owned txnid [] []) := by
  -- Without nodes there is nothing to hand over.
  obtain ⟨accounted, same⟩ := represents.accounted.handOver txnid [] (by simpa using moves)
    (fun _ => rfl) (fun there notHere _ => by rw [txns, Function.update_of_ne notHere])
  refine ⟨accounted, ?_, ?_⟩
  · intro there
    rw [txns, live]
    by_cases here : there = txnid
    · simp [here]
    · simpa [Function.update_of_ne here] using represents.parents there
  · intro there txnThere savedThere found foundLive
    rw [txns] at found
    rw [live] at foundLive
    by_cases here : there = txnid
    · simp [here] at found
    · rw [Function.update_of_ne here] at found foundLive
      simpa [handOver, here] using (represents.holds found foundLive).congr
        (same there here List.not_mem_nil)

end RollWorld.Represents

/-- An applied entry as the code sees it, without its place in the order of saves. -/
def withoutPlace (applied : ApplyFunc × SavedEntry Item) : ApplyFunc × Item :=
  (applied.1, applied.2.item)

/-- Entries applied newest first are the items applied newest first. -/
theorem map_withoutPlace (func : ApplyFunc) (entries : List (SavedEntry Item)) :
    (entries.reverse.map (func, ·)).map withoutPlace =
      (entries.map SavedEntry.item).reverse.map (func, ·) := by
  simp [withoutPlace, Function.comp_def]

namespace RollWorld.Represents

variable {world : RollWorld Item} {saved : SavedWorld Item} {owned : TxnidPair → List Blocknum}

/-- Applying the log of a transaction applies what it answers for, and closes it. -/
theorem applyAndComplete (represents : world.Represents saved owned) (func : ApplyFunc)
    {txnid : TxnidPair} {savedTxn : SavedTxn Item} {txn : RollTxn}
    (live : saved.live txnid = some savedTxn) (found : world.txns txnid = some txn) :
    ∃ world' owned', world.applyAndComplete func txnid txn =
        some (world', (saved.finish func txnid savedTxn).2.map withoutPlace) ∧
      world'.Represents (saved.finish func txnid savedTxn).1 owned' := by
  -- What is applied is what the log holds, newest first.
  obtain ⟨file, info, applied, moves, noHead, noTail, noCurrent⟩ :=
    RollbackFile.applyTxn_holds func represents.accounted.file (represents.accounted.owned txnid)
      (represents.holds found live)
  refine ⟨{ file := file, txns := Function.update world.txns txnid none }, _, ?_,
    represents.close txnid moves rfl rfl⟩
  rw [SavedWorld.finish, map_withoutPlace]
  simp [RollWorld.applyAndComplete, applied, completeTxn, noHead, noTail, noCurrent]

/-- A beginning transaction answers for nothing and has an empty log. -/
theorem begin (represents : world.Represents saved owned) {txnid : TxnidPair}
    {parent : Option TxnidPair} (absent : saved.live txnid = none) :
    RollWorld.Represents
      { world with
        txns := Function.update world.txns txnid (some { parent := parent, rollInfo := .none }) }
      { saved with
        live := Function.update saved.live txnid (some { parent := parent, saved := [] }) }
      (handOver owned txnid [] []) := by
  have empty := represents.accounted.closed (represents.none_of_not_live absent)
  refine represents.toHeir txnid [] { parent := parent, rollInfo := .none }
    { parent := parent, saved := [] } ?_ ?_ ?_ rfl (TxnHolds.none txnid)
  · rw [empty]
    exact Moves.refl represents.accounted.file ⟨List.nodup_nil, by simp⟩
  · ext1 there
    by_cases here : there = txnid <;> simp [here]
  · ext1 there
    by_cases here : there = txnid <;> simp [here]

/-- A saved item is the newest that its transaction answers for. -/
theorem save (represents : world.Represents saved owned) (sizes : RollbackSizes Item)
    {txnid : TxnidPair} {savedTxn : SavedTxn Item} {info : RollInfo} (entry : SavedEntry Item)
    (saves : Nat) (live : saved.live txnid = some savedTxn)
    (found : world.txns txnid = some { parent := savedTxn.parent, rollInfo := info }) :
    ∃ file info' list, world.file.saveRollback sizes txnid info (.item entry.item) =
        some (file, info') ∧
      RollWorld.Represents
        { file := file
          txns := Function.update world.txns txnid
            (some { parent := savedTxn.parent, rollInfo := info' }) }
        { live := Function.update saved.live txnid
            (some { savedTxn with saved := savedTxn.saved ++ [entry] })
          saves := saves } (handOver owned txnid [] list) := by
  -- The saved item is the newest entry of the last node.
  have single : Holds world.file.nodes (.entries [.item entry.item]) [] [entry.item] :=
    .item .noEntries
  obtain ⟨file, info', list, done, moves, holds⟩ := RollbackFile.saveRollback_holds sizes
    represents.accounted.file (by simpa using represents.accounted.owned txnid)
    (represents.holds found live) single
  refine ⟨file, info', list, done, represents.toHeir txnid []
    { parent := savedTxn.parent, rollInfo := info' }
    { savedTxn with saved := savedTxn.saved ++ [entry] } (by simpa using moves) ?_ ?_ rfl
    (by simpa using holds)⟩
  · ext1 there
    by_cases here : there = txnid <;> simp [here]
  · ext1 there
    by_cases here : there = txnid <;> simp [here]

/-- A parent comes to answer for what its committed child answered for. -/
theorem commitChild (represents : world.Represents saved owned) (sizes : RollbackSizes Item)
    {child parent : TxnidPair} {childTxn parentTxn : SavedTxn Item} {info parentInfo : RollInfo}
    (different : parent ≠ child) (live : saved.live child = some childTxn)
    (parentLive : saved.live parent = some parentTxn)
    (found : world.txns child = some { parent := childTxn.parent, rollInfo := info })
    (parentFound : world.txns parent =
      some { parent := parentTxn.parent, rollInfo := parentInfo }) :
    ∃ file info' parentInfo' list,
      world.file.rollbackCommitChild sizes child info parent parentInfo =
        some (file, info', parentInfo') ∧ info'.spilledRollbackHead = none ∧
      info'.spilledRollbackTail = none ∧ info'.currentRollback = none ∧
      RollWorld.Represents
        { file := file
          txns := Function.update (Function.update world.txns parent
            (some { parent := parentTxn.parent, rollInfo := parentInfo' })) child none }
        { saved with
          live := Function.update (Function.update saved.live parent
            (some { parentTxn with saved := parentTxn.saved ++ childTxn.saved })) child none }
        (handOver owned parent [child] list) := by
  -- The lists of the child are appended to those of the parent, which no other transaction owns.
  obtain ⟨file, info', parentInfo', list, done, moves, holds, noHead, noTail, noCurrent⟩ :=
    RollbackFile.rollbackCommitChild_holds sizes represents.accounted.file
      (represents.accounted.owned_pair different) (represents.holds parentFound parentLive)
      (represents.holds found live)
  refine ⟨file, info', parentInfo', list, done, noHead, noTail, noCurrent,
    represents.toHeir parent [child] { parent := parentTxn.parent, rollInfo := parentInfo' }
      { parentTxn with saved := parentTxn.saved ++ childTxn.saved } (by simpa using moves) ?_ ?_
      rfl (by simpa using holds)⟩
  · ext1 there
    by_cases here : there = child
    · simp [here, different.symm]
    · by_cases heir : there = parent <;> simp [here, heir, different]
  · ext1 there
    by_cases here : there = child
    · simp [here, different.symm]
    · by_cases heir : there = parent <;> simp [here, heir, different]

/-- What the specification allows, the code does without a failed check, and
with the same result. -/
theorem step (represents : world.Represents saved owned) (sizes : RollbackSizes Item)
    (noLoops : saved.NoLoops) {event : RollEvent Item} {saved' : SavedWorld Item}
    {applied : List (ApplyFunc × SavedEntry Item)} (stepped : saved.Stepped event saved' applied) :
    ∃ world' owned', world.step sizes event = some (world', applied.map withoutPlace) ∧
      world'.Represents saved' owned' := by
  -- One case for each request.
  cases stepped with
  | begin absent parentLive => exact ⟨_, _, rfl, represents.begin absent⟩
  | @save txnid txn item here =>
    obtain ⟨info, found⟩ := represents.txn_of_live here
    obtain ⟨file, info', list, done, represents'⟩ :=
      represents.save sizes { place := saved.saves, item := item } (saved.saves + 1) here found
    exact ⟨_, _, by simp only [RollWorld.step, found, done, bind_runs, List.map_nil], represents'⟩
  | @commitChild child parent childTxn parentTxn here isParent parentHere =>
    obtain ⟨info, found⟩ := represents.txn_of_live here
    obtain ⟨parentInfo, parentFound⟩ := represents.txn_of_live parentHere
    have different : parent ≠ child := by
      rintro rfl
      exact noLoops here isParent
    obtain ⟨file, info', parentInfo', list, done, noHead, noTail, noCurrent, represents'⟩ :=
      represents.commitChild sizes different here parentHere found parentFound
    refine ⟨_, _, ?_, represents'⟩
    simp only [RollWorld.step, found, isParent, parentFound, done, completeTxn, noHead, noTail,
      noCurrent, invariant_of, bind_runs, List.map_nil]
  | @commitRoot txnid txn here isRoot =>
    obtain ⟨info, found⟩ := represents.txn_of_live here
    obtain ⟨world', owned', done, represents'⟩ := represents.applyAndComplete .commit here found
    refine ⟨world', owned', ?_, represents'⟩
    simp only [isRoot] at found done
    simpa [RollWorld.step, found] using done
  | @abort txnid txn here =>
    obtain ⟨info, found⟩ := represents.txn_of_live here
    obtain ⟨world', owned', done, represents'⟩ := represents.applyAndComplete .abort here found
    exact ⟨world', owned', by simpa [RollWorld.step, found] using done, represents'⟩

/-- Whole runs of the specification are runs of the code, with the same entries applied. -/
theorem run (sizes : RollbackSizes Item) :
    ∀ {events : List (RollEvent Item)} {world : RollWorld Item} {saved saved' : SavedWorld Item}
      {owned : TxnidPair → List Blocknum} {applied : List (List (ApplyFunc × SavedEntry Item))},
      world.Represents saved owned → saved.NoLoops → saved.run events = some (saved', applied) →
      ∃ world' owned', world.run sizes events = some (world', applied.map (·.map withoutPlace)) ∧
        world'.Represents saved' owned' := by
  -- By induction on the requests.
  intro events
  induction events with
  | nil =>
    intro world saved saved' owned applied represents _ allowed
    simp only [SavedWorld.run, Option.some.injEq, Prod.mk.injEq] at allowed
    obtain ⟨rfl, rfl⟩ := allowed
    exact ⟨world, owned, rfl, represents⟩
  | cons event events ih =>
    intro world saved saved' owned applied represents noLoops allowed
    simp only [SavedWorld.run, bind_inv, Prod.exists, Prod.mk.injEq] at allowed
    obtain ⟨middle, here, first, last, later, rest, rfl, rfl⟩ := allowed
    have stepped := SavedWorld.stepped_of_step first
    obtain ⟨world₁, owned₁, done, represents₁⟩ := represents.step sizes noLoops stepped
    obtain ⟨world', owned', ran, represents'⟩ := ih represents₁ (noLoops.step stepped) rest
    exact ⟨world', owned', by simp [RollWorld.run, done, ran], represents'⟩

/-- At the start no transaction answers for anything, and no node is in use. -/
theorem start (smallestNeverUsed capacity : Nat) :
    (RollWorld.start smallestNeverUsed capacity : RollWorld Item).Represents SavedWorld.start
      (fun _ => []) := by
  refine ⟨⟨⟨?_, ?_, ?_, List.nodup_nil, ?_, ?_, List.nodup_nil, ?_, ?_⟩, ?_, ?_, ?_, ?_⟩, ?_, ?_⟩
  all_goals simp [RollWorld.start, RollbackFile.start, SavedWorld.start]

end RollWorld.Represents

/-- No check fails in any run: each entry is applied once, newest first, and no node is lost. -/
theorem rollbackLogs_exact (sizes : RollbackSizes Item) (smallestNeverUsed capacity : Nat)
    {events : List (RollEvent Item)} {saved : SavedWorld Item}
    {applied : List (List (ApplyFunc × SavedEntry Item))}
    (allowed : SavedWorld.start.run events = some (saved, applied)) :
    ∃ world owned,
      (RollWorld.start smallestNeverUsed capacity).run sizes events =
        some (world, applied.map (·.map withoutPlace)) ∧
      Accounted world owned ∧
      ExactlyOnce saved (applied.flatten.map Prod.snd) (savedEntries 0 events) ∧
      (SavedWorld.start.InnermostOnly events → ∀ now ∈ applied, NewestFirst now) := by
  -- The specification never applies an entry twice, and the code follows it.
  have noLoops : (SavedWorld.start : SavedWorld Item).NoLoops := by
    intro txnid txn live
    simp [SavedWorld.start] at live
  obtain ⟨world, owned, ran, represents⟩ :=
    (RollWorld.Represents.start smallestNeverUsed capacity).run sizes noLoops allowed
  refine ⟨world, owned, ran, represents.accounted, ?_, ?_⟩
  · have once := ExactlyOnce.start.run noLoops allowed
    rw [List.nil_append, List.nil_append] at once
    exact once
  · exact fun innermost => Chronological.start.run innermost allowed

/-- A root with a spilled child whose log is included, and an aborted child of its own. -/
def nestedEvents : List (RollEvent Nat) :=
  let root := { parentId64 := 7, childId64 := 0 }
  let child := { parentId64 := 7, childId64 := 8 }
  [.begin root none, .save root 1, .begin child (some root), .save child 2, .save child 3,
    .commit child, .begin child (some root), .save child 4, .abort child, .save root 5,
    .commit root]

/-- Every entry is bigger than a node, so each save spills its node. -/
def tinyBlocks : RollbackSizes Nat where
  itemSize := fun _ => 10
  writeBlockSize := 8

/-- The spilled entries of the committed child are applied between those of its parent. -/
theorem rollbackLogs_exact_nested : ∃ world owned,
    (RollWorld.start 4 2).run tinyBlocks nestedEvents =
      some (world, [[], [], [], [], [], [], [], [], [(.abort, 4)], [],
        [(.commit, 5), (.commit, 3), (.commit, 2), (.commit, 1)]]) ∧
    Accounted world owned := by
  have allowed : SavedWorld.start.run nestedEvents = some (_, _) := rfl
  obtain ⟨world, owned, ran, accounted, -, -⟩ := rollbackLogs_exact tinyBlocks 4 2 allowed
  exact ⟨world, owned, ran, accounted⟩

/-- A parent that saves an entry while its child is live, as the hot indexer does. -/
def parentSavesEvents : List (RollEvent Nat) :=
  let root := { parentId64 := 7, childId64 := 0 }
  let child := { parentId64 := 7, childId64 := 8 }
  [.begin root none, .begin child (some root), .save child 1, .save root 2, .commit child,
    .abort root]

/-- Such a parent's entry is applied after the child's, although it was saved after it. -/
theorem parent_saves_applied_late :
    (savedEntries 0 parentSavesEvents).reverse.map SavedEntry.item = [2, 1] ∧
    ((RollWorld.start 4 2).run tinyBlocks parentSavesEvents).map Prod.snd =
      some [[], [], [], [], [], [(.abort, 1), (.abort, 2)]] := by
  constructor
  · rfl
  · rfl

end Tokuft
