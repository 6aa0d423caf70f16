import Tokuft.Rollback.ApplyExact

/-! Saving an entry and committing a child put their items in front of a transaction's log. -/

namespace Tokuft

variable {Item : Type}

/-- The current node of a transaction's log, with the nodes and items in it and behind it. -/
structure CurrentNode (nodes : Blocknum → Option (RollbackLogNode Item)) (txnid : TxnidPair)
    (info : RollInfo) (log : RollbackLogNode Item) (inner outer : List Blocknum)
    (newer rest : List Item) : Prop where
  here : info.currentRollback = some log.blocknum
  stored : nodes log.blocknum = some log
  owner : log.txnid = txnid
  counted : log.sequence + 1 = info.numRollbackNodes
  linked : log.previous = info.spilledRollbackTail
  content : Holds nodes (.entries log.entries) inner newer
  behind : Holds nodes (.chain txnid log.sequence info.spilledRollbackHead
    info.spilledRollbackTail) outer rest

variable {nodes : Blocknum → Option (RollbackLogNode Item)} {txnid : TxnidPair} {info : RollInfo}
  {log : RollbackLogNode Item} {inner outer : List Blocknum} {newer rest : List Item}

/-- A log with a current node is the log of its transaction. -/
theorem CurrentNode.holds (node : CurrentNode nodes txnid info log inner outer newer rest) :
    TxnHolds nodes txnid info (inner ++ log.blocknum :: outer) (newer ++ rest) :=
  .current node.here node.stored node.owner node.counted node.linked node.content node.behind

/-- Spilling, or not spilling, leaves what the log holds. -/
theorem CurrentNode.maybeSpill (sizes : RollbackSizes Item)
    (node : CurrentNode nodes txnid info log inner outer newer rest) :
    ∃ spilled, maybeSpillRollbacks sizes info log = some spilled ∧
      TxnHolds nodes txnid spilled (inner ++ log.blocknum :: outer) (newer ++ rest) := by
  unfold maybeSpillRollbacks
  split
  · -- The current node becomes the last of the chain, and the head when it is the first.
    have head : (if info.spilledRollbackTail.isSome then info.spilledRollbackHead
        else info.currentRollback) = some (info.spilledRollbackHead.getD log.blocknum) := by
      cases tail : info.spilledRollbackTail with
      | none =>
        have behind := node.behind
        rw [tail] at behind
        obtain ⟨-, first, -, -⟩ := behind.of_noTail
        simp [first, node.here]
      | some tail =>
        cases first : info.spilledRollbackHead with
        | none =>
          have behind := node.behind
          rw [first] at behind
          obtain ⟨-, alone, -, -⟩ := behind.of_noHead
          rw [alone] at tail
          cases tail
        | some head => simp
    refine ⟨{ info with
      spilledRollbackHead := some (info.spilledRollbackHead.getD log.blocknum)
      spilledRollbackTail := some log.blocknum
      currentRollback := none }, by simp [node.here, ← head], .spilled rfl ?_⟩
    have behind := node.behind
    rw [← node.linked] at behind
    have chain := Holds.chainNode node.stored node.owner node.content behind
    rw [node.counted] at chain
    exact chain
  · exact ⟨info, rfl, node.holds⟩

namespace RollbackFile

variable {file : RollbackFile Item} {owned : List Blocknum} {items : List Item}
  {extra : List Blocknum} {added : List Item} {child parent : TxnidPair}
  {parentInfo : RollInfo}

/-- New entries in the current node come in front of the items that were there. -/
theorem currentNode_write {fresh : List (RollEntry Item)} (bytes : Nat)
    (node : CurrentNode file.nodes txnid info log inner outer newer rest)
    (held : Owned file ((inner ++ log.blocknum :: outer) ++ extra))
    (entries : Holds file.nodes (.entries fresh) extra added) :
    CurrentNode
      (file.rollbackLogUnpin { log with
        entries := fresh ++ log.entries
        rollentryResidentBytecount := bytes }).nodes txnid info
      { log with entries := fresh ++ log.entries, rollentryResidentBytecount := bytes }
      (extra ++ inner) outer (added ++ newer) rest := by
  obtain ⟨once, -, apart⟩ := held.split
  obtain ⟨-, back, before⟩ := once.split
  have outside : log.blocknum ∉ outer := (List.nodup_cons.mp back.nodup).1
  -- Only the node that is written to reads differently.
  have same : ∀ there, there ≠ log.blocknum →
      (file.rollbackLogUnpin { log with
        entries := fresh ++ log.entries
        rollentryResidentBytecount := bytes }).nodes there = file.nodes there := by
    intro there different
    simp [rollbackLogUnpin, Function.update_of_ne different]
  refine ⟨node.here, by simp [rollbackLogUnpin], node.owner, node.counted, node.linked,
    (entries.append node.content).congr ?_, node.behind.congr ?_⟩
  · intro there member
    apply same
    rintro rfl
    rcases List.mem_append.mp member with member | member
    · exact apart _ member (by simp)
    · exact before _ List.mem_cons_self member
  · intro there member
    apply same
    rintro rfl
    exact outside member

/-- A node taken over by a transaction becomes its current node, with nothing in it. -/
theorem currentNode_fresh
    (chain : Holds file.nodes (.chain txnid info.numRollbackNodes info.spilledRollbackHead
      info.spilledRollbackTail) owned items)
    (stored : file.nodes log.blocknum = some log)
    (init : log = (rollbackInitializeForTxn log txnid info info.spilledRollbackTail).1) :
    CurrentNode file.nodes txnid
      { info with
        numRollbackNodes := info.numRollbackNodes + 1
        currentRollback := some log.blocknum } log [] owned [] items := by
  obtain ⟨owner, sequence, blocknum, previous, entries, bytes⟩ := log
  simp only [rollbackInitializeForTxn, RollbackLogNode.mk.injEq] at init
  obtain ⟨rfl, rfl, -, rfl, rfl, rfl⟩ := init
  exact ⟨rfl, stored, rfl, rfl, rfl, .noEntries, chain⟩

/-- A transaction always gets a node for a new entry, and its log holds what it held. -/
theorem getAndPinForNewEntry_holds (ok : FileOk file) (held : Owned file owned)
    (holds : TxnHolds file.nodes txnid info owned items) :
    ∃ log after info' inner outer newer rest,
      file.getAndPinForNewEntry txnid info = some (log, after, info') ∧
      Moves file after owned (inner ++ log.blocknum :: outer) ∧
      CurrentNode after.nodes txnid info' log inner outer newer rest ∧ items = newer ++ rest := by
  cases holds with
  | @current blocknum log inner outer newer rest here stored owner counted linked content behind =>
    have pinned := getAndPin_used ok (held.used (by simp)) stored
    obtain rfl := ok.named stored
    refine ⟨log, file, info, inner, outer, newer, rest, ?_, Moves.refl ok held,
      ⟨here, stored, owner, counted, linked, content, behind⟩, rfl⟩
    simp [getAndPinForNewEntry, here, pinned, ← counted, verify_sequence owner, owner]
  | spilled idle chain =>
    -- A new node is created behind the chain.
    have create : ∃ log after info', file.rollbackLogCreate txnid info info.spilledRollbackTail =
          some (log, after, info') ∧ log.txnid = txnid ∧
        Moves file after owned (log.blocknum :: owned) ∧
        CurrentNode after.nodes txnid info' log [] owned [] items := by
      obtain ⟨log, after, created, init, stored, moves⟩ :=
        rollbackLogCreate_moves ok txnid info info.spilledRollbackTail
      obtain ⟨framed, -, same⟩ := moves.within owned held
      have owner : log.txnid = txnid := by
        rw [init]
        rfl
      exact ⟨log, after, _, created, owner, framed,
        currentNode_fresh (chain.congr same) stored init⟩
    by_cases spilled : info.spilledRollbackTail.isSome
    · obtain ⟨log, after, info', created, owner, moves, node⟩ := create
      refine ⟨log, after, info', [], owned, [], items, ?_, moves, node, rfl⟩
      simp [getAndPinForNewEntry, idle, spilled, created, owner]
    · rcases getRollbackLogNode_moves ok with nothing | ⟨log, after, taken, moves⟩
      · obtain ⟨log, after, info', created, owner, moves, node⟩ := create
        refine ⟨log, after, info', [], owned, [], items, ?_, moves, node, rfl⟩
        simp [getAndPinForNewEntry, idle, spilled, nothing, created, owner]
      · -- The cache gives a node, which is made the first of the log.
        obtain ⟨framed, -, same⟩ := moves.within owned held
        have used : after.inUse
            (rollbackInitializeForTxn log txnid info info.spilledRollbackTail).1.blocknum = true :=
          moves.owned.used (by simp [rollbackInitializeForTxn])
        have writes := moves_unpin moves.ok used
        have member : log.blocknum ∈ [log.blocknum] ++ owned := by simp
        have inside := writes.inside framed.owned member
        have notOwned : log.blocknum ∉ owned := (List.nodup_cons.mp framed.nodup).1
        refine ⟨(rollbackInitializeForTxn log txnid info info.spilledRollbackTail).1, _, _, [],
          owned, [], items, ?_, framed.trans inside, currentNode_fresh (chain.congr ?_)
            (nodes_unpin _) rfl, rfl⟩
        · simp [getAndPinForNewEntry, idle, spilled, taken, rollbackInitializeForTxn]
        · intro there inOwned
          have different : there ≠ log.blocknum := fun same => notOwned (same ▸ inOwned)
          rw [← same _ inOwned]
          simp [rollbackLogUnpin, rollbackInitializeForTxn, Function.update_of_ne different]

section

variable (sizes : RollbackSizes Item)
include sizes

/-- New entries go to the front of a log that is then spilled or not. -/
theorem write_holds {fresh : List (RollEntry Item)} (bytes : Nat) (ok : FileOk file)
    (node : CurrentNode file.nodes txnid info log inner outer newer rest)
    (held : Owned file ((inner ++ log.blocknum :: outer) ++ extra))
    (entries : Holds file.nodes (.entries fresh) extra added) :
    ∃ after info', maybeSpillRollbacks sizes info
        { log with entries := fresh ++ log.entries, rollentryResidentBytecount := bytes } =
          some info' ∧
      file.rollbackLogUnpin
        { log with entries := fresh ++ log.entries, rollentryResidentBytecount := bytes } = after ∧
      Moves file after ((inner ++ log.blocknum :: outer) ++ extra)
        ((extra ++ inner) ++ log.blocknum :: outer) ∧
      TxnHolds after.nodes txnid info' ((extra ++ inner) ++ log.blocknum :: outer)
        ((added ++ newer) ++ rest) := by
  -- The log is found by its number, and nobody else has it.
  have member : log.blocknum ∈ (inner ++ log.blocknum :: outer) ++ extra := by simp
  have used : file.inUse ({ log with
      entries := fresh ++ log.entries
      rollentryResidentBytecount := bytes } : RollbackLogNode Item).blocknum = true :=
    held.used member
  have moves := (moves_unpin ok used).inside held member
  obtain ⟨info', spills, holds⟩ := (currentNode_write bytes node held entries).maybeSpill sizes
  refine ⟨_, info', spills, rfl, moves.perm (List.Perm.refl _) ?_, holds⟩
  rw [List.append_assoc extra]
  exact List.perm_append_comm

/-- A saved entry comes in front of the log, with the nodes of the log it may include. -/
theorem saveRollback_holds {entry : RollEntry Item} (ok : FileOk file)
    (held : Owned file (owned ++ extra)) (holds : TxnHolds file.nodes txnid info owned items)
    (entries : Holds file.nodes (.entries [entry]) extra added) :
    ∃ after info' owned', file.saveRollback sizes txnid info entry = some (after, info') ∧
      Moves file after (owned ++ extra) owned' ∧
      TxnHolds after.nodes txnid info' owned' (added ++ items) := by
  -- A node for the entry is pinned first.
  obtain ⟨log, pinned, info₁, inner, outer, newer, rest, got, moves, node, rfl⟩ :=
    getAndPinForNewEntry_holds ok held.split.1 holds
  obtain ⟨framed, -, same⟩ := moves.within extra held
  obtain ⟨after, info', spills, written, writes, holds'⟩ := write_holds sizes
    (log.rollentryResidentBytecount + entry.rollbackFsize sizes) moves.ok node framed.owned
    (entries.congr same)
  refine ⟨after, info', _, ?_, framed.trans writes, by simpa using holds'⟩
  simp only [List.singleton_append] at spills written
  simp [saveRollback, got, spills, written]

/-- The spilled chain of a child becomes one entry of its parent, unless it is empty. -/
theorem includeSpilled_holds {childInfo : RollInfo} {numNodes : Nat} (ok : FileOk file)
    (held : Owned file (owned ++ extra)) (holds : TxnHolds file.nodes parent parentInfo owned items)
    (chain : Holds file.nodes (.chain child numNodes childInfo.spilledRollbackHead
      childInfo.spilledRollbackTail) extra added)
    (counted : (if childInfo.currentRollback.isSome then childInfo.numRollbackNodes - 1
      else childInfo.numRollbackNodes) = numNodes) :
    ∃ after info' owned',
      file.includeSpilled sizes child childInfo parent parentInfo = some (after,
        { childInfo with spilledRollbackHead := none, spilledRollbackTail := none }, info') ∧
      Moves file after (owned ++ extra) owned' ∧
      TxnHolds after.nodes parent info' owned' (added ++ items) := by
  -- Without a tail there is no chain.
  cases tail : childInfo.spilledRollbackTail with
  | none =>
    rw [tail] at chain
    obtain ⟨-, head, rfl, rfl⟩ := chain.of_noTail
    refine ⟨file, parentInfo, owned, ?_, by simpa using Moves.refl ok held, holds⟩
    obtain ⟨num, head', tail', current⟩ := childInfo
    simp only at tail head
    simp [includeSpilled, tail, head]
  | some last =>
    rw [tail] at chain
    have entries := Holds.rollinclude chain .noEntries
    simp only [List.append_nil] at entries
    obtain ⟨after, info', owned', saved, moves, holds'⟩ :=
      saveRollback_holds sizes ok held holds entries
    refine ⟨after, info', owned', ?_, moves, holds'⟩
    simp [includeSpilled, tail, counted, saved]

/-- The entries of a child's current node become entries of its parent, and the node is let go. -/
theorem promoteCurrent_holds (childInfo : RollInfo) (ok : FileOk file)
    (held : Owned file (owned ++ (inner ++ [log.blocknum])))
    (holds : TxnHolds file.nodes parent parentInfo owned items)
    (here : childInfo.currentRollback = some log.blocknum)
    (stored : file.nodes log.blocknum = some log) (owner : log.txnid = child)
    (counted : log.sequence + 1 = childInfo.numRollbackNodes)
    (content : Holds file.nodes (.entries log.entries) inner newer) :
    ∃ after info' owned',
      file.promoteCurrent sizes child childInfo parent parentInfo =
        some (after, { childInfo with currentRollback := none }, info') ∧
      Moves file after (owned ++ (inner ++ [log.blocknum])) owned' ∧
      TxnHolds after.nodes parent info' owned' (newer ++ items) := by
  -- The parent's node is pinned first, which leaves the child's nodes as they were.
  obtain ⟨parentLog, pinned, info₁, parentInner, parentOuter, parentNewer, parentRest, got, moves,
    node, rfl⟩ := getAndPinForNewEntry_holds ok held.split.1 holds
  obtain ⟨framed, heldChild, same⟩ := moves.within _ held
  have storedStill : pinned.nodes log.blocknum = some log := by rw [same _ (by simp), stored]
  have usedStill : pinned.inUse log.blocknum = true := heldChild.used (by simp)
  have childPinned := getAndPin_used moves.ok usedStill storedStill
  -- Then the child's node is let go, which leaves everything that the parent needs.
  obtain ⟨released, releases, movesNode⟩ := moves_giveOrRemove moves.ok usedStill
  have order : ((parentInner ++ parentLog.blocknum :: parentOuter) ++
      (inner ++ [log.blocknum])).Perm
      ([log.blocknum] ++ ((parentInner ++ parentLog.blocknum :: parentOuter) ++ inner)) := by
    rw [← List.append_assoc]
    exact List.perm_append_comm
  obtain ⟨released', heldRest, sameRest⟩ := movesNode.within _ (framed.owned.perm order)
  have kept : ∀ there ∈ parentInner ++ parentLog.blocknum :: parentOuter,
      released.nodes there = pinned.nodes there :=
    fun there member => sameRest there (List.mem_append_left _ member)
  have node' : CurrentNode released.nodes parent info₁ parentLog parentInner parentOuter
      parentNewer parentRest :=
    ⟨node.here, by rw [kept _ (by simp), node.stored], node.owner, node.counted, node.linked,
      node.content.congr fun there member => kept there (by simp [member]),
      node.behind.congr fun there member => kept there (by simp [member])⟩
  have content' : Holds released.nodes (.entries log.entries) inner newer := by
    refine content.congr fun there member => ?_
    rw [sameRest there (List.mem_append_right _ member), same there (by simp [member])]
  obtain ⟨after, info', spills, written, writes, holds'⟩ := write_holds sizes
    (if log.entries.isEmpty then parentLog.rollentryResidentBytecount
      else parentLog.rollentryResidentBytecount + log.rollentryResidentBytecount)
    movesNode.ok node' heldRest content'
  refine ⟨after, info', _, ?_, framed.trans ((released'.perm order.symm (List.Perm.refl _)).trans
    writes), by simpa using holds'⟩
  simp only [promoteCurrent, here, got, childPinned, ← counted, verify_sequence owner, releases,
    bind_runs, spills, written]

/-- A committed child's items come in front of its parent's, and the child keeps no log. -/
theorem rollbackCommitChild_holds {childInfo : RollInfo} {childOwned : List Blocknum}
    {childItems : List Item} (ok : FileOk file) (held : Owned file (owned ++ childOwned))
    (holds : TxnHolds file.nodes parent parentInfo owned items)
    (childHolds : TxnHolds file.nodes child childInfo childOwned childItems) :
    ∃ after info parentInfo' owned',
      file.rollbackCommitChild sizes child childInfo parent parentInfo =
        some (after, info, parentInfo') ∧
      Moves file after (owned ++ childOwned) owned' ∧
      TxnHolds after.nodes parent parentInfo' owned' (childItems ++ items) ∧
      info.spilledRollbackHead = none ∧ info.spilledRollbackTail = none ∧
      info.currentRollback = none := by
  cases childHolds with
  | spilled idle chain =>
    obtain ⟨after, parentInfo', owned', included, moves, holds'⟩ :=
      includeSpilled_holds sizes ok held holds chain (by simp [idle])
    refine ⟨after, { childInfo with spilledRollbackHead := none, spilledRollbackTail := none },
      parentInfo', owned', ?_, moves, holds', rfl, rfl, idle⟩
    simp [rollbackCommitChild, included, promoteCurrent, idle]
  | @current blocknum log inner outer newer rest here stored owner counted linked content behind =>
    obtain rfl := ok.named stored
    -- The chain is included first, the current node is promoted after it.
    have order : (owned ++ (inner ++ log.blocknum :: outer)).Perm
        ((owned ++ outer) ++ (inner ++ [log.blocknum])) := by
      rw [List.append_assoc]
      refine List.Perm.append_left owned ?_
      have swapped : inner ++ log.blocknum :: outer = (inner ++ [log.blocknum]) ++ outer := by simp
      rw [swapped]
      exact List.perm_append_comm
    have heldInOrder := held.perm order
    obtain ⟨middle, info₁, owned₁, included, movesChain, holds₁⟩ :=
      includeSpilled_holds sizes ok heldInOrder.split.1 holds behind (by simp [here, ← counted])
    obtain ⟨framed, heldNode, same⟩ := movesChain.within _ heldInOrder
    obtain ⟨after, parentInfo', owned', promoted, movesNode, holds'⟩ :=
      promoteCurrent_holds sizes
        { childInfo with spilledRollbackHead := none, spilledRollbackTail := none }
        movesChain.ok framed.owned holds₁ here (by rw [same _ (by simp), stored]) owner counted
        (content.congr fun there member => same there (by simp [member]))
    refine ⟨after, { childInfo with
      spilledRollbackHead := none
      spilledRollbackTail := none
      currentRollback := none }, parentInfo', owned', ?_,
      (framed.trans movesNode).perm order.symm (List.Perm.refl _), by simpa using holds', rfl, rfl,
      rfl⟩
    simp [rollbackCommitChild, included, promoted]

end

end RollbackFile

end Tokuft
