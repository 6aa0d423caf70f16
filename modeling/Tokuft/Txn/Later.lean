import Tokuft.Txn.WorldLaws

/-! How the lists of a world change over time, and what stays true of estimates and copies. -/

namespace Tokuft

/-- What one world knows of a world that comes later. -/
structure TxnWorld.Later (earlier later : TxnWorld) : Prop where
  counted : earlier.mgr.lastXid ≤ later.mgr.lastXid
  live : ∀ xid ∈ later.mgr.liveRootIds, xid ∈ earlier.mgr.liveRootIds ∨ earlier.mgr.lastXid < xid
  snapshots : ∀ xid ∈ later.mgr.snapshotXids,
    xid ∈ earlier.mgr.snapshotXids ∨ earlier.mgr.lastXid < xid
  finished : ∃ more, later.finished = more ++ earlier.finished ∧ ∀ txn ∈ more,
    (txn.xid ∈ earlier.mgr.liveRootIds ∨ earlier.mgr.lastXid < txn.xid) ∧
      earlier.mgr.lastXid ≤ txn.lastXid

variable {world earlier later last : TxnWorld} {mgr : TxnManager} {after : TxnWorld}

/-- Nothing has changed since now. -/
theorem TxnWorld.Later.refl (world : TxnWorld) : world.Later world where
  counted := Nat.le_refl _
  live _ member := Or.inl member
  snapshots _ member := Or.inl member
  finished := ⟨[], rfl, List.forall_mem_nil _⟩

/-- What comes after a later world is later as well. -/
theorem TxnWorld.Later.trans (first : earlier.Later later) (second : later.Later last) :
    earlier.Later last where
  counted := Nat.le_trans first.counted second.counted
  live xid member := by
    rcases second.live xid member with old | new
    · exact first.live xid old
    · exact Or.inr (Nat.lt_of_le_of_lt first.counted new)
  snapshots xid member := by
    rcases second.snapshots xid member with old | new
    · exact first.snapshots xid old
    · exact Or.inr (Nat.lt_of_le_of_lt first.counted new)
  finished := by
    obtain ⟨before, shape, known⟩ := first.finished
    obtain ⟨more, later, others⟩ := second.finished
    refine ⟨more ++ before, by rw [later, shape, List.append_assoc], fun txn member => ?_⟩
    rcases List.mem_append.mp member with new | old
    · -- A root that the second world held as live was live in the first, or is younger.
      obtain ⟨open_, late⟩ := others txn new
      refine ⟨?_, Nat.le_trans first.counted late⟩
      rcases open_ with live | young
      · exact first.live txn.xid live
      · exact Or.inr (Nat.lt_of_le_of_lt first.counted young)
    · exact known txn old

/-- A later world remembers the roots that have finished. -/
theorem TxnWorld.Later.remembers (step : earlier.Later later) {txn : FinishedTxn}
    (done : txn ∈ earlier.finished) : txn ∈ later.finished := by
  obtain ⟨more, shape, -⟩ := step.finished
  rw [shape]
  exact List.mem_append_right more done

/-- Taking a snapshot out changes the list of snapshots and the references, and nothing else. -/
theorem removeSnapshot_shape {after : TxnManager} {txn : TokuTxn}
    (removed : mgr.removeSnapshot txn = some after) :
    ∃ referencedXids, after = { mgr with
      snapshots := mgr.snapshots.erase txn.snapshot
      numSnapshots := mgr.numSnapshots - 1, referencedXids } := by
  -- Whatever becomes of the references, the rest of the manager is written the same way.
  have written (refs : Option (List ReferencedXidTuple))
      (removed : (refs.bind fun referencedXids => some { mgr with
        snapshots := mgr.snapshots.erase txn.snapshot
        numSnapshots := mgr.numSnapshots - 1, referencedXids }) = some after) :
      ∃ referencedXids, after = { mgr with
        snapshots := mgr.snapshots.erase txn.snapshot
        numSnapshots := mgr.numSnapshots - 1, referencedXids } := by
    obtain ⟨left, -, taken⟩ := of_bind removed
    exact ⟨left, (Option.some.inj taken).symm⟩
  unfold TxnManager.removeSnapshot at removed
  simp only [Option.bind_eq_bind, Option.pure_def] at removed
  split at removed
  · split at removed
    · exact written _ removed
    · exact written _ removed
  · exact written (some mgr.referencedXids) removed

/-- Leaving the live roots takes one place out of them and may give an identifier out. -/
theorem leaveLiveRoots_shape {after : TxnManager} {txn : TokuTxn}
    (left : mgr.leaveLiveRoots txn = some after) :
    ∃ index lastXid referencedXids, mgr.lastXid ≤ lastXid ∧ after = { mgr with
      liveRootTxns := mgr.liveRootTxns.eraseIdx index
      liveRootIds := mgr.liveRootIds.eraseIdx index
      lastXid, referencedXids } := by
  simp only [TxnManager.leaveLiveRoots, bind_inv] at left
  obtain ⟨-, -, left⟩ := left
  split at left
  · cases left
    exact ⟨_, _, _, Nat.le_refl _, rfl⟩
  · split at left
    · obtain ⟨refs, -, taken⟩ := of_bind left
      cases taken
      exact ⟨_, _, _, Nat.le_succ _, rfl⟩
    · cases left
      exact ⟨_, _, _, Nat.le_refl _, rfl⟩

/-- What completing a root transaction does to the manager, its snapshot first. -/
theorem completeRoot_shape {world : TxnWorld} (ok : world.Ok) {root : Nat}
    (taken : world.completeRoot root = some after) :
    ∃ txn, world.txns root = [txn] ∧ (txn.state = .committing ∨ txn.state = .aborting) ∧
      (∀ xid ∈ after.mgr.liveRootIds, xid ∈ world.mgr.liveRootIds) ∧
      (∀ xid ∈ after.mgr.snapshotXids, xid ∈ world.mgr.snapshotXids) ∧
      world.mgr.lastXid ≤ after.mgr.lastXid ∧
      after.mgr.lastCalculatedOldestReferencedXid =
        world.mgr.lastCalculatedOldestReferencedXid ∧
      after.txns = Function.update world.txns root [] ∧
      after.finished = if txn.declaredReadOnly then world.finished else
        { xid := root, readOnly := txnIsReadOnly txn, committed := txn.state == .committing,
          lastXid := world.mgr.lastXid } :: world.finished := by
  unfold TxnWorld.completeRoot at taken
  split at taken
  case h_2 => cases taken
  rename_i txn found
  have chained := ok.chains root
  rw [found] at chained
  have isRoot : txn.childId64 = txnidNone := chained.rootLast txn rfl
  simp only [finishTxn_eq _ isRoot, bind_inv, invariant_eq_some] at taken
  obtain ⟨-, ending, mgr, ⟨unread, removal, finish⟩, rfl⟩ := taken
  have withdrawn : ∃ snapshots numSnapshots referencedXids,
      (∀ snapshot ∈ snapshots, snapshot ∈ world.mgr.snapshots) ∧
      unread = { world.mgr with snapshots, numSnapshots, referencedXids } := by
    split at removal
    · obtain ⟨refs, rfl⟩ := removeSnapshot_shape removal
      exact ⟨_, _, _, fun _ member => List.mem_of_mem_erase member, rfl⟩
    · cases removal
      exact ⟨_, _, _, fun _ member => member, rfl⟩
  obtain ⟨snapshots, count, refs, fewer, rfl⟩ := withdrawn
  have named : ∀ xid ∈ snapshots.map Snapshot.snapshotTxnid64, xid ∈ world.mgr.snapshotXids :=
    List.map_subset _ fewer
  refine ⟨txn, found, ending, ?_⟩
  by_cases readOnly : txn.declaredReadOnly = true
  · rw [if_pos readOnly] at finish
    cases finish
    exact ⟨fun _ member => member, named, Nat.le_refl _, rfl, rfl, rfl⟩
  · rw [if_neg readOnly] at finish
    obtain ⟨index, lastXid, refs, later, rfl⟩ := leaveLiveRoots_shape finish
    exact ⟨fun _ member => List.mem_of_mem_eraseIdx member, named, later, rfl, rfl, rfl⟩

/-- A world in which only the open transactions of a root have changed. -/
theorem TxnWorld.Later.sameManager (txns : Nat → List TokuTxn) (lastChildXid : Nat → Nat) :
    world.Later { world with txns, lastChildXid } where
  counted := Nat.le_refl _
  live _ member := Or.inl member
  snapshots _ member := Or.inl member
  finished := ⟨[], rfl, List.forall_mem_nil _⟩

/-- A world whose manager has only gained a snapshot, or lost one. -/
theorem TxnWorld.Later.snapshotChanged {txns : Nat → List TokuTxn} {lastChildXid : Nat → Nat}
    (counted : world.mgr.lastXid ≤ mgr.lastXid) (live : mgr.liveRootIds = world.mgr.liveRootIds)
    (snapshots : ∀ xid ∈ mgr.snapshotXids, xid ∈ world.mgr.snapshotXids ∨ world.mgr.lastXid < xid) :
    world.Later { world with mgr, txns, lastChildXid } where
  counted := counted
  live _ member := Or.inl (live ▸ member)
  snapshots := snapshots
  finished := ⟨[], rfl, List.forall_mem_nil _⟩

/-- The snapshot that a root transaction starts with is younger than all before it. -/
theorem startTxn_snapshotXids (mgr : TxnManager) (txn : TokuTxn) (snapshotType : TxnSnapshotType)
    (readOnly : Bool) : ∀ xid ∈ (mgr.startTxn txn snapshotType readOnly).1.snapshotXids,
      xid ∈ mgr.snapshotXids ∨ mgr.lastXid < xid := by
  intro xid member
  have two : mgr.lastXid < mgr.lastXid + 1 + 1 := Nat.lt_succ_of_lt (Nat.lt_succ_self _)
  cases snapshotType <;> cases readOnly <;>
    simp [TxnManager.startTxn, TxnManager.registerTxn, TxnManager.startSnapshot,
      TxnManager.setOldestReferencedXid, TxnManager.createSnapshot, txnRecordsSnapshot,
      txnCopiesSnapshot, TxnManager.snapshotXids, TokuTxn.snapshot] at member ⊢ <;>
    grind

/-- Starting a root transaction leads to a later world. -/
theorem TxnWorld.Ok.beginRoot_later (ok : world.Ok) (snapshotType : TxnSnapshotType)
    (readOnly : Bool) : world.Later (world.beginRoot snapshotType readOnly) := by
  have started := startTxn_started ok.manager snapshotType readOnly
  have snapshots := startTxn_snapshotXids world.mgr (.create snapshotType readOnly) snapshotType
    readOnly
  unfold TxnWorld.beginRoot
  generalize world.mgr.startTxn (.create snapshotType readOnly) snapshotType readOnly = result
    at started snapshots ⊢
  obtain ⟨mgr, txn⟩ := result
  refine ⟨Nat.le_of_lt started.later, fun xid member => ?_, snapshots,
    [], rfl, List.forall_mem_nil _⟩
  -- The new root is the only one that was not live before.
  have same : xid ∈ (if readOnly then world.mgr.liveRootIds
      else world.mgr.liveRootIds ++ [world.mgr.lastXid + 1]) := started.liveRootIds ▸ member
  split at same
  · exact Or.inl same
  · rcases List.mem_append.mp same with old | new
    · exact Or.inl old
    · exact Or.inr (Nat.lt_of_lt_of_eq (Nat.lt_succ_self _) (List.mem_singleton.mp new).symm)

/-- Completing a root transaction leads to a later world. -/
theorem TxnWorld.Ok.completeRoot_later (ok : world.Ok) {root : Nat}
    (taken : world.completeRoot root = some after) : world.Later after := by
  obtain ⟨txn, found, -, live, snapshots, counted, -, -, finished⟩ := completeRoot_shape ok taken
  refine ⟨counted, fun xid member => Or.inl (live xid member),
    fun xid member => Or.inl (snapshots xid member), ?_⟩
  split at finished
  · exact ⟨[], finished, List.forall_mem_nil _⟩
  · -- The root that leaves was live until now.
    rename_i writes
    refine ⟨[_], finished, List.forall_mem_singleton.mpr ⟨Or.inl ?_, Nat.le_refl _⟩⟩
    rw [ok.live root, found]
    exact ⟨txn, List.mem_cons_self, by simpa using writes⟩

/-- Every step leads to a later world. -/
theorem TxnWorld.Ok.next_later (ok : world.Ok) {event : TxnEvent}
    (taken : world.next event = some after) : world.Later after := by
  cases event with
  | beginRoot snapshotType readOnly =>
    cases taken
    exact ok.beginRoot_later snapshotType readOnly
  | beginChild root =>
    obtain ⟨parent, outer, mgr, chain, -, -, -, create, rfl⟩ := TxnWorld.beginChild_inv taken
    rcases TxnManager.createForChild_cases create with
      ⟨-, rfl, -⟩ | ⟨-, -, rfl, -⟩ | ⟨-, -, rfl, -⟩
    · refine .snapshotChanged (Nat.le_succ _) rfl fun xid member => ?_
      rcases List.mem_map.mp member with ⟨snapshot, inside, rfl⟩
      rcases List.mem_append.mp inside with old | new
      · exact Or.inl (List.mem_map_of_mem old)
      · rw [List.mem_singleton.mp new]
        exact Or.inr (Nat.lt_succ_self _)
    · exact .sameManager _ _
    · exact .sameManager _ _
  | logBegin root =>
    obtain ⟨-, -, -, -, -, rfl⟩ := TxnWorld.logBegin_inv taken
    exact .sameManager _ _
  | noteCommit root | noteAbort root =>
    obtain ⟨-, -, -, rfl⟩ := TxnWorld.note_inv taken
    exact .sameManager _ _
  | completeChild root =>
    obtain ⟨child, parent, outer, mgr, chain, -, destroy, rfl⟩ := TxnWorld.completeChild_inv taken
    rcases TxnManager.destroyForChild_cases destroy with
      ⟨-, removal, -⟩ | ⟨-, -, rfl, -⟩ | ⟨-, -, rfl, -⟩
    · obtain ⟨refs, rfl⟩ := removeSnapshot_shape removal
      refine .snapshotChanged (Nat.le_refl _) rfl fun xid member => Or.inl ?_
      obtain ⟨snapshot, inside, rfl⟩ := List.mem_map.mp member
      exact List.mem_map_of_mem (List.mem_of_mem_erase inside)
    · exact .sameManager _ _
    · exact .sameManager _ _
  | completeRoot root => exact ok.completeRoot_later taken

end Tokuft
