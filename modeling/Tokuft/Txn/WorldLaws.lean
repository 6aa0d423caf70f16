import Tokuft.Txn.ManagerLaws

/-! The open transactions and the manager's lists agree after every run. -/

namespace Tokuft

/-- Whether an open transaction is in the list of recorded snapshots. -/
def TokuTxn.recorded (txn : TokuTxn) : Bool :=
  txnRecordsSnapshot txn.snapshotType (txn.childId64 != txnidNone)

/-- What holds of the open transactions of one root, the innermost child first. -/
structure ChainOk (root lastChildXid : Nat) (chain : List TokuTxn) : Prop where
  own : ∀ txn ∈ chain, txn.parentId64 = root
  distinct : (chain.map TokuTxn.childId64).Nodup
  childBound : ∀ txn ∈ chain, txn.childId64 ≤ lastChildXid
  rootLast : ∀ txn ∈ chain.getLast?, txn.childId64 = txnidNone
  sameKind : ∀ txn ∈ chain, ∀ other ∈ chain,
    txn.declaredReadOnly = other.declaredReadOnly ∧ txn.snapshotType = other.snapshotType
  listSorted : ∀ txn ∈ chain, ∀ liveList ∈ txn.liveRootTxnList, liveList.Pairwise (· < ·)
  /-- A transaction that only copies the list has no snapshot of its own. -/
  unstamped : ∀ txn ∈ chain, txn.snapshotType = .copies → txn.snapshotTxnid64 = txnidNone

variable {root lastChildXid : Nat} {txn parent : TokuTxn} {chain outer : List TokuTxn}

/-- A root without open transactions. -/
theorem ChainOk.nil : ChainOk root lastChildXid [] := by constructor <;> simp

/-- A root that has just started. -/
theorem ChainOk.single (own : txn.parentId64 = root) (isRoot : txn.childId64 = txnidNone)
    (sorted : ∀ liveList ∈ txn.liveRootTxnList, liveList.Pairwise (· < ·))
    (unstamped : txn.snapshotType = .copies → txn.snapshotTxnid64 = txnidNone) :
    ChainOk root txnidNone [txn] := by
  constructor <;> simp_all

/-- A step that changes neither identifiers nor kinds keeps the chain as it should be. -/
theorem ChainOk.map (ok : ChainOk root lastChildXid chain) {change : TokuTxn → TokuTxn}
    (named : ∀ txn, (change txn).parentId64 = txn.parentId64 ∧
      (change txn).childId64 = txn.childId64)
    (kind : ∀ txn, (change txn).declaredReadOnly = txn.declaredReadOnly ∧
      (change txn).snapshotType = txn.snapshotType)
    (stamped : ∀ txn, (change txn).snapshotTxnid64 = txn.snapshotTxnid64)
    (sorted : ∀ txn ∈ chain, ∀ liveList ∈ (change txn).liveRootTxnList,
      liveList.Pairwise (· < ·)) : ChainOk root lastChildXid (chain.map change) where
  own := by simpa [named] using ok.own
  distinct := by
    have same : TokuTxn.childId64 ∘ change = TokuTxn.childId64 := funext fun txn => (named txn).2
    simpa [same] using ok.distinct
  childBound := by simpa [named] using ok.childBound
  rootLast := by simpa [List.getLast?_map, named] using ok.rootLast
  sameKind := by simpa [kind] using ok.sameKind
  listSorted := by simpa using sorted
  unstamped := by simpa [kind, stamped] using ok.unstamped

/-- A new child goes on top under an identifier that its root has not given out before. -/
theorem ChainOk.child (ok : ChainOk root lastChildXid (parent :: outer)) {childXid : Nat}
    (fresh : lastChildXid < childXid) (own : txn.parentId64 = root)
    (named : txn.childId64 = childXid)
    (kind : txn.declaredReadOnly = parent.declaredReadOnly ∧
      txn.snapshotType = parent.snapshotType)
    (sorted : ∀ liveList ∈ txn.liveRootTxnList, liveList.Pairwise (· < ·))
    (unstamped : txn.snapshotType = .copies → txn.snapshotTxnid64 = txnidNone) :
    ChainOk root childXid (txn :: parent :: outer) where
  own := List.forall_mem_cons.mpr ⟨own, ok.own⟩
  distinct := by
    refine List.nodup_cons.mpr ⟨fun used => ?_, ok.distinct⟩
    obtain ⟨other, member, same⟩ := List.mem_map.mp used
    have bound := ok.childBound other member
    omega
  childBound := List.forall_mem_cons.mpr ⟨Nat.le_of_eq named, fun other member =>
    Nat.le_of_lt (Nat.lt_of_le_of_lt (ok.childBound other member) fresh)⟩
  rootLast := by simpa [List.getLast?_cons] using ok.rootLast
  sameKind := by
    -- The child is of its parent's kind, and so of everyone's.
    have alike : ∀ other ∈ parent :: outer, txn.declaredReadOnly = other.declaredReadOnly ∧
        txn.snapshotType = other.snapshotType := fun other member =>
      have same := ok.sameKind parent List.mem_cons_self other member
      ⟨kind.1.trans same.1, kind.2.trans same.2⟩
    refine List.forall_mem_cons.mpr ⟨List.forall_mem_cons.mpr ⟨⟨rfl, rfl⟩, alike⟩,
      fun one member => List.forall_mem_cons.mpr ⟨?_, ok.sameKind one member⟩⟩
    exact ⟨(alike one member).1.symm, (alike one member).2.symm⟩
  listSorted := List.forall_mem_cons.mpr ⟨sorted, ok.listSorted⟩
  unstamped := List.forall_mem_cons.mpr ⟨unstamped, ok.unstamped⟩

/-- Without its innermost child the chain is that of the parent. -/
theorem ChainOk.tail (ok : ChainOk root lastChildXid (txn :: parent :: outer)) :
    ChainOk root lastChildXid (parent :: outer) where
  own other member := ok.own other (List.mem_cons_of_mem _ member)
  distinct := (List.nodup_cons.mp ok.distinct).2
  childBound other member := ok.childBound other (List.mem_cons_of_mem _ member)
  rootLast := by simpa [List.getLast?_cons] using ok.rootLast
  sameKind one member other second :=
    ok.sameKind one (List.mem_cons_of_mem _ member) other (List.mem_cons_of_mem _ second)
  listSorted other member := ok.listSorted other (List.mem_cons_of_mem _ member)
  unstamped other member := ok.unstamped other (List.mem_cons_of_mem _ member)

/-- A transaction on top of others is no root. -/
theorem ChainOk.isChild (ok : ChainOk root lastChildXid (txn :: parent :: outer)) :
    txn.childId64 ≠ txnidNone := by
  intro none
  obtain ⟨last, found⟩ : ∃ last, (parent :: outer).getLast? = some last :=
    Option.isSome_iff_exists.mp (by simp)
  have isRoot := ok.rootLast last (by simpa [List.getLast?_cons] using found)
  refine (List.nodup_cons.mp ok.distinct).1 (List.mem_map.mpr ⟨last, ?_, isRoot.trans none.symm⟩)
  exact List.mem_of_getLast? found

/-- What holds in every world that a run leads to. -/
structure TxnWorld.Ok (world : TxnWorld) : Prop where
  manager : ManagerOk world.mgr world.finished
  chains : ∀ root, ChainOk root (world.lastChildXid root) (world.txns root)
  rootBound : ∀ root, world.txns root ≠ [] → 0 < root ∧ root ≤ world.mgr.lastXid
  closed : ∀ txn ∈ world.finished, world.txns txn.xid = []
  /-- The live roots are those with an open transaction that may write. -/
  live : ∀ root, root ∈ world.mgr.liveRootIds ↔
    ∃ txn ∈ world.txns root, txn.declaredReadOnly = false
  /-- The recorded snapshots are those of the open transactions that record one. -/
  recorded : ∀ snapshot, snapshot ∈ world.mgr.snapshots ↔
    ∃ txn ∈ world.txns snapshot.owner.1, txn.recorded = true ∧ txn.snapshot = snapshot

/-- Before anything happens there is nothing to disagree about. -/
theorem TxnWorld.Ok.init : TxnWorld.init.Ok where
  manager := ManagerOk.init
  chains _ := ChainOk.nil
  rootBound _ some := absurd rfl some
  closed _ _ := rfl
  live root := by simp [TxnWorld.init, TxnManager.init]
  recorded snapshot := by simp [TxnWorld.init, TxnManager.init]

variable {world : TxnWorld} {mgr : TxnManager} {finished : List FinishedTxn}

/-- A step on one root leaves the others alone, so only its own chain is to be looked at. -/
theorem TxnWorld.Ok.update (ok : world.Ok) {lastChildXid : Nat → Nat}
    (manager : ManagerOk mgr finished) (later : world.mgr.lastXid ≤ mgr.lastXid)
    (children : ∀ other, other ≠ root → lastChildXid other = world.lastChildXid other)
    (chained : ChainOk root (lastChildXid root) chain)
    (bound : chain ≠ [] → 0 < root ∧ root ≤ mgr.lastXid)
    (closed : ∀ txn ∈ finished, if txn.xid = root then chain = [] else txn ∈ world.finished)
    (live : ∀ other, other ∈ mgr.liveRootIds ↔
      if other = root then ∃ txn ∈ chain, txn.declaredReadOnly = false
      else other ∈ world.mgr.liveRootIds)
    (recorded : ∀ snapshot, snapshot ∈ mgr.snapshots ↔
      if snapshot.owner.1 = root then
        ∃ txn ∈ chain, txn.recorded = true ∧ txn.snapshot = snapshot
      else snapshot ∈ world.mgr.snapshots) :
    TxnWorld.Ok { mgr, finished, txns := Function.update world.txns root chain,
                  lastChildXid } where
  manager := manager
  chains other := by
    -- For every other root its chain is the one it had.
    by_cases here : other = root
    · subst here; simpa using chained
    · simpa [here, children other here] using ok.chains other
  rootBound other some := by
    by_cases here : other = root
    · subst here; exact bound (by simpa using some)
    · have old := ok.rootBound other (by simpa [here] using some)
      exact ⟨old.1, Nat.le_trans old.2 later⟩
  closed txn done := by
    have closed := closed txn done
    show Function.update world.txns root chain txn.xid = []
    by_cases here : txn.xid = root
    · rw [here, Function.update_self]
      rwa [if_pos here] at closed
    · rw [if_neg here] at closed
      rw [Function.update_of_ne here]
      exact ok.closed txn closed
  live other := by
    rw [live other]
    by_cases here : other = root
    · subst here; simp
    · simp [here, ok.live other]
  recorded snapshot := by
    rw [recorded snapshot]
    by_cases here : snapshot.owner.1 = root
    · simp [here]
    · simp [here, ok.recorded snapshot]

/-- A root with an open transaction is none of those that have finished. -/
theorem TxnWorld.Ok.stillOpen (ok : world.Ok) (opened : world.txns root ≠ []) :
    ∀ txn ∈ world.finished, if txn.xid = root then chain = [] else txn ∈ world.finished := by
  intro txn done
  have apart : txn.xid ≠ root := fun same => opened (same ▸ ok.closed txn done)
  rw [if_neg apart]
  exact done

/-- What starting a root transaction does to the manager, and what the transaction becomes. -/
structure Started (before : TxnManager) (finished : List FinishedTxn)
    (snapshotType : TxnSnapshotType) (readOnly : Bool) (after : TxnManager) (txn : TokuTxn) :
    Prop where
  manager : ManagerOk after finished
  later : before.lastXid < after.lastXid
  named : txn.parentId64 = before.lastXid + 1 ∧ txn.childId64 = txnidNone
  kind : txn.declaredReadOnly = readOnly ∧ txn.snapshotType = snapshotType
  listSorted : ∀ liveList ∈ txn.liveRootTxnList, liveList.Pairwise (· < ·)
  unstamped : txn.snapshotType = .copies → txn.snapshotTxnid64 = txnidNone
  liveRootIds : after.liveRootIds =
    if readOnly then before.liveRootIds else before.liveRootIds ++ [before.lastXid + 1]
  snapshots : after.snapshots =
    if txn.recorded then before.snapshots ++ [txn.snapshot] else before.snapshots

variable {after : TxnWorld}

/-- Registering a root transaction enters it among the live roots when it may write. -/
theorem registerTxn_started (ok : ManagerOk mgr finished) (txn : TokuTxn) (readOnly : Bool) :
    ManagerOk (mgr.registerTxn txn readOnly).1 finished ∧
      (mgr.registerTxn txn readOnly).1.lastXid = mgr.lastXid + 1 ∧
      (mgr.registerTxn txn readOnly).1.snapshots = mgr.snapshots ∧
      (mgr.registerTxn txn readOnly).1.liveRootIds =
        if readOnly then mgr.liveRootIds else mgr.liveRootIds ++ [mgr.lastXid + 1] := by
  cases readOnly with
  | true => exact ⟨(ok.counted (Nat.le_succ _)).published, rfl, rfl, rfl⟩
  | false => exact ⟨ok.registered.published, rfl, rfl, rfl⟩

/-- Starting a root transaction registers it and then gives it its snapshot. -/
theorem startTxn_started (ok : ManagerOk mgr finished) (snapshotType : TxnSnapshotType)
    (readOnly : Bool) :
    Started mgr finished snapshotType readOnly
      (mgr.startTxn (.create snapshotType readOnly) snapshotType readOnly).1
      (mgr.startTxn (.create snapshotType readOnly) snapshotType readOnly).2 := by
  obtain ⟨registered, lastXid, snapshots, ids⟩ :=
    registerTxn_started ok (.create snapshotType readOnly) readOnly
  unfold TxnManager.startTxn
  cases snapshotType with
  | none =>
    exact ⟨registered, Nat.lt_of_lt_of_eq (Nat.lt_succ_self _) lastXid.symm, ⟨rfl, rfl⟩,
      ⟨rfl, rfl⟩, (fun _ absent => nomatch absent), fun _ => rfl, ids, snapshots⟩
  | copies =>
    refine ⟨registered, Nat.lt_of_lt_of_eq (Nat.lt_succ_self _) lastXid.symm, ⟨rfl, rfl⟩,
      ⟨rfl, rfl⟩, ?_, fun _ => rfl, ids, snapshots⟩
    intro liveList copied
    cases copied
    exact registered.liveSorted
  | root | child =>
    -- The snapshot's identifier is the next one after the transaction's own.
    refine ⟨registered.snapshotCreated _, ?_, ⟨rfl, rfl⟩, ⟨rfl, rfl⟩, ?_,
      (fun other => nomatch other), ids, ?_⟩
    · exact Nat.lt_succ_of_lt (Nat.lt_of_lt_of_eq (Nat.lt_succ_self _) lastXid.symm)
    · intro liveList copied
      cases copied
      exact registered.liveSorted
    · exact congrArg (· ++ _) snapshots

/-- Starting a root transaction keeps the world in agreement. -/
theorem TxnWorld.Ok.beginRoot (ok : world.Ok) (snapshotType : TxnSnapshotType) (readOnly : Bool) :
    (world.beginRoot snapshotType readOnly).Ok := by
  have started := startTxn_started ok.manager snapshotType readOnly
  unfold TxnWorld.beginRoot
  generalize world.mgr.startTxn (.create snapshotType readOnly) snapshotType readOnly = result
    at started ⊢
  obtain ⟨mgr, txn⟩ := result
  have fresh : world.txns txn.parentId64 = [] := by
    by_contra some
    have bound := (ok.rootBound _ some).2
    rw [started.named.1] at bound
    omega
  have chained := ChainOk.single rfl started.named.2 started.listSorted started.unstamped
  refine ok.update started.manager (Nat.le_of_lt started.later)
    (fun other away => Function.update_of_ne away _ _) (by simpa using chained) (fun _ => ?_)
    (fun other done => ?_) (fun other => ?_) fun snapshot => ?_
  · have later := started.later
    rw [started.named.1]
    exact ⟨Nat.succ_pos _, later⟩
  · -- No root that has finished is as young as the new one.
    have bound := ok.manager.finishedBound other done
    rw [if_neg fun same => by rw [same, started.named.1] at bound; omega]
    exact done
  · -- Only a transaction that may write joins the live roots.
    have old : other = txn.parentId64 → other ∉ world.mgr.liveRootIds := by
      rintro rfl live
      have bound := (ok.manager.liveBound _ live).2
      rw [started.named.1] at bound
      omega
    have kind : txn.declaredReadOnly = readOnly := started.kind.1
    rw [started.liveRootIds, ← started.named.1]
    by_cases here : other = txn.parentId64
    · have gone := old here
      subst here
      cases readOnly <;> simp [gone, kind]
    · cases readOnly <;> simp [here]
  · have old : snapshot.owner.1 = txn.parentId64 → snapshot ∉ world.mgr.snapshots := by
      intro here member
      obtain ⟨other, inside, -⟩ := (ok.recorded snapshot).mp member
      rw [here, fresh] at inside
      cases inside
    rw [started.snapshots]
    simp only [List.exists_mem_cons_iff, List.not_mem_nil, false_and, exists_false, or_false]
    by_cases here : snapshot.owner.1 = txn.parentId64
    · cases txn.recorded <;> simp [here, old here, eq_comm]
    · have other : snapshot ≠ txn.snapshot := fun same => here (by rw [same]; rfl)
      cases txn.recorded <;> simp [here, other]

/-- A step on the transactions of one root that leaves the manager alone keeps the agreement. -/
theorem TxnWorld.Ok.mapped (ok : world.Ok) (change : TokuTxn → TokuTxn)
    (named : ∀ txn, (change txn).parentId64 = txn.parentId64 ∧
      (change txn).childId64 = txn.childId64)
    (kind : ∀ txn, (change txn).declaredReadOnly = txn.declaredReadOnly ∧
      (change txn).snapshotType = txn.snapshotType)
    (read : ∀ txn, (change txn).snapshotTxnid64 = txn.snapshotTxnid64 ∧
      (change txn).liveRootTxnList = txn.liveRootTxnList) (root : Nat) :
    TxnWorld.Ok { world with
      txns := Function.update world.txns root ((world.txns root).map change) } := by
  -- The change is made to each transaction of the chain, and what snapshots need of it stays.
  have chained := (ok.chains root).map named kind (fun txn => (read txn).1)
    fun txn member liveList copied =>
      (ok.chains root).listSorted txn member liveList ((read txn).2 ▸ copied)
  refine ok.update ok.manager (Nat.le_refl _) (fun _ _ => rfl) chained (fun some => ?_)
    (fun txn done => ?_) (fun other => ?_) fun snapshot => ?_
  · exact ok.rootBound root fun empty => some (by rw [empty]; rfl)
  · split
    · rename_i here
      rw [← here, ok.closed txn done]; rfl
    · exact done
  · split
    · rename_i here
      rw [here, ok.live root]
      simp [kind]
    · rfl
  · split
    · rename_i here
      rw [ok.recorded snapshot, here]
      simp [TokuTxn.recorded, TokuTxn.snapshot, named, kind, read]
    · rfl

/-- Logging the start of a root's transactions keeps the agreement. -/
theorem TxnWorld.Ok.logBegin (ok : world.Ok) (taken : world.logBegin root = some after) :
    after.Ok := by
  obtain ⟨txn, outer, found, -, -, rfl⟩ := TxnWorld.logBegin_inv taken
  rw [← found]
  exact ok.mapped (fun txn => { txn with beginWasLogged := true }) (fun _ => ⟨rfl, rfl⟩)
    (fun _ => ⟨rfl, rfl⟩) (fun _ => ⟨rfl, rfl⟩) root

/-- Noting the end of a root transaction keeps the agreement. -/
theorem TxnWorld.Ok.note (ok : world.Ok) {state : TokuTxnState}
    (taken : world.note root state = some after) : after.Ok := by
  obtain ⟨txn, found, -, rfl⟩ := TxnWorld.note_inv taken
  have mapped := ok.mapped (fun txn => { txn with state }) (fun _ => ⟨rfl, rfl⟩)
    (fun _ => ⟨rfl, rfl⟩) (fun _ => ⟨rfl, rfl⟩) root
  rwa [found] at mapped

/-- A manager from which the innermost transaction of a root has withdrawn its snapshot. -/
structure Withdrawn (world : TxnWorld) (root : Nat) (outer : List TokuTxn) (mgr : TxnManager) :
    Prop where
  manager : ManagerOk mgr world.finished
  liveRootIds : mgr.liveRootIds = world.mgr.liveRootIds
  lastXid : mgr.lastXid = world.mgr.lastXid
  snapshots : ∀ snapshot, snapshot ∈ mgr.snapshots ↔
    if snapshot.owner.1 = root then ∃ txn ∈ outer, txn.recorded = true ∧ txn.snapshot = snapshot
    else snapshot ∈ world.mgr.snapshots

/-- The innermost transaction of a root withdraws its own snapshot and no other. -/
theorem TxnWorld.Ok.withdrawn (ok : world.Ok) (found : world.txns root = txn :: outer)
    (removal : (if txn.recorded then world.mgr.removeSnapshot txn else some world.mgr) = some mgr) :
    Withdrawn world root outer mgr := by
  have chained := ok.chains root
  rw [found] at chained
  have own : txn.snapshot.owner.1 = root := chained.own txn List.mem_cons_self
  have known (snapshot : Snapshot) (here : snapshot.owner.1 = root) :
      snapshot ∈ world.mgr.snapshots ↔
        ∃ other ∈ txn :: outer, other.recorded = true ∧ other.snapshot = snapshot := by
    rw [ok.recorded snapshot, here, found]
  by_cases records : txn.recorded = true
  · rw [if_pos records] at removal
    have member : txn.snapshot ∈ world.mgr.snapshots :=
      (known _ own).mpr ⟨txn, List.mem_cons_self, records, rfl⟩
    rw [ok.manager.removeSnapshot_eq member] at removal
    cases removal
    have distinct : world.mgr.snapshots.Nodup :=
      ok.manager.snapshotsSorted.imp fun before same => absurd before (by rw [same]; omega)
    refine ⟨ok.manager.snapshotRemoved member, rfl, rfl, fun snapshot => ?_⟩
    rw [distinct.mem_erase_iff]
    split
    · rename_i here
      rw [known snapshot here]
      constructor
      · rintro ⟨away, other, inside, recorded, same⟩
        rcases List.mem_cons.mp inside with rfl | inside
        · exact absurd same.symm away
        · exact ⟨other, inside, recorded, same⟩
      · -- Another transaction of the root owns another snapshot.
        rintro ⟨other, inside, recorded, rfl⟩
        refine ⟨fun same => (List.nodup_cons.mp chained.distinct).1 ?_, other,
          List.mem_cons_of_mem _ inside, recorded, rfl⟩
        have alike : other.childId64 = txn.childId64 :=
          congrArg (fun snapshot : Snapshot => snapshot.owner.2) same
        exact List.mem_map.mpr ⟨other, inside, alike⟩
    · rename_i away
      exact ⟨fun both => both.2, fun inside => ⟨fun same => away (by rw [same]; exact own), inside⟩⟩
  · rw [if_neg records] at removal
    cases removal
    refine ⟨ok.manager, rfl, rfl, fun snapshot => ?_⟩
    split
    · rename_i here
      rw [known snapshot here]
      simp [records]
    · rfl

/-- Finishing a root transaction withdraws its snapshot before it leaves the live roots. -/
theorem finishTxn_eq (mgr : TxnManager) (isRoot : txn.childId64 = txnidNone) :
    mgr.finishTxn txn = (if txn.recorded then mgr.removeSnapshot txn else some mgr).bind
      fun mgr => if txn.declaredReadOnly then some mgr else mgr.leaveLiveRoots txn := by
  have records : txnRecordsSnapshot txn.snapshotType false = txn.recorded := by
    rw [TokuTxn.recorded, isRoot]; rfl
  unfold TxnManager.finishTxn
  rw [records]
  cases txn.recorded <;> rfl

/-- Completing a root transaction keeps the agreement. -/
theorem TxnWorld.Ok.completeRoot (ok : world.Ok) (taken : world.completeRoot root = some after) :
    after.Ok := by
  unfold TxnWorld.completeRoot at taken
  split at taken
  case h_2 => cases taken
  rename_i txn found
  have chained := ok.chains root
  rw [found] at chained
  have own : txn.parentId64 = root := chained.own txn List.mem_cons_self
  have isRoot : txn.childId64 = txnidNone := chained.rootLast txn rfl
  simp only [finishTxn_eq _ isRoot, bind_inv] at taken
  obtain ⟨-, -, mgr, ⟨unread, removal, finish⟩, rfl⟩ := taken
  have withdrawn := ok.withdrawn found removal
  by_cases readOnly : txn.declaredReadOnly = true
  · -- A transaction that was declared read-only was not among the live roots.
    rw [if_pos readOnly] at finish
    cases finish
    rw [if_pos readOnly]
    refine ok.update withdrawn.manager (Nat.le_of_eq withdrawn.lastXid.symm) (fun _ _ => rfl)
      ChainOk.nil (fun some => absurd rfl some) (ok.stillOpen (by simp [found]))
      (fun other => ?_) withdrawn.snapshots
    rw [withdrawn.liveRootIds]
    split
    · rename_i here
      rw [here, ok.live root, found]
      simp [readOnly]
    · rfl
  · rw [if_neg readOnly] at finish ⊢
    have live : txn.parentId64 ∈ unread.liveRootIds := by
      rw [withdrawn.liveRootIds, own, ok.live root, found]
      exact ⟨txn, List.mem_cons_self, by simpa using readOnly⟩
    obtain ⟨left, leaves, same, erased, later, leftOk⟩ :=
      withdrawn.manager.leaveLiveRoots_eq live (txn.state == .committing)
    rw [leaves] at finish
    cases finish
    rw [own, withdrawn.lastXid] at leftOk
    have opened : world.txns root ≠ [] := by simp [found]
    refine ok.update leftOk (withdrawn.lastXid ▸ later) (fun _ _ => rfl) ChainOk.nil
      (fun some => absurd rfl some) (List.forall_mem_cons.mpr ⟨by simp, ok.stillOpen opened⟩)
      (fun other => ?_) fun snapshot => same ▸ withdrawn.snapshots snapshot
    have distinct : world.mgr.liveRootIds.Nodup :=
      ok.manager.liveSorted.imp fun before => Nat.ne_of_lt before
    rw [erased, withdrawn.liveRootIds, own, distinct.mem_erase_iff]
    split
    · rename_i here
      simp [here]
    · rename_i away
      simp [away]

/-- A child transaction is among the recorded snapshots when its kind records one. -/
theorem ChainOk.records (ok : ChainOk root lastChildXid (txn :: parent :: outer)) :
    txnRecordsSnapshot txn.snapshotType true = txn.recorded := by
  rw [TokuTxn.recorded, bne_iff_ne.mpr ok.isChild]

/-- Transactions that copy their list without recording it are in no list of snapshots. -/
theorem copies_unrecorded (copies : ∀ txn ∈ chain, txn.snapshotType = .copies)
    (snapshot : Snapshot) : ¬∃ txn ∈ chain, txn.recorded = true ∧ txn.snapshot = snapshot := by
  rintro ⟨txn, member, recorded, -⟩
  rw [TokuTxn.recorded, copies txn member] at recorded
  cases recorded

/-- Completing a child transaction keeps the agreement. -/
theorem TxnWorld.Ok.completeChild (ok : world.Ok) (taken : world.completeChild root = some after) :
    after.Ok := by
  obtain ⟨child, parent, outer, mgr, chain, found, destroy, rfl⟩ :=
    TxnWorld.completeChild_inv taken
  have chained := ok.chains root
  rw [found] at chained
  have opened : world.txns root ≠ [] := by simp [found]
  have bound := ok.rootBound root opened
  have live (other : Nat) : other ∈ world.mgr.liveRootIds ↔ if other = root then
      ∃ txn ∈ parent :: outer, txn.declaredReadOnly = false
      else other ∈ world.mgr.liveRootIds := by
    split
    · rename_i here
      -- The child may write exactly when its parent may.
      have alike := (chained.sameKind child List.mem_cons_self parent (by simp)).1
      rw [here, ok.live root, found, List.exists_mem_cons_iff, alike, or_iff_right_of_imp]
      exact fun writes => ⟨parent, List.mem_cons_self, writes⟩
    · rfl
  have cases := TxnManager.destroyForChild_cases destroy
  rw [chained.records] at cases
  rcases cases with
    ⟨recorded, removal, rfl⟩ | ⟨unrecorded, copies, rfl, rfl⟩ | ⟨unrecorded, -, rfl, rfl⟩
  · have withdrawn := ok.withdrawn found ((if_pos recorded).trans removal)
    exact ok.update withdrawn.manager (Nat.le_of_eq withdrawn.lastXid.symm) (fun _ _ => rfl)
      chained.tail (fun _ => withdrawn.lastXid ▸ bound) (ok.stillOpen opened)
      (fun other => withdrawn.liveRootIds ▸ live other) withdrawn.snapshots
  · -- The ancestors lose the list that they shared with the child, and record none.
    have withdrawn := ok.withdrawn found (if_neg unrecorded)
    have kind : child.snapshotType = .copies := by
      simpa [txnCopiesSnapshot, chained.records, unrecorded] using copies
    have all : ∀ txn ∈ parent :: outer, txn.snapshotType = .copies := fun txn member =>
      (chained.sameKind child List.mem_cons_self txn (List.mem_cons_of_mem _ member)).2.symm.trans
        kind
    refine ok.update withdrawn.manager (Nat.le_of_eq withdrawn.lastXid.symm) (fun _ _ => rfl)
      (chained.tail.map (fun _ => ⟨rfl, rfl⟩) (fun _ => ⟨rfl, rfl⟩) (fun _ => rfl)
        fun _ _ _ absent => nomatch absent)
      (fun _ => bound) (ok.stillOpen opened) (fun other => ?_) fun snapshot => ?_
    · simpa using live other
    · rw [withdrawn.snapshots snapshot]
      split
      · exact iff_of_false (copies_unrecorded all snapshot)
          (copies_unrecorded (by simpa using all) snapshot)
      · rfl
  · have withdrawn := ok.withdrawn found (if_neg unrecorded)
    exact ok.update withdrawn.manager (Nat.le_of_eq withdrawn.lastXid.symm) (fun _ _ => rfl)
      chained.tail (fun _ => bound) (ok.stillOpen opened) live withdrawn.snapshots

/-- The child manager's next identifier is one that it has not given out. -/
theorem startChildTxn_above (root lastChildXid : Nat) :
    lastChildXid < startChildTxn root lastChildXid := by
  unfold startChildTxn
  split <;> omega

/-- A child that may write exactly when its parent may leaves the live roots as they are. -/
theorem TxnWorld.Ok.live_child (ok : world.Ok) (found : world.txns root = parent :: outer)
    (kind : txn.declaredReadOnly = parent.declaredReadOnly) (other : Nat) :
    other ∈ world.mgr.liveRootIds ↔ if other = root then
      ∃ writer ∈ txn :: parent :: outer, writer.declaredReadOnly = false
      else other ∈ world.mgr.liveRootIds := by
  split
  · rename_i here
    rw [here, ok.live root, found, List.exists_mem_cons_iff _ txn _, kind, or_iff_right_of_imp]
    exact fun writes => ⟨parent, List.mem_cons_self, writes⟩
  · rfl

/-- A new snapshot is the last one of the list, and belongs to the transaction that gets it. -/
theorem mem_createSnapshot (mgr : TxnManager) (txn : TokuTxn) (snapshot : Snapshot) :
    snapshot ∈ (mgr.createSnapshot txn).1.snapshots ↔
      snapshot ∈ mgr.snapshots ∨ (mgr.createSnapshot txn).2.snapshot = snapshot := by
  rw [TxnManager.createSnapshot, List.mem_append, List.mem_singleton, eq_comm (a := snapshot)]

/-- Starting a child transaction keeps the agreement. -/
theorem TxnWorld.Ok.beginChild (ok : world.Ok) (taken : world.beginChild root = some after) :
    after.Ok := by
  obtain ⟨parent, outer, mgr, chain, found, -, -, create, rfl⟩ := TxnWorld.beginChild_inv taken
  have chained := ok.chains root
  rw [found] at chained
  have opened : world.txns root ≠ [] := by simp [found]
  have bound := ok.rootBound root opened
  have own : parent.parentId64 = root := chained.own parent List.mem_cons_self
  have others (other : Nat) (away : other ≠ root) := Function.update_of_ne away
    (startChildTxn root (world.lastChildXid root)) world.lastChildXid
  have known (snapshot : Snapshot) (here : snapshot.owner.1 = root) :
      snapshot ∈ world.mgr.snapshots ↔
        ∃ other ∈ parent :: outer, other.recorded = true ∧ other.snapshot = snapshot := by
    rw [ok.recorded snapshot, here, found]
  have above := startChildTxn_above root (world.lastChildXid root)
  generalize startChildTxn root (world.lastChildXid root) = childXid at create others above ⊢
  have isChild (child : TokuTxn) (named : child.childId64 = childXid) :
      child.recorded = txnRecordsSnapshot child.snapshotType true := by
    rw [TokuTxn.recorded, named, bne_iff_ne.mpr (Nat.ne_of_gt (Nat.zero_lt_of_lt above))]
  have inherited : ChainOk root childXid
      (inheritSnapshotFromParent (parent.createChild childXid) parent :: parent :: outer) :=
    chained.child above own rfl ⟨rfl, rfl⟩ (chained.listSorted parent List.mem_cons_self)
      (chained.unstamped parent List.mem_cons_self)
  rcases TxnManager.createForChild_cases create with
    ⟨records, rfl, rfl⟩ | ⟨unrecorded, copies, rfl, rfl⟩ | ⟨unrecorded, -, rfl, rfl⟩
  · -- The child's own snapshot goes to the tail of the list.
    refine ok.update (ok.manager.snapshotCreated _) (Nat.le_succ _) others ?_
      (fun _ => ⟨bound.1, Nat.le_succ_of_le bound.2⟩) (ok.stillOpen opened)
      (ok.live_child found rfl) fun snapshot => ?_
    · rw [Function.update_self]
      refine chained.child above own rfl ⟨rfl, rfl⟩ (fun liveList copied => ?_) fun copies => ?_
      · cases copied
        exact ok.manager.liveSorted
      · rw [show (parent.createChild childXid).snapshotType = .copies from copies] at records
        cases records
    · rw [mem_createSnapshot, List.exists_mem_cons_iff]
      split
      · rename_i here
        rw [known snapshot here, or_comm, isChild _ rfl]
        exact or_congr ⟨fun same => ⟨records, same⟩, fun both => both.2⟩ Iff.rfl
      · rename_i away
        exact or_iff_left fun same => away (by rw [← same]; exact own)
  · -- The list that the child shares with its ancestors is copied anew.
    have kind : parent.snapshotType = .copies := by
      have bare : ¬txnRecordsSnapshot parent.snapshotType true = true := unrecorded
      simpa [txnCopiesSnapshot, bare, TokuTxn.createChild, TokuTxn.create] using copies
    have all : ∀ txn ∈ parent :: outer, txn.snapshotType = .copies := fun txn member =>
      (chained.sameKind parent List.mem_cons_self txn member).2.symm.trans kind
    refine ok.update ok.manager (Nat.le_refl _) others ?_ (fun _ => bound)
      (ok.stillOpen opened) (fun other => ?_) fun snapshot => ?_
    · rw [Function.update_self]
      refine inherited.map (fun _ => ⟨rfl, rfl⟩) (fun _ => ⟨rfl, rfl⟩) (fun _ => rfl)
        fun _ _ liveList copied => ?_
      cases copied
      exact ok.manager.liveSorted
    · have alike : (inheritSnapshotFromParent
        (parent.createChild childXid) parent).declaredReadOnly =
          parent.declaredReadOnly := rfl
      simpa using ok.live_child found alike other
    · split
      · rename_i here
        refine iff_of_false ?_ (copies_unrecorded ?_ snapshot)
        · rw [known snapshot here]
          exact copies_unrecorded all snapshot
        · simpa [inheritSnapshotFromParent, TokuTxn.createChild, TokuTxn.create, kind] using all
      · rfl
  · refine ok.update ok.manager (Nat.le_refl _) others (by rwa [Function.update_self])
      (fun _ => bound) (ok.stillOpen opened) (ok.live_child found rfl) fun snapshot => ?_
    split
    · rename_i here
      have bare := isChild (inheritSnapshotFromParent (parent.createChild childXid) parent) rfl
      rw [known snapshot here, List.exists_mem_cons_iff _ (inheritSnapshotFromParent _ _) _, bare]
      exact (or_iff_right fun both => unrecorded both.1).symm
    · rfl

/-- Every step keeps the agreement. -/
theorem TxnWorld.Ok.step (ok : world.Ok) {event : TxnEvent}
    (taken : world.next event = some after) : after.Ok := by
  -- One case for each event.
  cases event with
  | beginRoot snapshotType readOnly =>
    cases taken
    exact ok.beginRoot snapshotType readOnly
  | beginChild root => exact ok.beginChild taken
  | logBegin root => exact ok.logBegin taken
  | noteCommit root => exact ok.note taken
  | noteAbort root => exact ok.note taken
  | completeChild root => exact ok.completeChild taken
  | completeRoot root => exact ok.completeRoot taken

/-- The transactions and the manager agree after every run. -/
theorem TxnWorld.Reaches.ok {events : List TxnEvent} (run : TxnWorld.Reaches events world) :
    world.Ok :=
  run.invariant TxnWorld.Ok.init fun ok taken => ok.step taken

end Tokuft
