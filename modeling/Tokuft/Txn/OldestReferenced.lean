import Tokuft.Txn.SnapshotReads

/-! A published bound lies below every root that a reader may still fail to see, and never falls. -/

namespace Tokuft

/-- What a bound promises: writers below it have finished, and every snapshot sees them. -/
structure TxnManager.Estimates (mgr : TxnManager) (finished : List FinishedTxn)
    (estimate : Nat) : Prop where
  counted : estimate ≤ mgr.lastXid
  live : ∀ xid ∈ mgr.liveRootIds, estimate ≤ xid
  seen : ∀ txn ∈ finished, txn.readOnly = false → txn.xid < estimate →
    ∀ snapshotXid ∈ mgr.snapshotXids, txn.lastXid < snapshotXid

/-- A bound of a world's manager, given the roots that have finished. -/
def TxnWorld.Estimates (world : TxnWorld) (estimate : Nat) : Prop :=
  world.mgr.Estimates world.finished estimate

/-- The lower of two identifiers is not above the first. -/
theorem lowerXid_le (xid : Nat) (other : Option Nat) : lowerXid xid other ≤ xid := by
  cases other with
  | none => exact Nat.le_refl xid
  | some other => exact Nat.min_le_left xid other

/-- The lower of two identifiers is not above the other, if there is one. -/
theorem lowerXid_le_other (xid : Nat) {other : Option Nat} :
    ∀ bound ∈ other, lowerXid xid other ≤ bound := by
  rintro bound ⟨⟩
  exact Nat.min_le_right xid bound

variable {mgr : TxnManager} {finished : List FinishedTxn}

/-- The first of an ordered list is not above any of it. -/
theorem le_of_head?_le {items : List Nat} (sorted : items.Pairwise (· < ·)) {bound : Nat}
    (low : ∀ first ∈ items.head?, bound ≤ first) : ∀ item ∈ items, bound ≤ item := by
  -- The rest of the list is above its first item.
  cases items with
  | nil => exact List.forall_mem_nil _
  | cons first rest =>
    have least : bound ≤ first := low first rfl
    refine List.forall_mem_cons.mpr ⟨least, fun item member => ?_⟩
    exact Nat.le_of_lt (Nat.lt_of_le_of_lt least ((List.pairwise_cons.mp sorted).1 item member))

/-- The bound that a manager publishes keeps its promise. -/
theorem ManagerOk.estimates (ok : ManagerOk mgr finished) :
    mgr.setOldestReferencedXid.Estimates finished
      mgr.setOldestReferencedXid.lastCalculatedOldestReferencedXid := by
  -- The search goes on from the last identifier to the three lists, one after the other.
  have liveFirst := lowerXid_le mgr.lastXid mgr.liveRootIds.head?
  have live := @lowerXid_le_other mgr.lastXid mgr.liveRootIds.head?
  have calculated : mgr.setOldestReferencedXid.lastCalculatedOldestReferencedXid =
      lowerXid (lowerXid (lowerXid mgr.lastXid mgr.liveRootIds.head?)
        (mgr.referencedXids.head?.map ReferencedXidTuple.beginId))
        (mgr.snapshots.head?.map Snapshot.snapshotTxnid64) := rfl
  generalize lowerXid mgr.lastXid mgr.liveRootIds.head? = first at liveFirst live calculated
  have referencedFirst := lowerXid_le first
    (mgr.referencedXids.head?.map ReferencedXidTuple.beginId)
  have referenced := @lowerXid_le_other first
    (mgr.referencedXids.head?.map ReferencedXidTuple.beginId)
  generalize lowerXid first (mgr.referencedXids.head?.map ReferencedXidTuple.beginId) = second
    at referencedFirst referenced calculated
  have snapshotFirst := lowerXid_le second (mgr.snapshots.head?.map Snapshot.snapshotTxnid64)
  have snapshots := @lowerXid_le_other second (mgr.snapshots.head?.map Snapshot.snapshotTxnid64)
  rw [calculated]
  generalize lowerXid second (mgr.snapshots.head?.map Snapshot.snapshotTxnid64) = estimate
    at snapshotFirst snapshots
  constructor
  · exact Nat.le_trans snapshotFirst (Nat.le_trans referencedFirst liveFirst)
  · refine le_of_head?_le ok.liveSorted fun oldest head => ?_
    exact Nat.le_trans snapshotFirst (Nat.le_trans referencedFirst (live oldest head))
  · intro txn done wrote below snapshotXid member
    obtain ⟨snapshot, inside, rfl⟩ := List.mem_map.mp member
    -- A writer below all tuples has none, so no snapshot holds it.
    have ordered : (mgr.referencedXids.map ReferencedXidTuple.beginId).Pairwise (· < ·) :=
      List.pairwise_map.mpr ok.referencedSorted
    have above := @le_of_head?_le _ ordered second (by rw [List.head?_map]; exact referenced)
    have unheld : txn.xid ∉ snapshot.liveRootTxnList := by
      intro held
      have counted : 0 < holders mgr.snapshots txn.xid :=
        List.countP_pos_iff.mpr ⟨snapshot, inside, List.contains_iff_mem.mpr held⟩
      have tuple := (ok.referenced _).mpr ⟨txn, done, wrote, counted, rfl⟩
      have least : second ≤ txn.xid := above _ (List.mem_map_of_mem tuple)
      omega
    rw [ok.holds_finished done inside, FinishedTxn.heldBy] at unheld
    -- And the snapshot is not older than the bound.
    have sorted : (mgr.snapshots.map Snapshot.snapshotTxnid64).Pairwise (· < ·) :=
      List.pairwise_map.mpr ok.snapshotsSorted
    have younger := @le_of_head?_le _ sorted estimate
      (by rw [List.head?_map]; exact snapshots) _ (List.mem_map_of_mem inside)
    omega

/-- A bound keeps its promise in every later world. -/
theorem TxnWorld.Estimates.later {earlier later : TxnWorld} {estimate : Nat}
    (estimates : earlier.Estimates estimate) (ok : earlier.Ok) (step : earlier.Later later) :
    later.Estimates estimate where
  counted := Nat.le_trans estimates.counted step.counted
  live xid member := by
    rcases step.live xid member with old | new
    · exact estimates.live xid old
    · exact Nat.le_of_lt (Nat.lt_of_le_of_lt estimates.counted new)
  seen txn done wrote below snapshotXid member := by
    obtain ⟨more, shape, others⟩ := step.finished
    rw [shape] at done
    rcases List.mem_append.mp done with new | old
    · -- A root that finished since was live then, or is younger, so it is not below the bound.
      rcases (others txn new).1 with live | young
      · exact absurd below (Nat.not_lt.mpr (estimates.live txn.xid live))
      · have counted := estimates.counted
        omega
    · rcases step.snapshots snapshotXid member with recorded | young
      · exact estimates.seen txn old wrote below snapshotXid recorded
      · exact Nat.lt_of_le_of_lt (ok.manager.finishedBound txn old).2.2.1 young

/-- A bound keeps its promise when one more snapshot is created. -/
theorem TxnManager.Estimates.snapshotCreated {estimate : Nat} (ok : ManagerOk mgr finished)
    (estimates : mgr.Estimates finished estimate) (txn : TokuTxn) :
    (mgr.createSnapshot txn).1.Estimates finished estimate where
  counted := Nat.le_succ_of_le estimates.counted
  live := estimates.live
  seen other done wrote below snapshotXid member := by
    obtain ⟨snapshot, inside, rfl⟩ := List.mem_map.mp member
    rcases List.mem_append.mp inside with old | new
    · exact estimates.seen other done wrote below _ (List.mem_map_of_mem old)
    · rw [List.mem_singleton.mp new]
      exact Nat.lt_succ_of_le (ok.finishedBound other done).2.2.1

/-- The bound that is published when a root transaction starts keeps its promise. -/
theorem startTxn_estimates (ok : ManagerOk mgr finished) (txn : TokuTxn)
    (snapshotType : TxnSnapshotType) (readOnly : Bool) :
    (mgr.startTxn txn snapshotType readOnly).1.Estimates finished
      (mgr.startTxn txn snapshotType readOnly).1.lastCalculatedOldestReferencedXid := by
  -- Registration keeps the promise, and the new bound is the least that is referenced.
  obtain ⟨registered, -⟩ := registerTxn_started ok txn readOnly
  have published : (mgr.registerTxn txn readOnly).1.Estimates finished
      (mgr.registerTxn txn readOnly).1.lastCalculatedOldestReferencedXid := by
    cases readOnly with
    | true => exact (ok.counted (Nat.le_succ _)).estimates
    | false => exact ok.registered.estimates
  unfold TxnManager.startTxn
  cases snapshotType with
  | none => exact published
  | copies => exact published
  | root => exact published.snapshotCreated registered _
  | child => exact published.snapshotCreated registered _

section

variable {world after : TxnWorld} (ok : world.Ok) {event : TxnEvent}
  (taken : world.next event = some after)
include ok taken

/-- Only the start of a root transaction publishes a bound. -/
theorem TxnWorld.Ok.next_calculated
    (other : ∀ snapshotType readOnly, event ≠ .beginRoot snapshotType readOnly) :
    after.mgr.lastCalculatedOldestReferencedXid =
      world.mgr.lastCalculatedOldestReferencedXid := by
  -- One case for each event: all but one leave the bound alone.
  cases event with
  | beginRoot snapshotType readOnly => exact absurd rfl (other snapshotType readOnly)
  | beginChild root =>
    obtain ⟨parent, outer, mgr, chain, -, -, -, create, rfl⟩ := TxnWorld.beginChild_inv taken
    rcases TxnManager.createForChild_cases create with
      ⟨-, rfl, -⟩ | ⟨-, -, rfl, -⟩ | ⟨-, -, rfl, -⟩ <;> rfl
  | logBegin root =>
    obtain ⟨-, -, -, -, -, rfl⟩ := TxnWorld.logBegin_inv taken
    rfl
  | noteCommit root | noteAbort root =>
    obtain ⟨-, -, -, rfl⟩ := TxnWorld.note_inv taken
    rfl
  | completeChild root =>
    obtain ⟨child, parent, outer, mgr, chain, -, destroy, rfl⟩ := TxnWorld.completeChild_inv taken
    rcases TxnManager.destroyForChild_cases destroy with
      ⟨-, removal, -⟩ | ⟨-, -, rfl, -⟩ | ⟨-, -, rfl, -⟩
    · obtain ⟨refs, rfl⟩ := removeSnapshot_shape removal
      rfl
    · rfl
    · rfl
  | completeRoot root =>
    obtain ⟨-, -, -, -, -, -, calculated, -⟩ := completeRoot_shape ok taken
    exact calculated

/-- Every bound that has been published keeps its promise after one more step. -/
theorem TxnWorld.Ok.next_estimates {published : List Nat}
    (calculated : world.mgr.lastCalculatedOldestReferencedXid ∈ published)
    (estimates : ∀ estimate ∈ published, world.Estimates estimate) :
    ∀ estimate ∈ after.mgr.lastCalculatedOldestReferencedXid :: published,
      after.Estimates estimate := by
  have kept : ∀ estimate ∈ published, after.Estimates estimate := fun estimate member =>
    (estimates estimate member).later ok (ok.next_later taken)
  refine List.forall_mem_cons.mpr ⟨?_, kept⟩
  by_cases begins : ∃ snapshotType readOnly, event = .beginRoot snapshotType readOnly
  · obtain ⟨snapshotType, readOnly, rfl⟩ := begins
    cases taken
    exact startTxn_estimates ok.manager _ snapshotType readOnly
  · -- Nothing new was published.
    rw [ok.next_calculated taken fun snapshotType readOnly same =>
      begins ⟨snapshotType, readOnly, same⟩]
    exact kept _ calculated

end

variable {xid estimate : Nat}

/-- The lower of two identifiers is not below what neither of them is below. -/
theorem le_lowerXid {bound : Nat} {other : Option Nat} (first : bound ≤ xid)
    (second : ∀ least ∈ other, bound ≤ least) : bound ≤ lowerXid xid other := by
  cases other with
  | none => exact first
  | some other => exact Nat.le_min.mpr ⟨first, second other rfl⟩

/-- The published bound is not above any recorded snapshot. -/
theorem ManagerOk.published_le_snapshots (ok : ManagerOk mgr finished) :
    ∀ snapshotXid ∈ mgr.snapshotXids,
      mgr.setOldestReferencedXid.lastCalculatedOldestReferencedXid ≤ snapshotXid := by
  have sorted : (mgr.snapshots.map Snapshot.snapshotTxnid64).Pairwise (· < ·) :=
    List.pairwise_map.mpr ok.snapshotsSorted
  refine le_of_head?_le sorted ?_
  rw [List.head?_map]
  exact lowerXid_le_other _

/-- What was published before is not above any of the sources of the next bound. -/
theorem ManagerOk.le_published (ok : ManagerOk mgr finished)
    (estimates : mgr.Estimates finished estimate)
    (below : ∀ snapshotXid ∈ mgr.snapshotXids, estimate ≤ snapshotXid) :
    estimate ≤ mgr.setOldestReferencedXid.lastCalculatedOldestReferencedXid := by
  refine le_lowerXid (le_lowerXid (le_lowerXid estimates.counted ?_) ?_) ?_
  · intro oldest head
    exact estimates.live oldest (List.mem_of_mem_head? head)
  · -- A referenced writer is held by a snapshot, which a bound above the writer rules out.
    intro least head
    obtain ⟨tuple, first, rfl⟩ := Option.map_eq_some_iff.mp head
    obtain ⟨txn, done, wrote, held, rfl⟩ :=
      (ok.referenced tuple).mp (List.mem_of_mem_head? first)
    obtain ⟨snapshot, inside, holds⟩ := List.countP_pos_iff.mp held
    have within := (ok.holds_finished done inside).mp (List.contains_iff_mem.mp holds)
    by_contra above
    have late := estimates.seen txn done wrote (Nat.lt_of_not_le above) _
      (List.mem_map_of_mem inside)
    exact Nat.lt_irrefl _ (Nat.lt_of_lt_of_le late within.2)
  · intro first head
    obtain ⟨snapshot, front, rfl⟩ := Option.map_eq_some_iff.mp head
    exact below _ (List.mem_map_of_mem (List.mem_of_mem_head? front))

/-- A bound that keeps its promise and is not above any recorded snapshot. -/
structure TxnWorld.Bounded (world : TxnWorld) (estimate : Nat) : Prop where
  estimates : world.Estimates estimate
  snapshots : ∀ snapshotXid ∈ world.mgr.snapshotXids, estimate ≤ snapshotXid

variable {world : TxnWorld}

/-- Such a bound stays one in every later world. -/
theorem TxnWorld.Bounded.later {earlier later : TxnWorld} (bounded : earlier.Bounded estimate)
    (ok : earlier.Ok) (step : earlier.Later later) :
    later.Bounded estimate where
  estimates := bounded.estimates.later ok step
  snapshots snapshotXid member := by
    rcases step.snapshots snapshotXid member with old | new
    · exact bounded.snapshots snapshotXid old
    · exact Nat.le_trans bounded.estimates.counted (Nat.le_of_lt new)

/-- The start of a root transaction publishes a bound that is not below an earlier one. -/
theorem startTxn_published (ok : ManagerOk mgr finished)
    (estimates : mgr.Estimates finished estimate)
    (below : ∀ snapshotXid ∈ mgr.snapshotXids, estimate ≤ snapshotXid) (txn : TokuTxn)
    (snapshotType : TxnSnapshotType) (readOnly : Bool) :
    estimate ≤ (mgr.startTxn txn snapshotType readOnly).1.lastCalculatedOldestReferencedXid ∧
      ∀ snapshotXid ∈ (mgr.startTxn txn snapshotType readOnly).1.snapshotXids,
        (mgr.startTxn txn snapshotType readOnly).1.lastCalculatedOldestReferencedXid ≤
          snapshotXid := by
  -- The bound is calculated when the root is among the live ones and has no snapshot yet.
  have registered : estimate ≤ (mgr.registerTxn txn readOnly).1.lastCalculatedOldestReferencedXid ∧
      (∀ snapshotXid ∈ (mgr.registerTxn txn readOnly).1.snapshotXids,
        (mgr.registerTxn txn readOnly).1.lastCalculatedOldestReferencedXid ≤ snapshotXid) ∧
      (mgr.registerTxn txn readOnly).1.lastCalculatedOldestReferencedXid ≤
        (mgr.registerTxn txn readOnly).1.lastXid := by
    cases readOnly with
    | true =>
      have counted := ok.counted (Nat.le_succ mgr.lastXid)
      exact ⟨counted.le_published ⟨Nat.le_succ_of_le estimates.counted, estimates.live,
        estimates.seen⟩ below, counted.published_le_snapshots, counted.estimates.counted⟩
    | false =>
      refine ⟨ok.registered.le_published ⟨Nat.le_succ_of_le estimates.counted, ?_,
        estimates.seen⟩ below, ok.registered.published_le_snapshots,
        ok.registered.estimates.counted⟩
      intro xid member
      rcases List.mem_append.mp member with old | new
      · exact estimates.live xid old
      · rw [List.mem_singleton.mp new]
        exact Nat.le_succ_of_le estimates.counted
  obtain ⟨notBelow, notAbove, counted⟩ := registered
  unfold TxnManager.startTxn
  cases snapshotType with
  | none => exact ⟨notBelow, notAbove⟩
  | copies => exact ⟨notBelow, notAbove⟩
  | root | child =>
    refine ⟨notBelow, ?_⟩
    intro snapshotXid member
    obtain ⟨snapshot, inside, rfl⟩ := List.mem_map.mp member
    rcases List.mem_append.mp inside with old | new
    · exact notAbove _ (List.mem_map_of_mem old)
    · -- The new snapshot is younger than everything that had an identifier.
      rw [List.mem_singleton.mp new]
      exact Nat.le_succ_of_le counted

/-- Every step keeps the published bound or raises it. -/
theorem TxnWorld.Bounded.step {after : TxnWorld} (ok : world.Ok)
    (bounded : world.Bounded world.mgr.lastCalculatedOldestReferencedXid) {event : TxnEvent}
    (taken : world.next event = some after) :
    world.mgr.lastCalculatedOldestReferencedXid ≤ after.mgr.lastCalculatedOldestReferencedXid ∧
      after.Bounded after.mgr.lastCalculatedOldestReferencedXid := by
  -- A new bound comes with a root only, and is the least that is referenced then.
  by_cases begins : ∃ snapshotType readOnly, event = .beginRoot snapshotType readOnly
  · obtain ⟨snapshotType, readOnly, rfl⟩ := begins
    cases taken
    obtain ⟨notBelow, notAbove⟩ := startTxn_published ok.manager bounded.estimates
      bounded.snapshots (.create snapshotType readOnly) snapshotType readOnly
    exact ⟨notBelow, startTxn_estimates ok.manager _ snapshotType readOnly, notAbove⟩
  · have same := ok.next_calculated taken fun snapshotType readOnly isBegin =>
      begins ⟨snapshotType, readOnly, isBegin⟩
    rw [same]
    exact ⟨Nat.le_refl _, bounded.later ok (ok.next_later taken)⟩

/-- What holds along every run: the world is in order and its published bound is one. -/
theorem TxnWorld.Reaches.bounded {events : List TxnEvent} (run : TxnWorld.Reaches events world) :
    world.Bounded world.mgr.lastCalculatedOldestReferencedXid := by
  -- By induction on the run.
  let inOrder (world : TxnWorld) : Prop :=
    world.Ok ∧ world.Bounded world.mgr.lastCalculatedOldestReferencedXid
  refine (@Runs.invariant _ _ _ _ inOrder _ _ run ⟨.init, ⟨⟨Nat.zero_le _, ?_, ?_⟩, ?_⟩⟩ ?_).2
  · exact List.forall_mem_nil _
  · exact List.forall_mem_nil _
  · exact List.forall_mem_nil _
  · rintro before event after ⟨ok, bounded⟩ taken
    exact ⟨ok.step taken, (bounded.step ok taken).2⟩

/-- A root that a snapshot holds below a bound of the manager did no work. -/
theorem TxnWorld.Bounded.held_idle (ok : world.Ok) (bounded : world.Bounded estimate)
    (below : xid < estimate) {snapshot : Snapshot} (member : snapshot ∈ world.mgr.snapshots)
    (held : xid ∈ snapshot.liveRootTxnList) :
    ∃ txn ∈ world.finished, txn.xid = xid ∧ txn.readOnly = true := by
  -- A root that wrote and ended is in the lists of no snapshot below the bound.
  rcases (ok.manager.holds snapshot member xid).mp held with ⟨live, -⟩ | ⟨txn, done, rfl, within⟩
  · exact absurd below (Nat.not_lt.mpr (bounded.estimates.live xid live))
  · cases wrote : txn.readOnly with
    | true => exact ⟨txn, done, rfl, wrote⟩
    | false =>
      have late := bounded.estimates.seen txn done wrote below _ (List.mem_map_of_mem member)
      exact absurd within.2 (Nat.not_le.mpr late)

/-- A reader of a recorded snapshot accepts what is below a bound and did some work. -/
theorem TxnWorld.Bounded.accepted (ok : world.Ok) (shares : world.Shares)
    (bounded : world.Bounded estimate) (below : xid < estimate)
    (worked : ¬ ∃ txn ∈ world.finished, txn.xid = xid ∧ txn.readOnly = true) {root : Nat}
    {reader : TokuTxn} (opened : reader ∈ world.txns root) (reads : reader.readsSnapshot = true)
    (forceRecovery : Bool) :
    tokuTxnReadsTxnid forceRecovery xid reader = some true := by
  obtain ⟨snapshot, member, stamp, list⟩ := ok.snapshotOf shares opened reads
  have free : isTxnInLiveRootTxnList snapshot.liveRootTxnList xid = false := by
    rw [Bool.eq_false_iff]
    intro held
    exact worked (bounded.held_idle ok below member (List.contains_iff_mem.mp held))
  have older : xid < reader.snapshotTxnid64 := by
    rw [← stamp]
    exact Nat.lt_of_lt_of_le below (bounded.snapshots _ (List.mem_map_of_mem member))
  have notYounger : ¬ (reader.snapshotTxnid64 < xid ∨
      isTxnInLiveRootTxnList snapshot.liveRootTxnList xid = true) := by
    rintro (younger | held)
    · exact Nat.lt_asymm older younger
    · rw [free] at held
      cases held
  cases forceRecovery with
  | true => rfl
  | false =>
    simp only [tokuTxnReadsTxnid, Bool.false_eq_true, if_false, list, bind_runs, if_neg notYounger]
    -- Every branch that is left accepts.
    split
    · rfl
    · split <;> rfl

/-- Readers share their snapshots along every run. -/
theorem TxnWorld.Reaches.shares {events : List TxnEvent} (run : TxnWorld.Reaches events world) :
    world.Shares := by
  let inOrder (world : TxnWorld) : Prop := world.Ok ∧ world.Shares
  refine (@Runs.invariant _ _ _ _ inOrder _ _ run ⟨.init, fun _ => List.forall_mem_nil _⟩ ?_).2
  rintro before event after ⟨ok, shares⟩ taken
  exact ⟨ok.step taken, shares.step ok taken⟩

/--
Along every run the published bound never decreases, and it is safe from then on.

A root that ended without having done any work may still be in a snapshot's list.
No record of a row is stamped with its identifier.
-/
theorem oldestReferencedXid_safe {events more : List TxnEvent} {world later : TxnWorld}
    (run : TxnWorld.Reaches events world)
    (goesOn : Runs (fun before event after => before.next event = some after) world more later) :
    world.mgr.lastCalculatedOldestReferencedXid ≤ later.mgr.lastCalculatedOldestReferencedXid ∧
    ∀ xid, xid < world.mgr.lastCalculatedOldestReferencedXid →
      xid ∉ later.mgr.liveRootIds ∧
      (∀ snapshot ∈ later.mgr.snapshots, xid < snapshot.snapshotTxnid64 ∧
        (xid ∈ snapshot.liveRootTxnList →
          xid ∉ later.mgr.referencedXids.map ReferencedXidTuple.beginId ∧
          ∃ txn ∈ later.finished, txn.xid = xid ∧ txn.readOnly = true)) ∧
      ((¬ ∃ txn ∈ later.finished, txn.xid = xid ∧ txn.readOnly = true) →
        ∀ root, ∀ reader ∈ later.txns root, reader.readsSnapshot = true → ∀ forceRecovery,
          tokuTxnReadsTxnid forceRecovery xid reader = some true) := by
  -- By induction on the further run, the bound only rises.
  have rises : world.mgr.lastCalculatedOldestReferencedXid ≤
      later.mgr.lastCalculatedOldestReferencedXid ∧ TxnWorld.Reaches (events ++ more) later := by
    induction goesOn with
    | start => exact ⟨Nat.le_refl _, by rwa [List.append_nil]⟩
    | next earlier last ih =>
      refine ⟨Nat.le_trans ih.1 (ih.2.bounded.step ih.2.ok last).1, ?_⟩
      rw [← List.append_assoc]
      exact .next ih.2 last
  obtain ⟨rises, whole⟩ := rises
  have ok := whole.ok
  have bounded := whole.bounded
  refine ⟨rises, fun xid below => ?_⟩
  have under := Nat.lt_of_lt_of_le below rises
  refine ⟨?_, ?_, ?_⟩
  · intro live
    exact absurd under (Nat.not_lt.mpr (bounded.estimates.live xid live))
  · intro snapshot member
    refine ⟨Nat.lt_of_lt_of_le under (bounded.snapshots _ (List.mem_map_of_mem member)), ?_⟩
    intro held
    obtain ⟨txn, done, same, idle⟩ := bounded.held_idle ok under member held
    refine ⟨?_, txn, done, same, idle⟩
    intro referenced
    obtain ⟨tuple, inside, isXid⟩ := List.mem_map.mp referenced
    obtain ⟨writer, writerDone, wrote, -, rfl⟩ := (ok.manager.referenced tuple).mp inside
    rw [ok.manager.finished_eq writerDone done (isXid.trans same.symm), idle] at wrote
    cases wrote
  · intro worked root reader opened reads forceRecovery
    exact bounded.accepted ok whole.shares under worked opened reads forceRecovery

/-- A writer that has ended is accepted by the snapshots of two readers, one started later. -/
theorem oldestReferencedXid_safe_ended : ∃ world later : TxnWorld,
    TxnWorld.Reaches [.beginRoot .none false, .logBegin 1, .noteCommit 1, .completeRoot 1,
      .beginRoot .root false] world ∧
    world.mgr.lastCalculatedOldestReferencedXid = 2 ∧
    ∀ root, ∀ reader ∈ later.txns root, reader.readsSnapshot = true →
      tokuTxnReadsTxnid false 1 reader = some true := by
  have run : TxnWorld.Reaches [.beginRoot .none false, .logBegin 1, .noteCommit 1, .completeRoot 1,
      .beginRoot .root false] _ := Runs.of_foldlM rfl
  obtain ⟨-, safe⟩ := oldestReferencedXid_safe run
    (show Runs _ _ ([] ++ [.beginRoot .child true]) _ from .next .start rfl)
  obtain ⟨-, -, accepts⟩ := safe 1 (by decide)
  exact ⟨_, _, run, by rfl,
    fun root reader opened reads => accepts (by decide) root reader opened reads false⟩

/-- A root that did no work is below the bound, and a snapshot that holds it refuses it. -/
theorem idle_root_is_refused : ∃ world reader,
    TxnWorld.Reaches [.beginRoot .none false, .beginRoot .root false, .noteCommit 1,
      .completeRoot 1, .beginRoot .none false] world ∧
    1 < world.mgr.lastCalculatedOldestReferencedXid ∧
    reader ∈ world.txns 2 ∧ reader.readsSnapshot = true ∧
    tokuTxnReadsTxnid false 1 reader = some false :=
  ⟨_, _, Runs.of_foldlM rfl, by decide, List.mem_singleton.mpr rfl, rfl, rfl⟩

end Tokuft
