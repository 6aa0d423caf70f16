import Tokuft.Txn.World

/-! The manager's lists stay exact, however the references of a snapshot are taken off. -/

namespace Tokuft

/-- What is left of one tuple when a snapshot with this list goes. -/
def releaseTuple (liveList : List Nat) (tuple : ReferencedXidTuple) : Option ReferencedXidTuple :=
  if tuple.beginId ∈ liveList then
    if tuple.references - 1 = 0 then none
    else some { tuple with references := tuple.references - 1 }
  else some tuple

/-- What is left of the referenced transactions when a snapshot with this list goes. -/
def releaseReferences (liveList : List Nat) (refs : List ReferencedXidTuple) :
    List ReferencedXidTuple := refs.filterMap (releaseTuple liveList)

variable {liveList : List Nat} {refs : List ReferencedXidTuple}

/-- A tuple that is left keeps its transaction and loses at most its reference. -/
theorem releaseTuple_eq_some {tuple left : ReferencedXidTuple} :
    releaseTuple liveList tuple = some left ↔
      (tuple.beginId ∈ liveList ∧ 1 < tuple.references ∧
        left = { tuple with references := tuple.references - 1 }) ∨
      (tuple.beginId ∉ liveList ∧ left = tuple) := by
  -- A tuple goes with its last reference.
  unfold releaseTuple
  split
  · rename_i held
    split
    · rename_i last
      simp only [held, true_and, not_true_eq_false, false_and, or_false, reduceCtorEq, false_iff]
      omega
    · rename_i more
      have several : 1 < tuple.references := by omega
      simp [held, several, eq_comm]
  · rename_i free
    simp [free, eq_comm]

/-- A tuple that is left still belongs to its transaction. -/
theorem releaseTuple_beginId {tuple left : ReferencedXidTuple}
    (kept : releaseTuple liveList tuple = some left) : left.beginId = tuple.beginId := by
  rcases releaseTuple_eq_some.mp kept with ⟨-, -, rfl⟩ | ⟨-, rfl⟩ <;> rfl

/-- References stay above zero in what is left. -/
theorem releaseReferences_positive {liveList : List Nat} {refs : List ReferencedXidTuple}
    (positive : ∀ tuple ∈ refs, 0 < tuple.references) :
    ∀ tuple ∈ releaseReferences liveList refs, 0 < tuple.references := by
  intro left member
  obtain ⟨tuple, inside, kept⟩ := List.mem_filterMap.mp member
  rcases releaseTuple_eq_some.mp kept with ⟨-, several, rfl⟩ | ⟨-, rfl⟩
  · show 0 < tuple.references - 1
    omega
  · exact positive left inside

/-- What is left stays in order. -/
theorem releaseReferences_sorted
    (sorted : refs.Pairwise fun earlier later => earlier.beginId < later.beginId) :
    (releaseReferences liveList refs).Pairwise
      fun earlier later => earlier.beginId < later.beginId := by
  refine List.pairwise_filterMap.mpr (sorted.imp fun before left kept right other => ?_)
  rw [releaseTuple_beginId kept, releaseTuple_beginId other]
  exact before

/-- Transactions that the list does not hold keep their references. -/
theorem releaseReferences_free (free : ∀ tuple ∈ refs, tuple.beginId ∉ liveList) :
    releaseReferences liveList refs = refs := by
  have kept : ∀ tuple ∈ refs, releaseTuple liveList tuple = some tuple :=
    fun tuple member => if_neg (free tuple member)
  rw [releaseReferences, List.filterMap_congr kept, List.filterMap_some]

/-- A walk that notes places to delete, and then deletes them, releases the references. -/
theorem noteSnapshotTxnEndByTxnLiveListIter_eq {liveList : List Nat} :
    ∀ {refs : List ReferencedXidTuple} (before : List ReferencedXidTuple),
      (∀ tuple ∈ refs, 0 < tuple.references) →
      ∃ walked indexes,
        noteSnapshotTxnEndByTxnLiveListIter liveList before.length refs = some (walked, indexes) ∧
        indexes.reverse.foldl List.eraseIdx (before ++ walked) =
          before ++ releaseReferences liveList refs := by
  intro refs
  induction refs with
  | nil => exact fun before _ => ⟨[], [], rfl, rfl⟩
  | cons tuple rest ih =>
    intro before positive
    have here : 0 < tuple.references := positive tuple List.mem_cons_self
    have later := fun other member => positive other (List.mem_cons_of_mem _ member)
    by_cases held : tuple.beginId ∈ liveList
    · -- The places behind this one are gone by the time that it is deleted itself.
      let lowered := { tuple with references := tuple.references - 1 }
      obtain ⟨walked, indexes, walk, deleted⟩ := ih (before ++ [lowered]) later
      simp only [List.length_append, List.length_cons, List.length_nil, Nat.zero_add] at walk
      by_cases last : tuple.references - 1 = 0
      · refine ⟨lowered :: walked, before.length :: indexes, ?_, ?_⟩
        · simp [noteSnapshotTxnEndByTxnLiveListIter, held, here, walk, last, lowered]
        · have gone : releaseTuple liveList tuple = none := by simp [releaseTuple, held, last]
          rw [List.reverse_cons, List.foldl_append, List.append_cons, deleted]
          simp [releaseReferences, gone, List.eraseIdx_append_of_length_le]
      · refine ⟨lowered :: walked, indexes, ?_, ?_⟩
        · simp [noteSnapshotTxnEndByTxnLiveListIter, held, here, walk, last, lowered]
        · have kept : releaseTuple liveList tuple = some lowered := by
            simp [releaseTuple, held, last, lowered]
          rw [List.append_cons, deleted]
          simp [releaseReferences, kept]
    · obtain ⟨walked, indexes, walk, deleted⟩ := ih (before ++ [tuple]) later
      simp only [List.length_append, List.length_cons, List.length_nil, Nat.zero_add] at walk
      refine ⟨tuple :: walked, indexes, ?_, ?_⟩
      · simp [noteSnapshotTxnEndByTxnLiveListIter, held, walk]
      · have kept : releaseTuple liveList tuple = some tuple := by simp [releaseTuple, held]
        rw [List.append_cons, deleted]
        simp [releaseReferences, kept]

/-- Walking over the referenced transactions releases the references. -/
theorem noteSnapshotTxnEndByTxnLiveList_eq (positive : ∀ tuple ∈ refs, 0 < tuple.references) :
    noteSnapshotTxnEndByTxnLiveList refs liveList = some (releaseReferences liveList refs) := by
  obtain ⟨walked, indexes, walk, deleted⟩ :=
    @noteSnapshotTxnEndByTxnLiveListIter_eq liveList refs [] positive
  simp only [List.length_nil] at walk
  simpa [noteSnapshotTxnEndByTxnLiveList, walk] using deleted

/-- One member of the list takes its own reference and no other. -/
theorem referencedXidsNoteSnapshotTxnEnd_eq {xid : Nat} {refs : List ReferencedXidTuple}
    (positive : ∀ tuple ∈ refs, 0 < tuple.references)
    (sorted : refs.Pairwise fun earlier later => earlier.beginId < later.beginId) :
    referencedXidsNoteSnapshotTxnEnd xid refs = some (releaseReferences [xid] refs) := by
  induction refs with
  | nil => rfl
  | cons tuple rest ih =>
    obtain ⟨above, inner⟩ := List.pairwise_cons.mp sorted
    have here : 0 < tuple.references := positive tuple List.mem_cons_self
    have later := fun other member => positive other (List.mem_cons_of_mem _ member)
    by_cases same : tuple.beginId = xid
    · -- The tuples behind this one belong to other transactions.
      have others : releaseReferences [xid] rest = rest :=
        releaseReferences_free fun other member =>
        List.mem_singleton.not.mpr (same ▸ Nat.ne_of_gt (above other member))
      by_cases last : tuple.references - 1 = 0
      · simpa [referencedXidsNoteSnapshotTxnEnd, same, here, last, releaseReferences, releaseTuple]
          using others.symm
      · simpa [referencedXidsNoteSnapshotTxnEnd, same, here, last, releaseReferences, releaseTuple]
          using others.symm
    · simp [referencedXidsNoteSnapshotTxnEnd, same, ih later inner, releaseReferences,
        releaseTuple]

/-- Releasing for one member and then for the others releases for the whole list. -/
theorem releaseReferences_cons {xid : Nat} (fresh : xid ∉ liveList) :
    releaseReferences liveList (releaseReferences [xid] refs) =
      releaseReferences (xid :: liveList) refs := by
  rw [releaseReferences, releaseReferences, List.filterMap_filterMap]
  refine List.filterMap_congr fun tuple _ => ?_
  by_cases same : tuple.beginId = xid
  · -- This tuple loses its reference once, to the first member.
    by_cases last : tuple.references - 1 = 0 <;> simp [releaseTuple, same, last, fresh]
  · simp [releaseTuple, same]

/-- Looking the members of the list up one by one releases the references. -/
theorem noteSnapshotTxnEndByRefXids_eq (distinct : liveList.Nodup) :
    ∀ {refs : List ReferencedXidTuple}, (∀ tuple ∈ refs, 0 < tuple.references) →
      (refs.Pairwise fun earlier later => earlier.beginId < later.beginId) →
      noteSnapshotTxnEndByRefXids refs liveList = some (releaseReferences liveList refs) := by
  -- By induction on the list: each member takes one reference off its own tuple.
  induction liveList with
  | nil =>
    intro refs _ _
    have untouched : releaseReferences [] refs = refs :=
      releaseReferences_free fun _ _ => List.not_mem_nil
    rw [untouched]
    rfl
  | cons xid rest ih =>
    intro refs positive sorted
    obtain ⟨fresh, distinct⟩ := List.nodup_cons.mp distinct
    have first := @referencedXidsNoteSnapshotTxnEnd_eq xid refs positive sorted
    have others := ih distinct (@releaseReferences_positive [xid] refs positive)
      (releaseReferences_sorted sorted)
    rw [releaseReferences_cons fresh] at others
    rw [noteSnapshotTxnEndByRefXids, List.foldlM_cons, first]
    exact others

/-- Whether a finished root was live when a snapshot was created. -/
def FinishedTxn.heldBy (txn : FinishedTxn) (snapshotXid : Nat) : Prop :=
  txn.xid < snapshotXid ∧ snapshotXid ≤ txn.lastXid

/-- How many recorded snapshots hold a transaction as live. -/
def holders (snapshots : List Snapshot) (xid : Nat) : Nat :=
  snapshots.countP fun snapshot => snapshot.liveRootTxnList.contains xid

/-- What the lists of a manager say, given the roots that have finished. -/
structure ManagerOk (mgr : TxnManager) (finished : List FinishedTxn) : Prop where
  sameIds : mgr.liveRootTxns = mgr.liveRootIds
  liveSorted : mgr.liveRootIds.Pairwise (· < ·)
  liveBound : ∀ xid ∈ mgr.liveRootIds, 0 < xid ∧ xid ≤ mgr.lastXid
  snapshotsSorted : mgr.snapshots.Pairwise fun earlier later =>
    earlier.snapshotTxnid64 < later.snapshotTxnid64
  snapshotsBound : ∀ snapshot ∈ mgr.snapshots, snapshot.snapshotTxnid64 ≤ mgr.lastXid
  snapshotsPositive : ∀ snapshot ∈ mgr.snapshots, 0 < snapshot.snapshotTxnid64
  snapshotsCounted : mgr.numSnapshots = mgr.snapshots.length
  /-- A snapshot holds the roots that were live when it was created. -/
  holds : ∀ snapshot ∈ mgr.snapshots, ∀ xid, xid ∈ snapshot.liveRootTxnList ↔
    (xid ∈ mgr.liveRootIds ∧ xid < snapshot.snapshotTxnid64) ∨
      ∃ txn ∈ finished, txn.xid = xid ∧ txn.heldBy snapshot.snapshotTxnid64
  heldSorted : ∀ snapshot ∈ mgr.snapshots, snapshot.liveRootTxnList.Pairwise (· < ·)
  /-- A snapshot's own identifier is that of no root transaction. -/
  apart : ∀ snapshot ∈ mgr.snapshots, snapshot.snapshotTxnid64 ∉ mgr.liveRootIds ∧
    ∀ txn ∈ finished, txn.xid ≠ snapshot.snapshotTxnid64
  finishedBound : ∀ txn ∈ finished, 0 < txn.xid ∧ txn.xid ≤ txn.lastXid ∧
    txn.lastXid ≤ mgr.lastXid ∧ txn.xid ∉ mgr.liveRootIds
  finishedOnce : (finished.map FinishedTxn.xid).Nodup
  finishedOrder : finished.Pairwise fun later earlier => earlier.lastXid ≤ later.lastXid
  referencedSorted : mgr.referencedXids.Pairwise fun earlier later =>
    earlier.beginId < later.beginId
  /-- The reverse live list has the finished writers that some snapshot holds, and no others. -/
  referenced : ∀ tuple, tuple ∈ mgr.referencedXids ↔
    ∃ txn ∈ finished, txn.readOnly = false ∧ 0 < holders mgr.snapshots txn.xid ∧
      tuple = { beginId := txn.xid, endId := txn.lastXid + 1,
                references := holders mgr.snapshots txn.xid }

/-- A new manager's lists are empty, as they should be. -/
theorem ManagerOk.init : ManagerOk .init [] := by
  constructor <;> simp [TxnManager.init]

variable {mgr : TxnManager} {finished : List FinishedTxn} {snapshot : Snapshot}

section

variable (ok : ManagerOk mgr finished)
include ok

/-- Referenced transactions have at least one reference each. -/
theorem ManagerOk.positive :
    ∀ tuple ∈ mgr.referencedXids, 0 < tuple.references := by
  intro tuple member
  obtain ⟨txn, -, -, held, rfl⟩ := (ok.referenced tuple).mp member
  exact held

/-- A finished root is known by its identifier. -/
theorem ManagerOk.finished_eq {txn other : FinishedTxn} (done : txn ∈ finished)
    (others : other ∈ finished) (same : txn.xid = other.xid) :
    txn = other := List.inj_on_of_nodup_map ok.finishedOnce done others same

/-- Whether a snapshot holds a finished root is a matter of three identifiers. -/
theorem ManagerOk.holds_finished {txn : FinishedTxn} (done : txn ∈ finished)
    (member : snapshot ∈ mgr.snapshots) :
    txn.xid ∈ snapshot.liveRootTxnList ↔ txn.heldBy snapshot.snapshotTxnid64 := by
  rw [ok.holds snapshot member]
  constructor
  · rintro (⟨live, -⟩ | ⟨other, others, same, held⟩)
    · exact absurd live (ok.finishedBound txn done).2.2.2
    · exact ok.finished_eq others done same ▸ held
  · exact fun held => Or.inr ⟨txn, done, rfl, held⟩

/-- Every root that a snapshot holds has an identifier. -/
theorem ManagerOk.heldPositive (member : snapshot ∈ mgr.snapshots) {xid : Nat}
    (held : xid ∈ snapshot.liveRootTxnList) :
    0 < xid := by
  rcases (ok.holds snapshot member xid).mp held with ⟨live, -⟩ | ⟨txn, done, rfl, -⟩
  · exact (ok.liveBound xid live).1
  · exact (ok.finishedBound txn done).1

/-- Publishing another bound changes none of the lists. -/
theorem ManagerOk.published :
    ManagerOk mgr.setOldestReferencedXid finished :=
  ⟨ok.sameIds, ok.liveSorted, ok.liveBound, ok.snapshotsSorted, ok.snapshotsBound,
    ok.snapshotsPositive, ok.snapshotsCounted, ok.holds, ok.heldSorted, ok.apart, ok.finishedBound,
    ok.finishedOnce,
    ok.finishedOrder, ok.referencedSorted, ok.referenced⟩

/-- An identifier that is given out for something else leaves the lists as they are. -/
theorem ManagerOk.counted {lastXid : Nat} (later : mgr.lastXid ≤ lastXid) :
    ManagerOk { mgr with lastXid } finished where
  __ := ok
  liveBound xid member :=
    ⟨(ok.liveBound xid member).1, Nat.le_trans (ok.liveBound xid member).2 later⟩
  snapshotsBound snapshot member := Nat.le_trans (ok.snapshotsBound snapshot member) later
  finishedBound txn member :=
    have bound := ok.finishedBound txn member
    ⟨bound.1, bound.2.1, Nat.le_trans bound.2.2.1 later, bound.2.2.2⟩

/-- A new root goes to the end of the live roots. -/
theorem ManagerOk.registered :
    ManagerOk { mgr with
      lastXid := mgr.lastXid + 1
      liveRootTxns := mgr.liveRootTxns ++ [mgr.lastXid + 1]
      liveRootIds := mgr.liveRootIds ++ [mgr.lastXid + 1] } finished where
  sameIds := congrArg (· ++ [mgr.lastXid + 1]) ok.sameIds
  liveSorted := List.pairwise_append.mpr ⟨ok.liveSorted, List.pairwise_singleton _ _,
    fun xid member new same => by
      rw [List.mem_singleton.mp same]
      exact Nat.lt_succ_of_le (ok.liveBound xid member).2⟩
  liveBound xid member := by
    rcases List.mem_append.mp member with old | new
    · exact ⟨(ok.liveBound xid old).1, Nat.le_succ_of_le (ok.liveBound xid old).2⟩
    · rw [List.mem_singleton.mp new]
      exact ⟨Nat.succ_pos _, Nat.le_refl _⟩
  snapshotsSorted := ok.snapshotsSorted
  snapshotsBound snapshot member := Nat.le_succ_of_le (ok.snapshotsBound snapshot member)
  snapshotsPositive := ok.snapshotsPositive
  snapshotsCounted := ok.snapshotsCounted
  holds snapshot member xid := by
    -- No snapshot that exists is as young as the new root.
    have bound := ok.snapshotsBound snapshot member
    rw [ok.holds snapshot member xid]
    constructor
    · rintro (⟨live, before⟩ | held)
      · exact Or.inl ⟨List.mem_append_left _ live, before⟩
      · exact Or.inr held
    · rintro (⟨live, before⟩ | held)
      · rcases List.mem_append.mp live with old | new
        · exact Or.inl ⟨old, before⟩
        · rw [List.mem_singleton.mp new] at before
          omega
      · exact Or.inr held
  heldSorted := ok.heldSorted
  apart snapshot member := by
    have bound := ok.snapshotsBound snapshot member
    refine ⟨fun live => ?_, (ok.apart snapshot member).2⟩
    rcases List.mem_append.mp live with old | new
    · exact (ok.apart snapshot member).1 old
    · rw [List.mem_singleton.mp new] at bound
      omega
  finishedBound txn member := by
    obtain ⟨positive, before, bound, gone⟩ := ok.finishedBound txn member
    refine ⟨positive, before, Nat.le_succ_of_le bound, fun live => ?_⟩
    rcases List.mem_append.mp live with old | new
    · exact gone old
    · rw [List.mem_singleton.mp new] at before
      omega
  finishedOnce := ok.finishedOnce
  finishedOrder := ok.finishedOrder
  referencedSorted := ok.referencedSorted
  referenced := ok.referenced

/-- A new snapshot goes to the tail and holds the roots that are live now. -/
theorem ManagerOk.snapshotCreated (txn : TokuTxn) :
    ManagerOk (mgr.createSnapshot txn).1 finished where
  sameIds := ok.sameIds
  liveSorted := ok.liveSorted
  liveBound xid member :=
    ⟨(ok.liveBound xid member).1, Nat.le_succ_of_le (ok.liveBound xid member).2⟩
  snapshotsSorted := List.pairwise_append.mpr ⟨ok.snapshotsSorted, List.pairwise_singleton _ _,
    fun snapshot member new same => by
      rw [List.mem_singleton.mp same]
      exact Nat.lt_succ_of_le (ok.snapshotsBound snapshot member)⟩
  snapshotsBound snapshot member := by
    rcases List.mem_append.mp member with old | new
    · exact Nat.le_succ_of_le (ok.snapshotsBound snapshot old)
    · rw [List.mem_singleton.mp new]
      exact Nat.le_refl _
  snapshotsPositive snapshot member := by
    rcases List.mem_append.mp member with old | new
    · exact ok.snapshotsPositive snapshot old
    · rw [List.mem_singleton.mp new]
      exact Nat.succ_pos _
  snapshotsCounted := by simp [TxnManager.createSnapshot, ok.snapshotsCounted]
  holds snapshot member xid := by
    rcases List.mem_append.mp member with old | new
    · exact ok.holds snapshot old xid
    · -- Whatever has finished did so before the snapshot's identifier was given out.
      rw [List.mem_singleton.mp new]
      constructor
      · exact fun live => Or.inl ⟨live, Nat.lt_succ_of_le (ok.liveBound xid live).2⟩
      · rintro (⟨live, -⟩ | ⟨other, done, -, -, late⟩)
        · exact live
        · have bound := (ok.finishedBound other done).2.2.1
          exact absurd (Nat.le_trans late bound) (Nat.not_succ_le_self _)
  heldSorted snapshot member := by
    rcases List.mem_append.mp member with old | new
    · exact ok.heldSorted snapshot old
    · rw [List.mem_singleton.mp new]
      exact ok.liveSorted
  apart snapshot member := by
    rcases List.mem_append.mp member with old | new
    · exact ok.apart snapshot old
    · rw [List.mem_singleton.mp new]
      refine ⟨fun live => ?_, fun other done same => ?_⟩
      · exact absurd (ok.liveBound _ live).2 (Nat.not_succ_le_self _)
      · have bound := ok.finishedBound other done
        have later : other.xid = mgr.lastXid + 1 := same
        omega
  finishedBound other done :=
    have bound := ok.finishedBound other done
    ⟨bound.1, bound.2.1, Nat.le_succ_of_le bound.2.2.1, bound.2.2.2⟩
  finishedOnce := ok.finishedOnce
  finishedOrder := ok.finishedOrder
  referencedSorted := ok.referencedSorted
  referenced tuple := by
    -- A finished root is not among the live ones that the new snapshot holds.
    have same : ∀ other ∈ finished,
        holders (mgr.createSnapshot txn).1.snapshots other.xid =
          holders mgr.snapshots other.xid := by
      intro other done
      have gone := (ok.finishedBound other done).2.2.2
      simp [holders, TxnManager.createSnapshot, TokuTxn.snapshot, gone]
    refine (ok.referenced tuple).trans ?_
    constructor
    · rintro ⟨other, done, wrote, held⟩
      exact ⟨other, done, wrote, by rwa [same other done]⟩
    · rintro ⟨other, done, wrote, held⟩
      exact ⟨other, done, wrote, by rwa [same other done] at held⟩

end

/-- Taking a recorded snapshot out lowers the count of what it holds. -/
theorem holders_erase {snapshots : List Snapshot} (member : snapshot ∈ snapshots) (xid : Nat) :
    holders snapshots xid = holders (snapshots.erase snapshot) xid +
      if xid ∈ snapshot.liveRootTxnList then 1 else 0 := by
  rw [holders, (List.perm_cons_erase member).countP_eq, List.countP_cons, ← holders]
  simp

/-- Removing a recorded snapshot succeeds, and releases what it holds in either way. -/
theorem ManagerOk.removeSnapshot_eq (ok : ManagerOk mgr finished) {txn : TokuTxn}
    (member : txn.snapshot ∈ mgr.snapshots) :
    mgr.removeSnapshot txn = some { mgr with
      snapshots := mgr.snapshots.erase txn.snapshot
      numSnapshots := mgr.numSnapshots - 1
      referencedXids := releaseReferences txn.snapshot.liveRootTxnList mgr.referencedXids } := by
  have sorted : txn.snapshot.liveRootTxnList.Pairwise (· < ·) := ok.heldSorted _ member
  have distinct : txn.snapshot.liveRootTxnList.Nodup := sorted.imp fun before => Nat.ne_of_lt before
  unfold TxnManager.removeSnapshot
  simp only [Option.bind_eq_bind, Option.pure_def]
  split
  · split
    · rw [noteSnapshotTxnEndByTxnLiveList_eq ok.positive]; rfl
    · have looked := noteSnapshotTxnEndByRefXids_eq distinct ok.positive ok.referencedSorted
      rw [TokuTxn.snapshot] at looked
      rw [looked]; rfl
  · -- Nothing is referenced, or the snapshot holds nothing.
    rename_i nothing
    have free : releaseReferences txn.snapshot.liveRootTxnList mgr.referencedXids =
        mgr.referencedXids := by
      refine releaseReferences_free fun tuple inside held => nothing ⟨?_, ?_⟩
      · exact List.length_pos_of_mem inside
      · exact List.length_pos_of_mem held
    rw [free]; rfl

/-- A manager whose snapshot was removed is exact about the snapshots that are left. -/
theorem ManagerOk.snapshotRemoved (ok : ManagerOk mgr finished)
    (member : snapshot ∈ mgr.snapshots) :
    ManagerOk { mgr with
      snapshots := mgr.snapshots.erase snapshot
      numSnapshots := mgr.numSnapshots - 1
      referencedXids := releaseReferences snapshot.liveRootTxnList mgr.referencedXids }
      finished where
  sameIds := ok.sameIds
  liveSorted := ok.liveSorted
  liveBound := ok.liveBound
  snapshotsSorted := ok.snapshotsSorted.sublist List.erase_sublist
  snapshotsBound other left := ok.snapshotsBound other (List.mem_of_mem_erase left)
  snapshotsPositive other left := ok.snapshotsPositive other (List.mem_of_mem_erase left)
  snapshotsCounted := by rw [List.length_erase_of_mem member, ← ok.snapshotsCounted]
  holds other left := ok.holds other (List.mem_of_mem_erase left)
  heldSorted other left := ok.heldSorted other (List.mem_of_mem_erase left)
  apart other left := ok.apart other (List.mem_of_mem_erase left)
  finishedBound := ok.finishedBound
  finishedOnce := ok.finishedOnce
  finishedOrder := ok.finishedOrder
  referencedSorted := releaseReferences_sorted ok.referencedSorted
  referenced tuple := by
    simp only [releaseReferences, List.mem_filterMap]
    constructor
    · -- A tuple that is left belongs to a transaction with another holder.
      rintro ⟨before, inside, kept⟩
      obtain ⟨txn, done, wrote, held, rfl⟩ := (ok.referenced before).mp inside
      have count := holders_erase member txn.xid
      rcases releaseTuple_eq_some.mp kept with ⟨here, several, rfl⟩ | ⟨away, rfl⟩
      · simp only [if_pos here] at count several
        have lowered : holders mgr.snapshots txn.xid - 1 =
            holders (mgr.snapshots.erase snapshot) txn.xid := by omega
        exact ⟨txn, done, wrote, by omega, by rw [lowered]⟩
      · simp only [if_neg away, Nat.add_zero] at count
        exact ⟨txn, done, wrote, by omega, by rw [count]⟩
    · rintro ⟨txn, done, wrote, held, rfl⟩
      have count := holders_erase member txn.xid
      refine ⟨_, (ok.referenced _).mpr ⟨txn, done, wrote, by omega, rfl⟩,
        releaseTuple_eq_some.mpr ?_⟩
      by_cases here : txn.xid ∈ snapshot.liveRootTxnList
      · simp only [if_pos here] at count
        have lowered : holders (mgr.snapshots.erase snapshot) txn.xid =
            holders mgr.snapshots txn.xid - 1 := by omega
        exact Or.inl ⟨here, by show 1 < holders mgr.snapshots txn.xid; omega, by rw [lowered]⟩
      · simp only [if_neg here, Nat.add_zero] at count
        exact Or.inr ⟨here, by rw [count]⟩

/-- Taking from the front while a test holds finds all, where none passes behind one that fails. -/
theorem takeWhile_eq_filter {Item : Type} {test : Item → Bool} {items : List Item}
    (front : items.Pairwise fun earlier later => test later = true → test earlier = true) :
    items.takeWhile test = items.filter test := by
  induction items with
  | nil => rfl
  | cons first rest ih =>
    obtain ⟨before, inner⟩ := List.pairwise_cons.mp front
    cases passes : test first with
    | true => simp [passes, ih inner]
    | false =>
      -- Nothing behind the first one that fails can pass.
      have others : rest.filter test = [] := by
        refine List.filter_eq_nil_iff.mpr fun item member holds => ?_
        rw [before item member holds] at passes
        cases passes
      simp [passes, others]

/-- The search from the tail counts the snapshots that hold a live root. -/
theorem ManagerOk.numReferences_eq (ok : ManagerOk mgr finished) {xid : Nat}
    (live : xid ∈ mgr.liveRootIds) :
    (mgr.snapshots.reverse.takeWhile fun snapshot =>
      decide (xid < snapshot.snapshotTxnid64)).length = holders mgr.snapshots xid := by
  have front : mgr.snapshots.reverse.Pairwise fun earlier later =>
      decide (xid < later.snapshotTxnid64) = true →
        decide (xid < earlier.snapshotTxnid64) = true := by
    refine List.pairwise_reverse.mpr (ok.snapshotsSorted.imp fun before passes => ?_)
    simp only [decide_eq_true_eq] at passes ⊢
    omega
  rw [takeWhile_eq_filter front, List.filter_reverse, List.length_reverse,
    ← List.countP_eq_length_filter, holders]
  refine List.countP_congr fun snapshot member => ?_
  -- A live root is held by the snapshots that are younger than it.
  rw [List.contains_iff_mem, ok.holds snapshot member xid, decide_eq_true_eq]
  constructor
  · exact fun younger => Or.inl ⟨live, younger⟩
  · rintro (⟨-, younger⟩ | ⟨txn, done, rfl, -⟩)
    · exact younger
    · exact absurd live (ok.finishedBound txn done).2.2.2

/-- A tuple whose transaction is new goes to its place in the order. -/
theorem insertReferencedXid_eq {tuple : ReferencedXidTuple} {refs : List ReferencedXidTuple}
    (fresh : ∀ other ∈ refs, other.beginId ≠ tuple.beginId)
    (sorted : refs.Pairwise fun earlier later => earlier.beginId < later.beginId) :
    ∃ inserted, insertReferencedXid tuple refs = some inserted ∧
      (inserted.Pairwise fun earlier later => earlier.beginId < later.beginId) ∧
      ∀ other, other ∈ inserted ↔ other = tuple ∨ other ∈ refs := by
  induction refs with
  | nil => exact ⟨[tuple], rfl, List.pairwise_singleton _ _, by simp⟩
  | cons first rest ih =>
    obtain ⟨above, inner⟩ := List.pairwise_cons.mp sorted
    unfold insertReferencedXid
    split
    · rename_i before
      refine ⟨_, rfl, List.pairwise_cons.mpr ⟨fun other member => ?_, sorted⟩, by simp⟩
      rcases List.mem_cons.mp member with rfl | behind
      · exact before
      · exact Nat.lt_trans before (above other behind)
    · -- The tuple goes behind the first one, whose transaction is another.
      rename_i behind
      have apart := fresh first List.mem_cons_self
      obtain ⟨inserted, placed, ordered, members⟩ :=
        ih (fun other member => fresh other (List.mem_cons_of_mem _ member)) inner
      refine ⟨first :: inserted, ?_, List.pairwise_cons.mpr ⟨fun other member => ?_, ordered⟩, ?_⟩
      · simp [apart.symm, placed]
      · rcases (members other).mp member with rfl | old
        · omega
        · exact above other old
      · intro other
        simp only [List.mem_cons, members other]
        tauto

/-- A root that leaves moves from the live roots to the finished ones. -/
theorem ManagerOk.left (ok : ManagerOk mgr finished) {gone : FinishedTxn}
    (live : gone.xid ∈ mgr.liveRootIds) (now : gone.lastXid = mgr.lastXid) {lastXid : Nat}
    (later : mgr.lastXid ≤ lastXid) {refs : List ReferencedXidTuple}
    (sorted : refs.Pairwise fun earlier later => earlier.beginId < later.beginId)
    (members : ∀ tuple, tuple ∈ refs ↔
      (gone.readOnly = false ∧ 0 < holders mgr.snapshots gone.xid ∧
        tuple = { beginId := gone.xid, endId := gone.lastXid + 1,
                  references := holders mgr.snapshots gone.xid }) ∨
      tuple ∈ mgr.referencedXids) :
    ManagerOk { mgr with
      liveRootTxns := mgr.liveRootTxns.erase gone.xid
      liveRootIds := mgr.liveRootIds.erase gone.xid
      lastXid
      referencedXids := refs } (gone :: finished) where
  sameIds := by rw [ok.sameIds]
  liveSorted := ok.liveSorted.sublist List.erase_sublist
  liveBound xid member :=
    have bound := ok.liveBound xid (List.mem_of_mem_erase member)
    ⟨bound.1, Nat.le_trans bound.2 later⟩
  snapshotsSorted := ok.snapshotsSorted
  snapshotsBound snapshot member := Nat.le_trans (ok.snapshotsBound snapshot member) later
  snapshotsPositive := ok.snapshotsPositive
  snapshotsCounted := ok.snapshotsCounted
  holds snapshot member xid := by
    have bound := ok.snapshotsBound snapshot member
    have distinct : mgr.liveRootIds.Nodup := ok.liveSorted.imp fun before => Nat.ne_of_lt before
    rw [ok.holds snapshot member xid]
    by_cases same : xid = gone.xid
    · -- The root that leaves was live when every younger snapshot was created.
      subst same
      have stays : gone.xid ∉ mgr.liveRootIds.erase gone.xid := by
        rw [distinct.mem_erase_iff]
        exact fun member => member.1 rfl
      constructor
      · rintro (⟨-, younger⟩ | ⟨txn, done, same, -⟩)
        · exact Or.inr ⟨gone, List.mem_cons_self, rfl, younger, now ▸ bound⟩
        · exact absurd (same ▸ live) (ok.finishedBound txn done).2.2.2
      · rintro (⟨stayed, -⟩ | ⟨txn, done, same, younger, -⟩)
        · exact absurd stayed stays
        · exact Or.inl ⟨live, same ▸ younger⟩
    · have others : xid ∈ mgr.liveRootIds.erase gone.xid ↔ xid ∈ mgr.liveRootIds := by
        rw [distinct.mem_erase_iff]
        exact ⟨fun member => member.2, fun member => ⟨same, member⟩⟩
      simp only [others, List.exists_mem_cons_iff, Ne.symm same, false_and, false_or]
  heldSorted := ok.heldSorted
  apart snapshot member := by
    obtain ⟨free, others⟩ := ok.apart snapshot member
    refine ⟨fun held => free (List.mem_of_mem_erase held), fun txn done same => ?_⟩
    rcases List.mem_cons.mp done with rfl | old
    · exact free (same ▸ live)
    · exact others txn old same
  finishedBound txn done := by
    have distinct : mgr.liveRootIds.Nodup := ok.liveSorted.imp fun before => Nat.ne_of_lt before
    rcases List.mem_cons.mp done with rfl | old
    · have bound := ok.liveBound _ live
      refine ⟨bound.1, now ▸ bound.2, now ▸ later, ?_⟩
      rw [distinct.mem_erase_iff]
      exact fun member => member.1 rfl
    · have bound := ok.finishedBound txn old
      exact ⟨bound.1, bound.2.1, Nat.le_trans bound.2.2.1 later,
        fun held => bound.2.2.2 (List.mem_of_mem_erase held)⟩
  finishedOnce := by
    refine List.nodup_cons.mpr ⟨fun known => ?_, ok.finishedOnce⟩
    obtain ⟨txn, done, same⟩ := List.mem_map.mp known
    exact (ok.finishedBound txn done).2.2.2 (same ▸ live)
  finishedOrder := List.pairwise_cons.mpr ⟨fun txn done =>
    now ▸ (ok.finishedBound txn done).2.2.1, ok.finishedOrder⟩
  referencedSorted := sorted
  referenced tuple := by
    rw [members tuple, ok.referenced tuple]
    simp only [List.exists_mem_cons_iff]

/-- A root that leaves is remembered exactly while recorded snapshots hold it. -/
theorem ManagerOk.leaveLiveRoots_eq (ok : ManagerOk mgr finished) {txn : TokuTxn}
    (live : txn.parentId64 ∈ mgr.liveRootIds) (committed : Bool) :
    ∃ after, mgr.leaveLiveRoots txn = some after ∧
      after.snapshots = mgr.snapshots ∧
      after.liveRootIds = mgr.liveRootIds.erase txn.parentId64 ∧
      mgr.lastXid ≤ after.lastXid ∧
      ManagerOk after ({ xid := txn.parentId64, readOnly := txnIsReadOnly txn, committed,
                         lastXid := mgr.lastXid } :: finished) := by
  have inside : txn.parentId64 ∈ mgr.liveRootTxns := by rw [ok.sameIds]; exact live
  have place : mgr.liveRootTxns.idxOf txn.parentId64 < mgr.liveRootTxns.length :=
    List.idxOf_lt_length_iff.mpr inside
  have taken (ids : List Nat) : ids.eraseIdx (ids.idxOf txn.parentId64) =
      ids.erase txn.parentId64 := (List.erase_eq_eraseIdx_of_idxOf rfl).symm
  have found := ok.numReferences_eq live
  let gone : FinishedTxn := { xid := txn.parentId64, readOnly := txnIsReadOnly txn, committed,
                              lastXid := mgr.lastXid }
  let new : ReferencedXidTuple := { beginId := gone.xid, endId := gone.lastXid + 1,
                                    references := holders mgr.snapshots gone.xid }
  have here : gone.xid ∈ mgr.liveRootIds := live
  unfold TxnManager.leaveLiveRoots
  simp only [place, invariant_of, bind_runs, found]
  rw [taken, show mgr.liveRootTxns.idxOf txn.parentId64 = mgr.liveRootIds.idxOf txn.parentId64 by
    rw [ok.sameIds], taken]
  by_cases readOnly : txnIsReadOnly txn = true
  · -- A transaction that did nothing leaves no record that a reader could ask about.
    rw [if_pos readOnly]
    have unwritten : gone.readOnly = true := readOnly
    exact ⟨_, rfl, rfl, rfl, Nat.le_refl _, ok.left here rfl (Nat.le_refl _) ok.referencedSorted
      fun tuple => by simp [unwritten]⟩
  · rw [if_neg readOnly]
    have wrote : gone.readOnly = false := by simpa [gone] using readOnly
    by_cases held : 0 < holders mgr.snapshots txn.parentId64
    · rw [if_pos held]
      have fresh : ∀ other ∈ mgr.referencedXids, other.beginId ≠ new.beginId := by
        intro other member same
        obtain ⟨done, finishes, -, -, rfl⟩ := (ok.referenced other).mp member
        have alike : done.xid = txn.parentId64 := same
        exact (ok.finishedBound done finishes).2.2.2 (alike ▸ live)
      obtain ⟨inserted, placed, ordered, members⟩ :=
        insertReferencedXid_eq fresh ok.referencedSorted
      have holding : 0 < holders mgr.snapshots gone.xid := held
      rw [show insertReferencedXid _ mgr.referencedXids = some inserted from placed]
      exact ⟨_, rfl, rfl, rfl, Nat.le_succ _, ok.left here rfl (Nat.le_succ _) ordered
        fun tuple => by rw [members tuple]; simp [wrote, holding, new]⟩
    · rw [if_neg held]
      have unheld : ¬0 < holders mgr.snapshots gone.xid := held
      exact ⟨_, rfl, rfl, rfl, Nat.le_refl _, ok.left here rfl (Nat.le_refl _)
        ok.referencedSorted fun tuple => by simp [unheld]⟩

end Tokuft
