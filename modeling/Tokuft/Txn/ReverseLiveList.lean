import Tokuft.Txn.WorldLaws

/-! The reverse live list says, for each finished writer, which recorded snapshots hold it. -/

namespace Tokuft

/-- The youngest recorded snapshot whose list holds a transaction, or none. -/
def TxnManager.youngestHolder (mgr : TxnManager) (xid : Nat) : Option Nat :=
  (mgr.snapshots.filter fun snapshot => snapshot.liveRootTxnList.contains xid).getLast?.map
    Snapshot.snapshotTxnid64

/-- The last item that passes a test is the last that passes a stricter one, if it passes both. -/
theorem getLast?_filter_stricter {Item : Type} {loose strict : Item → Bool} {items : List Item}
    {last : Item} (stricter : ∀ item ∈ items, strict item = true → loose item = true)
    (found : (items.filter loose).getLast? = some last) (passes : strict last = true) :
    (items.filter strict).getLast? = some last := by
  have twice : items.filter strict = (items.filter loose).filter strict := by
    rw [List.filter_filter]
    refine List.filter_congr fun item member => ?_
    cases passed : strict item with
    | false => rfl
    | true => simp [stricter item member passed]
  obtain ⟨front, shape⟩ := List.getLast?_eq_some_iff.mp found
  rw [twice, shape, List.filter_append]
  simp [passes]

/-- In increasing order nothing comes after the last. -/
theorem le_getLast?_of_sorted {Item : Type} {rank : Item → Nat} {items : List Item}
    {item last : Item} (sorted : items.Pairwise fun earlier later => rank earlier < rank later)
    (found : items.getLast? = some last) (member : item ∈ items) : rank item ≤ rank last := by
  obtain ⟨front, rfl⟩ := List.getLast?_eq_some_iff.mp found
  rcases List.mem_append.mp member with before | final
  · exact Nat.le_of_lt
      ((List.pairwise_append.mp sorted).2.2 item before last (List.mem_singleton_self last))
  · exact Nat.le_of_eq (congrArg rank (List.mem_singleton.mp final))

variable {mgr : TxnManager} {finished : List FinishedTxn}

/-- A transaction that no recorded snapshot holds has no youngest holder. -/
theorem youngestHolder_none {xid : Nat}
    (free : ∀ snapshot ∈ mgr.snapshots, xid ∉ snapshot.liveRootTxnList) :
    mgr.youngestHolder xid = none := by
  have none : mgr.snapshots.filter (fun snapshot => snapshot.liveRootTxnList.contains xid) = [] :=
    List.filter_eq_nil_iff.mpr fun snapshot member held =>
      free snapshot member (List.contains_iff_mem.mp held)
  rw [TxnManager.youngestHolder, none]
  rfl

section

variable (ok : ManagerOk mgr finished)
include ok

/-- The tuple that belongs to an identifier is found by it. -/
theorem ManagerOk.findTuple {tuple : ReferencedXidTuple} (member : tuple ∈ mgr.referencedXids) :
    findTupleByXid mgr.referencedXids tuple.beginId = some tuple := by
  have some : (mgr.referencedXids.find? (·.beginId == tuple.beginId)).isSome :=
    List.find?_isSome.mpr ⟨tuple, member, beq_self_eq_true _⟩
  obtain ⟨other, found⟩ := Option.isSome_iff_exists.mp some
  have same : other.beginId = tuple.beginId := by simpa using List.find?_some found
  -- Both tuples belong to the one transaction with this identifier.
  obtain ⟨txn, done, -, -, shape⟩ := (ok.referenced tuple).mp member
  obtain ⟨rival, rivals, -, -, rivalShape⟩ :=
    (ok.referenced other).mp (List.mem_of_find?_eq_some found)
  have alike : rival = txn := by
    refine ok.finished_eq rivals done ?_
    rw [shape, rivalShape] at same
    exact same
  rw [findTupleByXid, found, shape, rivalShape, alike]

/-- A finished writer that is held has its youngest holder found. -/
theorem ManagerOk.youngest_held {txn : FinishedTxn} (done : txn ∈ finished)
    (wrote : txn.readOnly = false) (held : 0 < holders mgr.snapshots txn.xid) :
    getYoungestLiveListTxnidFor txn.xid mgr.snapshotXids mgr.referencedXids =
      (mgr.youngestHolder txn.xid).getD txnidNone := by
  have found := ok.findTuple ((ok.referenced _).mpr ⟨txn, done, wrote, held, rfl⟩)
  -- The last snapshot before the end of the transaction is the youngest that holds it.
  obtain ⟨holder, member, holds⟩ := List.countP_pos_iff.mp held
  have within := (ok.holds_finished done member).mp (List.contains_iff_mem.mp holds)
  have inside : holder ∈ mgr.snapshots.filter (fun snapshot =>
      decide (snapshot.snapshotTxnid64 < txn.lastXid + 1)) :=
    List.mem_filter.mpr ⟨member, decide_eq_true (Nat.lt_succ_of_le within.2)⟩
  obtain ⟨last, final⟩ := Option.isSome_iff_exists.mp
    (List.getLast?_isSome.mpr (List.ne_nil_of_mem inside))
  have lastInside := List.mem_filter.mp (List.mem_of_getLast? final)
  have lastEarly : last.snapshotTxnid64 ≤ txn.lastXid :=
    Nat.le_of_lt_succ (of_decide_eq_true lastInside.2)
  have lastLate : txn.xid < last.snapshotTxnid64 :=
    Nat.lt_of_lt_of_le within.1 (le_getLast?_of_sorted (ok.snapshotsSorted.filter _) final inside)
  have youngest := getLast?_filter_stricter (fun snapshot member passes =>
      decide_eq_true (Nat.lt_succ_of_le
        ((ok.holds_finished done member).mp (List.contains_iff_mem.mp passes)).2))
    final (List.contains_iff_mem.mpr
      ((ok.holds_finished done lastInside.1).mpr ⟨lastLate, lastEarly⟩))
  have below : youngestBelow mgr.snapshotXids (txn.lastXid + 1) = some last.snapshotTxnid64 := by
    rw [youngestBelow, TxnManager.snapshotXids, List.filter_map, List.getLast?_map]
    exact congrArg _ final
  rw [getYoungestLiveListTxnidFor, found, TxnManager.youngestHolder, youngest]
  simp only [below, if_pos lastLate, Option.map_some, Option.getD_some]

/-- Only the tuples of finished writers are found. -/
theorem ManagerOk.findTuple_none {xid : Nat}
    (unlisted : ∀ txn ∈ finished, txn.xid = xid → txn.readOnly = false →
      holders mgr.snapshots xid = 0) :
    findTupleByXid mgr.referencedXids xid = none := by
  refine List.find?_eq_none.mpr fun tuple member same => ?_
  obtain ⟨txn, done, wrote, held, rfl⟩ := (ok.referenced tuple).mp member
  have alike : txn.xid = xid := by simpa using same
  have free := unlisted txn done alike wrote
  rw [alike] at held
  omega

/--
The youngest snapshot that holds a transaction is found for every finished writer.

A live transaction has no tuple yet, and one that did no work never gets one.
-/
theorem ManagerOk.youngest_eq (xc : Nat) :
    getYoungestLiveListTxnidFor xc mgr.snapshotXids mgr.referencedXids =
      if xc ∈ mgr.liveRootIds ∨ ∃ txn ∈ finished, txn.xid = xc ∧ txn.readOnly = true
      then txnidNone else (mgr.youngestHolder xc).getD txnidNone := by
  have unfound (none : findTupleByXid mgr.referencedXids xc = none) :
      getYoungestLiveListTxnidFor xc mgr.snapshotXids mgr.referencedXids = txnidNone := by
    rw [getYoungestLiveListTxnidFor, none]
  split
  · -- No finished writer has this identifier.
    rename_i excused
    refine unfound (ok.findTuple_none fun txn done same wrote => ?_)
    rcases excused with live | ⟨other, others, alike, idle⟩
    · exact absurd (same ▸ live) (ok.finishedBound txn done).2.2.2
    · rw [ok.finished_eq done others (same.trans alike.symm), idle] at wrote
      cases wrote
  · rename_i due
    by_cases held : 0 < holders mgr.snapshots xc
    · -- Somebody holds the transaction, so it has finished and it wrote.
      obtain ⟨holder, member, holds⟩ := List.countP_pos_iff.mp held
      rcases (ok.holds holder member xc).mp (List.contains_iff_mem.mp holds) with
        ⟨live, -⟩ | ⟨txn, done, rfl, -⟩
      · exact absurd (Or.inl live) due
      · have wrote : txn.readOnly = false := by
          cases idle : txn.readOnly with
          | false => rfl
          | true => exact absurd (Or.inr ⟨txn, done, rfl, idle⟩) due
        exact ok.youngest_held done wrote held
    · have free : holders mgr.snapshots xc = 0 := by omega
      rw [unfound (ok.findTuple_none fun _ _ _ _ => free),
        youngestHolder_none fun snapshot member holds => ?_]
      · rfl
      · exact held (List.countP_pos_iff.mpr ⟨snapshot, member, List.contains_iff_mem.mpr holds⟩)

/-- The tuples are those of the finished writers that some snapshot holds, one for each. -/
theorem ManagerOk.referenced_iff (xid : Nat) :
    xid ∈ mgr.referencedXids.map ReferencedXidTuple.beginId ↔
      (∃ txn ∈ finished, txn.xid = xid ∧ txn.readOnly = false) ∧
        ∃ snapshot ∈ mgr.snapshots, xid ∈ snapshot.liveRootTxnList := by
  -- The references of a tuple are counted by its holders.
  have holding (xid : Nat) : 0 < holders mgr.snapshots xid ↔
      ∃ snapshot ∈ mgr.snapshots, xid ∈ snapshot.liveRootTxnList := by
    simp [holders, List.countP_pos_iff]
  rw [List.mem_map, ← holding]
  constructor
  · rintro ⟨tuple, member, rfl⟩
    obtain ⟨txn, done, wrote, held, rfl⟩ := (ok.referenced tuple).mp member
    exact ⟨⟨txn, done, rfl, wrote⟩, held⟩
  · rintro ⟨⟨txn, done, rfl, wrote⟩, held⟩
    exact ⟨_, (ok.referenced _).mpr ⟨txn, done, wrote, held, rfl⟩, rfl⟩

/-- A tuple counts its holders, which lie between its two identifiers. -/
theorem ManagerOk.tuple_exact {tuple : ReferencedXidTuple} (member : tuple ∈ mgr.referencedXids) :
    tuple.references = holders mgr.snapshots tuple.beginId ∧
      ∀ snapshot ∈ mgr.snapshots, tuple.beginId ∈ snapshot.liveRootTxnList →
        tuple.beginId < snapshot.snapshotTxnid64 ∧ snapshot.snapshotTxnid64 < tuple.endId := by
  obtain ⟨txn, done, -, -, rfl⟩ := (ok.referenced tuple).mp member
  refine ⟨rfl, fun snapshot inside holds => ?_⟩
  have within := (ok.holds_finished done inside).mp holds
  exact ⟨within.1, Nat.lt_succ_of_le within.2⟩

end

/--
The books of the manager are exact after every run of starts and ends.

The last part leaves out a transaction that ended without having done any work.
Snapshots may hold it, but it wrote nothing that anyone could ask about.
-/
theorem reverseLiveList_exact {events : List TxnEvent} {world : TxnWorld}
    (run : TxnWorld.Reaches events world) :
    (world.mgr.liveRootTxns = world.mgr.liveRootIds ∧ world.mgr.liveRootIds.Pairwise (· < ·)) ∧
    (world.mgr.snapshotXids.Pairwise (· < ·) ∧
      world.mgr.numSnapshots = world.mgr.snapshots.length) ∧
    ((world.mgr.referencedXids.map ReferencedXidTuple.beginId).Nodup ∧
      (∀ xid, xid ∈ world.mgr.referencedXids.map ReferencedXidTuple.beginId ↔
        (∃ txn ∈ world.finished, txn.xid = xid ∧ txn.readOnly = false) ∧
          ∃ snapshot ∈ world.mgr.snapshots, xid ∈ snapshot.liveRootTxnList) ∧
      ∀ tuple ∈ world.mgr.referencedXids,
        tuple.references = holders world.mgr.snapshots tuple.beginId ∧
        ∀ snapshot ∈ world.mgr.snapshots, tuple.beginId ∈ snapshot.liveRootTxnList →
          tuple.beginId < snapshot.snapshotTxnid64 ∧ snapshot.snapshotTxnid64 < tuple.endId) ∧
    ∀ xc, getYoungestLiveListTxnidFor xc world.mgr.snapshotXids world.mgr.referencedXids =
      if xc ∈ world.mgr.liveRootIds ∨
        ∃ txn ∈ world.finished, txn.xid = xc ∧ txn.readOnly = true
      then txnidNone else (world.mgr.youngestHolder xc).getD txnidNone := by
  have ok := run.ok.manager
  have ordered : (world.mgr.referencedXids.map ReferencedXidTuple.beginId).Pairwise (· < ·) :=
    List.pairwise_map.mpr ok.referencedSorted
  exact ⟨⟨ok.sameIds, ok.liveSorted⟩,
    ⟨List.pairwise_map.mpr ok.snapshotsSorted, ok.snapshotsCounted⟩,
    ⟨ordered.imp fun before => Nat.ne_of_lt before, ok.referenced_iff,
      fun _ member => ok.tuple_exact member⟩, ok.youngest_eq⟩

/-- A writer ends under three snapshots, and the youngest of them is found for it. -/
theorem reverseLiveList_exact_overlapping :
    ∃ world : TxnWorld,
      world.mgr.referencedXids = [{ beginId := 1, endId := 7, references := 3 }] ∧
      getYoungestLiveListTxnidFor 1 world.mgr.snapshotXids world.mgr.referencedXids =
        (world.mgr.youngestHolder 1).getD txnidNone := by
  have run : TxnWorld.Reaches [.beginRoot .none false, .logBegin 1, .beginRoot .root false,
      .beginChild 2, .beginRoot .child true, .beginChild 4, .noteCommit 1, .completeRoot 1] _ :=
    Runs.of_foldlM rfl
  exact ⟨_, rfl, ((reverseLiveList_exact run).2.2.2 1).trans rfl⟩

/-- A root that did no work is held by a snapshot, and no youngest holder is found for it. -/
theorem youngest_misses_idle :
    ∃ world, TxnWorld.Reaches
        [.beginRoot .none false, .beginRoot .root false, .noteCommit 1, .completeRoot 1] world ∧
      1 ∉ world.mgr.liveRootIds ∧ world.mgr.youngestHolder 1 = some 3 ∧
      getYoungestLiveListTxnidFor 1 world.mgr.snapshotXids world.mgr.referencedXids = txnidNone :=
  ⟨_, Runs.of_foldlM rfl, by decide, rfl, rfl⟩

end Tokuft
