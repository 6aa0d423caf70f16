import Tokuft.Leafentry.Read
import Tokuft.Txn.Later

/-! A reader of a recorded snapshot reads what had finished when the snapshot was created. -/

namespace Tokuft

/-- Whether a transaction reads from a recorded snapshot, its own or its root's. -/
def TokuTxn.readsSnapshot (txn : TokuTxn) : Bool :=
  txn.snapshotType == .root || txn.snapshotType == .child

/-- Readers of a recorded snapshot have a list, and those of one root snapshot share it. -/
def SharesSnapshot (chain : List TokuTxn) : Prop :=
  ∀ txn ∈ chain, txn.readsSnapshot = true → txn.liveRootTxnList.isSome ∧
    (txn.snapshotType = .root → ∀ other ∈ chain, other.snapshotTxnid64 = txn.snapshotTxnid64 ∧
      other.liveRootTxnList = txn.liveRootTxnList)

/-- Every root's open transactions share their snapshots as they should. -/
def TxnWorld.Shares (world : TxnWorld) : Prop := ∀ root, SharesSnapshot (world.txns root)

variable {world : TxnWorld} {root : Nat}

/-- A step that leaves what is read alone keeps the snapshots shared. -/
theorem SharesSnapshot.map {chain : List TokuTxn} (shares : SharesSnapshot chain)
    {change : TokuTxn → TokuTxn}
    (kind : ∀ txn, (change txn).snapshotType = txn.snapshotType)
    (read : ∀ txn, (change txn).snapshotTxnid64 = txn.snapshotTxnid64 ∧
      (change txn).liveRootTxnList = txn.liveRootTxnList) :
    SharesSnapshot (chain.map change) := by
  simpa [SharesSnapshot, TokuTxn.readsSnapshot, kind, read] using shares

/-- Without a reader of a recorded snapshot nothing is to be shared. -/
theorem SharesSnapshot.copies {chain : List TokuTxn}
    (copies : ∀ txn ∈ chain, txn.snapshotType = .copies) : SharesSnapshot chain := by
  intro txn member reads
  rw [TokuTxn.readsSnapshot, copies txn member] at reads
  cases reads

/-- The transactions around the innermost one share what they shared with it. -/
theorem SharesSnapshot.tail {txn : TokuTxn} {outer : List TokuTxn}
    (shares : SharesSnapshot (txn :: outer)) : SharesSnapshot outer := by
  intro other member reads
  obtain ⟨copied, alike⟩ := shares other (List.mem_cons_of_mem _ member) reads
  exact ⟨copied, fun kind one inside => alike kind one (List.mem_cons_of_mem _ inside)⟩

/-- A root transaction that reads a recorded snapshot starts with its list. -/
theorem startTxn_shares (mgr : TxnManager) (snapshotType : TxnSnapshotType) (readOnly : Bool) :
    SharesSnapshot [(mgr.startTxn (.create snapshotType readOnly) snapshotType readOnly).2] := by
  intro txn member reads
  rw [List.mem_singleton.mp member] at reads ⊢
  refine ⟨?_, fun _ other alone => by rw [List.mem_singleton.mp alone]; exact ⟨rfl, rfl⟩⟩
  cases snapshotType with
  | none => cases reads
  | copies => cases reads
  | root => rfl
  | child => rfl

/-- A child transaction shares its parent's snapshot or has one of its own. -/
theorem TxnWorld.Ok.beginChild_shares (ok : world.Ok) {parent : TokuTxn}
    {outer chain : List TokuTxn}
    {mgr : TxnManager} {childXid : Nat} (found : world.txns root = parent :: outer)
    (shares : SharesSnapshot (parent :: outer))
    (create : world.mgr.handleSnapshotCreateForChildTxn (parent.createChild childXid) parent
      outer = some (mgr, chain)) : SharesSnapshot chain := by
  have chained := ok.chains root
  rw [found] at chained
  have kinds : ∀ txn ∈ parent :: outer, txn.snapshotType = parent.snapshotType :=
    fun txn member => (chained.sameKind txn member parent List.mem_cons_self).2
  have alike : (parent.createChild childXid).snapshotType = parent.snapshotType := rfl
  rcases TxnManager.createForChild_cases create with
    ⟨records, -, rfl⟩ | ⟨records, copies, -, rfl⟩ | ⟨-, -, -, rfl⟩
  · -- Every transaction of this kind has a snapshot of its own.
    rw [alike] at records
    have isChild : parent.snapshotType = .child := by
      cases kind : parent.snapshotType <;> rw [kind] at records <;>
        first | rfl | cases records
    intro txn member reads
    rcases List.mem_cons.mp member with rfl | old
    · exact ⟨rfl, fun isRoot => nomatch (alike.trans isChild).symm.trans isRoot⟩
    · refine ⟨(shares txn old reads).1, fun isRoot => ?_⟩
      rw [kinds txn old, isChild] at isRoot
      cases isRoot
  · -- The kind that copies its list records nothing.
    rw [alike] at records copies
    have isCopy : parent.snapshotType = .copies := by
      simpa [txnCopiesSnapshot, records] using copies
    refine .copies fun txn member => ?_
    obtain ⟨other, inside, rfl⟩ := List.mem_map.mp member
    rcases List.mem_cons.mp inside with rfl | old
    · exact isCopy
    · exact (kinds other old).trans isCopy
  · -- The child inherits what its parent reads.
    intro txn member reads
    have inherited : ∃ other ∈ parent :: outer, other.snapshotType = txn.snapshotType ∧
        other.snapshotTxnid64 = txn.snapshotTxnid64 ∧
        other.liveRootTxnList = txn.liveRootTxnList := by
      rcases List.mem_cons.mp member with rfl | old
      · exact ⟨parent, List.mem_cons_self, rfl, rfl, rfl⟩
      · exact ⟨txn, old, rfl, rfl, rfl⟩
    obtain ⟨other, inside, kind, stamp, list⟩ := inherited
    obtain ⟨copied, alike⟩ := shares other inside (by
      rw [TokuTxn.readsSnapshot, kind]; exact reads)
    rw [← list, ← kind, ← stamp]
    refine ⟨copied, fun isRoot one belongs => ?_⟩
    rcases List.mem_cons.mp belongs with rfl | old
    · exact alike isRoot parent List.mem_cons_self
    · exact alike isRoot one old

/-- A step that changes the transactions of one root has only these to account for. -/
theorem TxnWorld.Shares.update (shares : world.Shares) {chain : List TokuTxn}
    (changed : SharesSnapshot chain) :
    ∀ other, SharesSnapshot (Function.update world.txns root chain other) := by
  intro other
  by_cases here : other = root
  · subst here
    rwa [Function.update_self]
  · rw [Function.update_of_ne here]
    exact shares other

/-- Noting the end of a root transaction changes nothing that it reads. -/
theorem TxnWorld.Shares.note (shares : world.Shares) {state : TokuTxnState} {after : TxnWorld}
    (taken : world.note root state = some after) : after.Shares := by
  obtain ⟨txn, found, -, rfl⟩ := TxnWorld.note_inv taken
  have old : SharesSnapshot [txn] := found ▸ shares root
  have noted := @SharesSnapshot.map _ old (fun txn => { txn with state }) (fun _ => rfl)
    fun _ => ⟨rfl, rfl⟩
  exact shares.update noted

/-- Every step keeps the snapshots shared. -/
theorem TxnWorld.Shares.step (shares : world.Shares) (ok : world.Ok) {event : TxnEvent}
    {after : TxnWorld} (taken : world.next event = some after) : after.Shares := by
  -- One case for each event.
  cases event with
  | beginRoot snapshotType readOnly =>
    cases taken
    exact shares.update (startTxn_shares world.mgr snapshotType readOnly)
  | beginChild root =>
    obtain ⟨parent, outer, mgr, chain, found, -, -, create, rfl⟩ := TxnWorld.beginChild_inv taken
    exact shares.update (ok.beginChild_shares found (found ▸ shares root) create)
  | logBegin root =>
    obtain ⟨txn, outer, found, -, -, rfl⟩ := TxnWorld.logBegin_inv taken
    have old : SharesSnapshot (txn :: outer) := found ▸ shares root
    exact shares.update (old.map (fun _ => rfl) fun _ => ⟨rfl, rfl⟩)
  | noteCommit root => exact shares.note taken
  | noteAbort root => exact shares.note taken
  | completeChild root =>
    obtain ⟨child, parent, outer, mgr, chain, found, destroy, rfl⟩ :=
      TxnWorld.completeChild_inv taken
    have old : SharesSnapshot (child :: parent :: outer) := found ▸ shares root
    have chained := ok.chains root
    rw [found] at chained
    refine shares.update ?_
    rcases TxnManager.destroyForChild_cases destroy with
      ⟨-, -, rfl⟩ | ⟨records, copies, -, rfl⟩ | ⟨-, -, -, rfl⟩
    · exact old.tail
    · have isCopy : child.snapshotType = .copies := by
        simpa [txnCopiesSnapshot, records] using copies
      refine .copies fun txn member => ?_
      obtain ⟨other, inside, rfl⟩ := List.mem_map.mp member
      exact (chained.sameKind other (List.mem_cons_of_mem _ inside) child
        List.mem_cons_self).2.trans isCopy
    · exact old.tail
  | completeRoot root =>
    simp only [TxnWorld.next, TxnWorld.completeRoot] at taken
    split at taken
    · simp only [bind_inv] at taken
      obtain ⟨-, -, mgr, -, rfl⟩ := taken
      exact shares.update (List.forall_mem_nil _)
    · cases taken

/-- A reader of a recorded snapshot finds that snapshot among the recorded ones. -/
theorem TxnWorld.Ok.snapshotOf (ok : world.Ok) (shares : world.Shares) {reader : TokuTxn}
    (opened : reader ∈ world.txns root) (reads : reader.readsSnapshot = true) :
    ∃ snapshot ∈ world.mgr.snapshots, snapshot.snapshotTxnid64 = reader.snapshotTxnid64 ∧
      reader.liveRootTxnList = some snapshot.liveRootTxnList := by
  have chained := ok.chains root
  obtain ⟨copied, alike⟩ := shares root reader opened reads
  -- Whoever records the snapshot has it in the manager's list.
  have entered : ∀ txn ∈ world.txns root, txn.recorded = true →
      txn.snapshot ∈ world.mgr.snapshots := by
    intro txn member recorded
    have own : txn.snapshot.owner.1 = root := chained.own txn member
    exact (ok.recorded txn.snapshot).mpr ⟨txn, own.symm ▸ member, recorded, rfl⟩
  have list {txn : TokuTxn} (copied : txn.liveRootTxnList.isSome) :
      txn.liveRootTxnList = some txn.snapshot.liveRootTxnList := by
    obtain ⟨liveList, found⟩ := Option.isSome_iff_exists.mp copied
    rw [TokuTxn.snapshot, found]
    rfl
  cases kind : reader.snapshotType with
  | none => rw [TokuTxn.readsSnapshot, kind] at reads; cases reads
  | copies => rw [TokuTxn.readsSnapshot, kind] at reads; cases reads
  | child =>
    have recorded : reader.recorded = true := by rw [TokuTxn.recorded, kind]; rfl
    exact ⟨reader.snapshot, entered reader opened recorded, rfl, list copied⟩
  | root =>
    obtain ⟨last, final⟩ : ∃ last, (world.txns root).getLast? = some last :=
      Option.isSome_iff_exists.mp (List.getLast?_isSome.mpr (List.ne_nil_of_mem opened))
    have member := List.mem_of_getLast? final
    have isRoot : last.childId64 = txnidNone := chained.rootLast last final
    have recorded : last.recorded = true := by
      rw [TokuTxn.recorded, isRoot, (chained.sameKind last member reader opened).2, kind]
      rfl
    obtain ⟨stamp, same⟩ := alike kind last member
    refine ⟨last.snapshot, entered last member recorded, stamp, ?_⟩
    rw [← same]
    exact list (same ▸ copied)

/-- Whether a root had finished when a snapshot was created; no transaction at all always had. -/
def TxnWorld.finishedBefore (world : TxnWorld) (snapshotXid xid : Nat) : Bool :=
  xid == txnidNone || world.finished.any fun txn =>
    txn.xid == xid && decide (txn.lastXid < snapshotXid)

/-- Whether an identifier may stand in a record: that of a root that started, or none. -/
def TxnWorld.Known (world : TxnWorld) (xid : Nat) : Prop :=
  xid = txnidNone ∨ xid ∈ world.mgr.liveRootIds ∨ ∃ txn ∈ world.finished, txn.xid = xid

/-- For a finished root the last identifier at its end decides. -/
theorem TxnWorld.Ok.finishedBefore_finished (ok : world.Ok) {txn : FinishedTxn}
    (done : txn ∈ world.finished) (snapshotXid : Nat) :
    world.finishedBefore snapshotXid txn.xid = decide (txn.lastXid < snapshotXid) := by
  have positive : ¬txn.xid = txnidNone := Nat.ne_of_gt (ok.manager.finishedBound txn done).1
  rw [TxnWorld.finishedBefore, beq_eq_false_iff_ne.mpr positive, Bool.false_or, Bool.eq_iff_iff,
    List.any_eq_true, decide_eq_true_eq]
  constructor
  · rintro ⟨other, others, both⟩
    simp only [Bool.and_eq_true, beq_iff_eq, decide_eq_true_eq] at both
    exact ok.manager.finished_eq others done both.1 ▸ both.2
  · intro early
    exact ⟨txn, done, by simpa using early⟩

/-- A live root has not finished before any snapshot. -/
theorem TxnWorld.Ok.finishedBefore_live (ok : world.Ok) {xid : Nat}
    (live : xid ∈ world.mgr.liveRootIds) (snapshotXid : Nat) :
    world.finishedBefore snapshotXid xid = false := by
  have positive : ¬xid = txnidNone := Nat.ne_of_gt (ok.manager.liveBound xid live).1
  rw [TxnWorld.finishedBefore, beq_eq_false_iff_ne.mpr positive, Bool.false_or,
    List.any_eq_false]
  rintro other others both
  simp only [Bool.and_eq_true, beq_iff_eq] at both
  exact (ok.manager.finishedBound other others).2.2.2 (both.1 ▸ live)

/-- A recorded snapshot holds a root, or the root had finished, or it is younger. -/
theorem TxnWorld.Ok.finishedBefore_iff (ok : world.Ok) {snapshot : Snapshot}
    (member : snapshot ∈ world.mgr.snapshots) {xid : Nat} (known : world.Known xid) :
    world.finishedBefore snapshot.snapshotTxnid64 xid = true ↔
      xid ≤ snapshot.snapshotTxnid64 ∧ xid ∉ snapshot.liveRootTxnList := by
  rcases known with rfl | live | ⟨txn, done, rfl⟩
  · -- No transaction at all is in no list.
    refine iff_of_true rfl ⟨Nat.zero_le _, fun held => ?_⟩
    rcases (ok.manager.holds snapshot member _).mp held with ⟨live, -⟩ | ⟨txn, done, none, -⟩
    · exact Nat.lt_irrefl 0 (ok.manager.liveBound _ live).1
    · have positive := (ok.manager.finishedBound txn done).1
      rw [none] at positive
      exact Nat.lt_irrefl 0 positive
  · -- A live root that is older is held.
    rw [ok.finishedBefore_live live]
    refine iff_of_false Bool.false_ne_true ?_
    rintro ⟨older, free⟩
    refine free ((ok.manager.holds snapshot member xid).mpr (Or.inl ⟨live, ?_⟩))
    refine Nat.lt_of_le_of_ne older fun same => ?_
    exact (ok.manager.apart snapshot member).1 (same ▸ live)
  · have bound := ok.manager.finishedBound txn done
    rw [ok.finishedBefore_finished done, decide_eq_true_eq,
      ok.manager.holds_finished done member, FinishedTxn.heldBy]
    have apart := (ok.manager.apart snapshot member).2 txn done
    constructor
    · intro early
      omega
    · rintro ⟨older, free⟩
      have strict : txn.xid < snapshot.snapshotTxnid64 := Nat.lt_of_le_of_ne older apart
      by_contra late
      exact free ⟨strict, Nat.le_of_not_lt late⟩

/--
What a reader of a recorded snapshot is told about a root that has written.

It reads its own root and those that had finished when the snapshot was created.
-/
theorem TxnWorld.Ok.reads_eq (ok : world.Ok) (shares : world.Shares) {reader : TokuTxn}
    (opened : reader ∈ world.txns root) (reads : reader.readsSnapshot = true) {xid : Nat}
    (known : world.Known xid) :
    tokuTxnReadsTxnid false xid reader =
      some (xid == root || world.finishedBefore reader.snapshotTxnid64 xid) := by
  obtain ⟨snapshot, member, stamp, list⟩ := ok.snapshotOf shares opened reads
  have own : reader.parentId64 = root := (ok.chains root).own reader opened
  have decided := ok.finishedBefore_iff member known
  have sorted := ok.manager.heldSorted snapshot member
  have older : ∀ held ∈ snapshot.liveRootTxnList, held < snapshot.snapshotTxnid64 := by
    intro held inside
    rcases (ok.manager.holds snapshot member held).mp inside with ⟨-, older⟩ | ⟨txn, -, rfl, within⟩
    · exact older
    · exact within.1
  have below := @lt_head_iff_of_sorted xid _ sorted
  simp only [tokuTxnReadsTxnid, Bool.false_eq_true, if_false, list, Option.bind_eq_bind,
    Option.bind_some, own, ← stamp]
  cases finished : world.finishedBefore snapshot.snapshotTxnid64 xid with
  | true =>
    -- Whichever comparison is made first, none of them refuses.
    obtain ⟨notYounger, free⟩ := decided.mp finished
    have accepted : ¬(snapshot.snapshotTxnid64 < xid ∨
        isTxnInLiveRootTxnList snapshot.liveRootTxnList xid = true) := by
      rintro (younger | held)
      · omega
      · exact free (List.contains_iff_mem.mp held)
    rw [Bool.or_true, if_neg accepted]
    split
    · rfl
    · split <;> rfl
  | false =>
    have refused : snapshot.snapshotTxnid64 < xid ∨ xid ∈ snapshot.liveRootTxnList := by
      by_contra neither
      obtain ⟨notYounger, free⟩ := not_or.mp neither
      rw [decided.mpr ⟨Nat.le_of_not_lt notYounger, free⟩] at finished
      cases finished
    -- The shortcuts are taken only by what the comparisons would accept.
    have notOlder : ¬xid < getOldestInLiveRootTxnList snapshot.liveRootTxnList := by
      intro early
      obtain ⟨some, all⟩ := below.mp early
      obtain ⟨held, inside⟩ := List.exists_mem_of_ne_nil _ some
      rcases refused with younger | here
      · exact Nat.lt_irrefl xid (Nat.lt_trans (all held inside)
          (Nat.lt_trans (older held inside) younger))
      · exact Nat.lt_irrefl xid (all xid here)
    have notEmpty : ¬(getOldestInLiveRootTxnList snapshot.liveRootTxnList = txnidNone ∧
        xid < snapshot.snapshotTxnid64) := by
      rintro ⟨none, early⟩
      rcases refused with younger | held
      · exact Nat.lt_irrefl xid (Nat.lt_trans early younger)
      · -- The oldest of the list is a root, whose identifier is not none.
        obtain ⟨oldest, front⟩ : ∃ oldest, snapshot.liveRootTxnList.head? = some oldest :=
          Option.isSome_iff_exists.mp (List.isSome_head?.mpr (List.ne_nil_of_mem held))
        rw [getOldestInLiveRootTxnList, front, Option.getD_some] at none
        have positive := ok.manager.heldPositive member (List.mem_of_mem_head? front)
        rw [none] at positive
        exact Nat.lt_irrefl 0 positive
    have hidden : snapshot.snapshotTxnid64 < xid ∨
        isTxnInLiveRootTxnList snapshot.liveRootTxnList xid = true :=
      refused.imp_right List.contains_iff_mem.mpr
    rw [if_neg notEmpty, if_pos hidden, Bool.or_false]
    by_cases self : xid = root
    · rw [if_pos (Or.inr self), beq_iff_eq.mpr self]
      rfl
    · rw [if_neg (not_or.mpr ⟨notOlder, self⟩), beq_eq_false_iff_ne.mpr self]
      rfl

end Tokuft
