import Tokuft.Leafentry.Gc
import Tokuft.Library.FirstOrLast
import Tokuft.Txn.ReverseLiveList
import Tokuft.Txn.SnapshotReads

/-! Garbage collection gives every reader of a snapshot the record that it was given before. -/

namespace Tokuft

/-- What a reader is given that decides by the identifiers of records. -/
def xrRead (accepts : Nat → Bool) (xrs : List Uxr) : Option Xr :=
  (firstOrLast (fun uxr => accepts uxr.xid) xrs).map Uxr.type

variable {accepts : Nat → Bool} {xrs kept : List Uxr}

/-- A record that the reader accepts is given to it whatever lies below. -/
theorem firstOrLast_accepted {uxr : Uxr} (taken : accepts uxr.xid = true) (older : List Uxr) :
    firstOrLast (fun uxr => accepts uxr.xid) (uxr :: older) = some uxr := by
  cases older with
  | nil => rfl
  | cons next rest => exact if_pos taken

/-- Nobody is asked about the oldest record, so it may lose its transaction. -/
theorem xrRead_clearBottom (xrs : List Uxr) :
    xrRead accepts (clearBottom xrs) = xrRead accepts xrs := by
  -- By induction on the records.
  induction xrs with
  | nil => rfl
  | cons uxr older ih =>
    cases older with
    | nil => rfl
    | cons next rest =>
      have more : clearBottom (next :: rest) ≠ [] := by cases rest <;> simp [clearBottom]
      have upper : clearBottom (uxr :: next :: rest) = uxr :: clearBottom (next :: rest) := rfl
      rw [upper, xrRead, xrRead, firstOrLast_cons uxr more,
        firstOrLast_cons uxr (List.cons_ne_nil next rest)]
      split
      · rfl
      · exact ih

/-- Records below one that the reader accepts are not needed. -/
theorem keepThrough_reads {oldest : Nat}
    (seen : ∀ uxr ∈ xrs.dropLast, uxr.xid < oldest → accepts uxr.xid = true) :
    firstOrLast (fun uxr => accepts uxr.xid) (keepThrough oldest xrs) =
      firstOrLast (fun uxr => accepts uxr.xid) xrs := by
  induction xrs with
  | nil => rfl
  | cons uxr older ih =>
    cases older with
    | nil => simp only [keepThrough]; split <;> rfl
    | cons next rest =>
      simp only [List.dropLast_cons_cons, List.forall_mem_cons] at seen
      have more : keepThrough oldest (next :: rest) ≠ [] := by
        simp only [keepThrough]; split <;> exact List.cons_ne_nil _ _
      rw [keepThrough]
      split
      · -- The reader accepts the record at which the others are cut off.
        rename_i early
        exact (firstOrLast_accepted (seen.1 early) (next :: rest)).symm
      · rw [firstOrLast_cons uxr more, firstOrLast_cons uxr (List.cons_ne_nil next rest),
          ih seen.2]

/-- Whether a root has finished that had written. -/
def TxnWorld.Wrote (world : TxnWorld) (xid : Nat) : Prop :=
  ∃ txn ∈ world.finished, txn.xid = xid ∧ txn.readOnly = false

variable {clone : TxnWorld} {txn : FinishedTxn}

/-- The youngest snapshot that holds a transaction is not the transaction itself. -/
theorem getYoungestLiveListTxnidFor_ne {xc : Nat} (positive : 0 < xc) (snapshotXids : List Nat)
    (referencedXids : List ReferencedXidTuple) :
    getYoungestLiveListTxnidFor xc snapshotXids referencedXids ≠ xc := by
  -- A holder is given only if it is younger than the transaction.
  unfold getYoungestLiveListTxnidFor
  split
  · exact Nat.ne_of_lt positive
  · rename_i tuple found
    have same : tuple.beginId = xc := by
      simpa [findTupleByXid] using List.find?_some found
    split
    · exact Nat.ne_of_lt positive
    · split
      · rename_i live _ later
        rw [same] at later
        exact Nat.ne_of_gt later
      · exact Nat.ne_of_lt positive

/-- The snapshots before a bound end with the youngest of them. -/
theorem youngestBelow_eq_some {xids : List Nat} (sorted : xids.Pairwise (· < ·)) {bound xid : Nat}
    (member : xid ∈ xids) (before : xid < bound) :
    ∃ youngest, youngestBelow xids bound = some youngest ∧ youngest ∈ xids ∧ xid ≤ youngest ∧
      youngest < bound := by
  have inside : xid ∈ xids.filter (· < bound) :=
    List.mem_filter.mpr ⟨member, decide_eq_true before⟩
  obtain ⟨youngest, last⟩ := Option.isSome_iff_exists.mp
    (List.getLast?_isSome.mpr (List.ne_nil_of_mem inside))
  have found := List.mem_filter.mp (List.mem_of_getLast? last)
  exact ⟨youngest, last, found.1, @le_getLast?_of_sorted _ id _ _ _ (sorted.filter _) last inside,
    of_decide_eq_true found.2⟩

/-- The identifiers of the recorded snapshots are in order. -/
theorem TxnWorld.Ok.snapshotXids_sorted (ok : clone.Ok) :
    clone.mgr.snapshotXids.Pairwise (· < ·) :=
  List.pairwise_map.mpr ok.manager.snapshotsSorted

/-- A recorded snapshot has an identifier. -/
theorem TxnWorld.Ok.snapshotXid_ne (ok : clone.Ok) {snapshotXid : Nat}
    (member : snapshotXid ∈ clone.mgr.snapshotXids) : snapshotXid ≠ txnidNone := by
  obtain ⟨snapshot, inside, rfl⟩ := List.mem_map.mp member
  exact Nat.ne_of_gt (ok.manager.snapshotsPositive snapshot inside)

section

variable (ok : clone.Ok) (done : txn ∈ clone.finished)
include ok done

/-- A snapshot that holds a finished writer makes its youngest holder the one before its end. -/
theorem TxnWorld.Ok.youngest_held (wrote : txn.readOnly = false)
    (held : 0 < holders clone.mgr.snapshots txn.xid) :
    ∃ youngest, youngestBelow clone.mgr.snapshotXids (txn.lastXid + 1) = some youngest ∧
      txn.xid < youngest ∧ getYoungestLiveListTxnidFor txn.xid clone.mgr.snapshotXids
        clone.mgr.referencedXids = youngest := by
  -- The snapshots are sorted, and those that hold the writer are a last part before its end.
  have found := ok.manager.findTuple ((ok.manager.referenced _).mpr ⟨txn, done, wrote, held, rfl⟩)
  obtain ⟨holder, member, holds⟩ := List.countP_pos_iff.mp held
  have within := (ok.manager.holds_finished done member).mp (List.contains_iff_mem.mp holds)
  have sorted := ok.snapshotXids_sorted
  obtain ⟨youngest, below, -, least, -⟩ := youngestBelow_eq_some sorted
    (List.mem_map_of_mem member) (Nat.lt_succ_of_le within.2)
  have above : txn.xid < youngest := Nat.lt_of_lt_of_le within.1 least
  refine ⟨youngest, below, above, ?_⟩
  rw [getYoungestLiveListTxnidFor, found]
  simp only [below, if_pos above]

/-- A finished writer that nobody holds has no youngest holder. -/
theorem TxnWorld.Ok.youngest_free (free : holders clone.mgr.snapshots txn.xid = 0) :
    getYoungestLiveListTxnidFor txn.xid clone.mgr.snapshotXids clone.mgr.referencedXids =
        txnidNone ∧
      ∀ snapshotXid ∈ clone.mgr.snapshotXids,
        snapshotXid < txn.xid ∨ txn.lastXid < snapshotXid := by
  -- A tuple goes away with its last reference.
  constructor
  · have none := ok.manager.findTuple_none fun other others same _ => by
      rw [free]
    rw [getYoungestLiveListTxnidFor, none]
  · intro snapshotXid member
    obtain ⟨snapshot, inside, rfl⟩ := List.mem_map.mp member
    have unheld : txn.xid ∉ snapshot.liveRootTxnList := by
      intro held
      have counted : 0 < holders clone.mgr.snapshots txn.xid :=
        List.countP_pos_iff.mpr ⟨snapshot, inside, List.contains_iff_mem.mpr held⟩
      omega
    rw [ok.manager.holds_finished done inside, FinishedTxn.heldBy] at unheld
    have apart := (ok.manager.apart snapshot inside).2 txn done
    omega

/-- The snapshot that collection turns to next is the youngest before the end of the writer. -/
theorem TxnWorld.Ok.nextReader_eq (wrote : txn.readOnly = false) :
    (if getYoungestLiveListTxnidFor txn.xid clone.mgr.snapshotXids clone.mgr.referencedXids =
        txnidNone
      then getNextOlderTxnid txn.xid clone.mgr.snapshotXids
      else getYoungestLiveListTxnidFor txn.xid clone.mgr.snapshotXids clone.mgr.referencedXids) =
      (youngestBelow clone.mgr.snapshotXids (txn.lastXid + 1)).getD txnidNone := by
  by_cases held : 0 < holders clone.mgr.snapshots txn.xid
  · obtain ⟨youngest, below, above, found⟩ := ok.youngest_held done wrote held
    rw [found, below, if_neg (Nat.ne_of_gt (Nat.zero_lt_of_lt above))]
    rfl
  · -- No snapshot lies between the beginning and the end of the writer.
    obtain ⟨none, apart⟩ := ok.youngest_free done (Nat.eq_zero_of_not_pos held)
    have bound := (ok.manager.finishedBound txn done).2.1
    rw [if_pos none, getNextOlderTxnid, youngestBelow, youngestBelow]
    congr 2
    refine List.filter_congr fun snapshotXid member => ?_
    rcases apart snapshotXid member with before | after
    · rw [decide_eq_true before, decide_eq_true (show snapshotXid < txn.lastXid + 1 by omega)]
    · rw [decide_eq_false (show ¬snapshotXid < txn.xid by omega),
        decide_eq_false (show ¬snapshotXid < txn.lastXid + 1 by omega)]

/-- Whether a recorded snapshot reads a finished writer is judged by the end of the writer. -/
theorem TxnWorld.Ok.xidReads_eq (wrote : txn.readOnly = false) {tl1 : Nat}
    (member : tl1 ∈ clone.mgr.snapshotXids) :
    xidReadsCommittedXid tl1 txn.xid clone.mgr.snapshotXids clone.mgr.referencedXids =
      decide (txn.lastXid < tl1) := by
  have bound := (ok.manager.finishedBound txn done).2.1
  have sorted := ok.snapshotXids_sorted
  unfold xidReadsCommittedXid
  split
  · rw [decide_eq_false (show ¬txn.lastXid < tl1 by omega)]
  · rename_i younger
    by_cases held : 0 < holders clone.mgr.snapshots txn.xid
    · obtain ⟨youngest, below, above, found⟩ := ok.youngest_held done wrote held
      simp only [found, if_neg (Nat.ne_of_gt (Nat.zero_lt_of_lt above))]
      rw [decide_eq_decide]
      constructor
      · -- A snapshot after the youngest holder comes after the end of the writer.
        intro after
        by_contra early
        obtain ⟨other, found, -, least, -⟩ := youngestBelow_eq_some sorted member
          (show tl1 < txn.lastXid + 1 by omega)
        rw [below] at found
        cases found
        omega
      · intro late
        have inside := List.mem_filter.mp (List.mem_of_getLast? below)
        have early := of_decide_eq_true inside.2
        omega
    · obtain ⟨none, apart⟩ := ok.youngest_free done (Nat.eq_zero_of_not_pos held)
      obtain ⟨snapshot, inside, rfl⟩ := List.mem_map.mp member
      have different := (ok.manager.apart snapshot inside).2 txn done
      simp only [none, if_true]
      rcases apart _ member with before | after
      · omega
      · exact (decide_eq_true after).symm

end

/-- Collection passes its checks when the records are those of roots that it knows. -/
theorem markNecessary_exists (state : TxnManagerState) {skipping : Option Nat}
    (named : ∀ uxr ∈ xrs.dropLast, 0 < uxr.xid) :
    ∃ kept, markNecessary state skipping xrs = some kept := by
  -- By induction on the records.
  induction xrs generalizing skipping with
  | nil => exact ⟨[], rfl⟩
  | cons uxr older ih =>
    cases older with
    | nil => exact ⟨[uxr], rfl⟩
    | cons next rest =>
      simp only [List.dropLast_cons_cons, List.forall_mem_cons] at named
      have differs := getYoungestLiveListTxnidFor_ne named.1 state.snapshotXids
        state.referencedXids
      have go (skipping : Option Nat) := @ih skipping named.2
      simp only [markNecessary, invariant_of differs, bind_runs]
      split
      · split
        · obtain ⟨kept, marked⟩ := go none
          exact ⟨_, by rw [marked]; rfl⟩
        · generalize (if getYoungestLiveListTxnidFor uxr.xid state.snapshotXids
            state.referencedXids = txnidNone then _ else _) = tl1
          split
          · exact ⟨_, rfl⟩
          · obtain ⟨kept, marked⟩ := go (some tl1)
            exact ⟨_, by rw [marked]; rfl⟩
      · exact go skipping

/-- A reader of a snapshot that existed at the copy or came later. -/
def TxnWorld.MayRead (clone : TxnWorld) (snapshotXid : Nat) : Prop :=
  snapshotXid ∈ clone.mgr.snapshotXids ∨ clone.mgr.lastXid < snapshotXid

/--
Collection by a copy of the manager's state gives a reader the record that it was given before.

While records are skipped, the reader's snapshot is no younger than the one they are skipped for.
-/
theorem TxnWorld.Ok.markNecessary_reads (ok : clone.Ok) {snapshotXid : Nat}
    (mayRead : clone.MayRead snapshotXid) {skipping : Option Nat} (nonempty : xrs ≠ [])
    (marked : markNecessary clone.mgr.cloneStateForGc skipping xrs = some kept)
    (decided : ∀ uxr ∈ xrs.dropLast, ∀ txn ∈ clone.finished, txn.xid = uxr.xid →
      accepts uxr.xid = decide (txn.lastXid < snapshotXid))
    (known : ∀ uxr ∈ xrs.dropLast, uxr.xid ∈ clone.mgr.liveRootIds ∨ clone.Wrote uxr.xid)
    (below : ∀ uxr ∈ xrs.tail.dropLast, clone.Wrote uxr.xid)
    (skipped : ∀ tl1 ∈ skipping, tl1 ∈ clone.mgr.snapshotXids ∧ snapshotXid ≤ tl1 ∧
      ∀ uxr ∈ xrs.dropLast, clone.Wrote uxr.xid) :
    firstOrLast (fun uxr => accepts uxr.xid) kept =
      firstOrLast (fun uxr => accepts uxr.xid) xrs := by
  induction xrs generalizing skipping kept with
  | nil => exact absurd rfl nonempty
  | cons uxr older ih =>
    cases older with
    | nil => cases marked; rfl
    | cons next rest =>
      have more : next :: rest ≠ [] := List.cons_ne_nil next rest
      simp only [List.dropLast_cons_cons, List.forall_mem_cons] at decided known skipped
      have deeper : ∀ uxr ∈ (next :: rest).tail.dropLast, clone.Wrote uxr.xid := by
        cases rest with
        | nil => exact List.forall_mem_nil _
        | cons other others => exact fun uxr member => below uxr (List.mem_cons_of_mem _ member)
      have go {skipping : Option Nat} {kept : List Uxr}
          (marked : markNecessary clone.mgr.cloneStateForGc skipping (next :: rest) =
            some kept)
          (skipped : ∀ tl1 ∈ skipping, tl1 ∈ clone.mgr.snapshotXids ∧ snapshotXid ≤ tl1) :
          firstOrLast (fun uxr => accepts uxr.xid) kept =
            firstOrLast (fun uxr => accepts uxr.xid) (next :: rest) :=
        ih more marked decided.2 known.2 deeper fun tl1 given =>
          ⟨(skipped tl1 given).1, (skipped tl1 given).2, below⟩
      -- A record that is kept on top of what is read alike is read alike.
      have above {others : List Uxr} (same : firstOrLast (fun uxr => accepts uxr.xid) others =
          firstOrLast (fun uxr => accepts uxr.xid) (next :: rest)) :
          firstOrLast (fun uxr => accepts uxr.xid) (uxr :: others) =
            firstOrLast (fun uxr => accepts uxr.xid) (uxr :: next :: rest) := by
        have left : others ≠ [] := by
          rintro rfl
          obtain ⟨given, -, found⟩ := @firstOrLast_exists _ (fun uxr => accepts uxr.xid) _ more
          rw [found] at same
          cases same
        rw [firstOrLast_cons uxr left, firstOrLast_cons uxr more, same]
      simp only [markNecessary] at marked
      split at marked
      · split at marked
        · -- The writer had not left the live roots, so the next record is needed as well.
          obtain ⟨others, found, rfl⟩ := Option.map_eq_some_iff.mp marked
          exact above (go found fun _ absent => by cases absent)
        · rename_i notLive
          obtain ⟨txn, done, same, wrote⟩ := known.1.resolve_left
            fun live => notLive (List.contains_iff_mem.mpr live)
          simp only [bind_inv] at marked
          obtain ⟨-, -, marked⟩ := marked
          have turnsTo := ok.nextReader_eq done wrote
          rw [same] at turnsTo
          generalize next' : (if getYoungestLiveListTxnidFor uxr.xid
            clone.mgr.cloneStateForGc.snapshotXids clone.mgr.cloneStateForGc.referencedXids =
            txnidNone then _ else _) = turn at marked
          rw [show turn = _ from next'.symm.trans turnsTo] at marked
          cases taken : accepts uxr.xid with
          | true =>
            -- The reader takes this record, whatever is kept below it.
            rw [@firstOrLast_accepted accepts uxr taken]
            split at marked
            · cases marked; rfl
            · obtain ⟨others, -, rfl⟩ := Option.map_eq_some_iff.mp marked
              exact firstOrLast_accepted taken others
          | false =>
            -- The reader's snapshot is no younger than the one that is turned to.
            have late : ¬txn.lastXid < snapshotXid := by
              have judged := decided.1 txn done same
              rw [taken] at judged
              exact of_decide_eq_false judged.symm
            have bound := (ok.manager.finishedBound txn done).2.2.1
            have member : snapshotXid ∈ clone.mgr.snapshotXids := by
              rcases mayRead with recorded | younger
              · exact recorded
              · omega
            obtain ⟨tl1, found, recorded, older, -⟩ := youngestBelow_eq_some
              ok.snapshotXids_sorted member (show snapshotXid < txn.lastXid + 1 by omega)
            rw [found, Option.getD_some, if_neg (ok.snapshotXid_ne recorded)] at marked
            obtain ⟨others, rest, rfl⟩ := Option.map_eq_some_iff.mp marked
            exact above (go rest fun other given => by
              cases given
              exact ⟨recorded, older⟩)
      · -- A record that the snapshot cannot read is skipped, and the reader refuses it too.
        rename_i unread
        cases skipping with
        | none => exact absurd rfl unread
        | some tl1 =>
          obtain ⟨recorded, older, wrote⟩ := skipped tl1 rfl
          obtain ⟨txn, done, same, wrote⟩ := wrote.1
          have judged := ok.xidReads_eq done wrote recorded
          rw [same] at judged
          simp only [Option.all_some, TxnManager.cloneStateForGc, judged,
            decide_eq_true_eq] at unread
          have refused : accepts uxr.xid = false := by
            rw [decided.1 txn done same]
            exact decide_eq_false (by omega)
          rw [firstOrLast_cons uxr more, refused]
          exact go marked fun other given => by
            cases given
            exact ⟨recorded, older⟩

end Tokuft
