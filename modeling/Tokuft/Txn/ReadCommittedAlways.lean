import Tokuft.Leafentry.Read
import Tokuft.Txn.WorldLaws

/-! What a reader sees that copies the live roots without recording a snapshot. -/

namespace Tokuft

/-- A row whose provisional records are one root's, over something that was committed before. -/
structure WrittenBy (xid : Nat) (le : Ule) (newest committed : Xr) : Prop where
  newest : le.puxrs.head?.map Uxr.type = some newest
  outermost : le.puxrs.getLast?.map Uxr.xid = some xid
  committed : le.cuxrs.head?.map Uxr.type = some committed

/-- A reader of what is committed gets the newest record or the one that was committed before. -/
theorem leReadXr_committed {xid : Nat} {le : Ule} {newest committed : Xr} {txn : TokuTxn}
    {accepts : Bool} (written : WrittenBy xid le newest committed)
    (asked : tokuTxnReadsTxnid false xid txn = some accepts) :
    leReadXr false le .committed txn = some (if accepts then newest else committed) := by
  obtain ⟨newest, outermost, committed⟩ := written
  rcases le with ⟨puxrs, cuxrs⟩
  obtain ⟨innermost, head, rfl⟩ := Option.map_eq_some_iff.mp newest
  obtain ⟨last, tail, rfl⟩ := Option.map_eq_some_iff.mp outermost
  obtain ⟨top, front, rfl⟩ := Option.map_eq_some_iff.mp committed
  obtain ⟨older, rfl⟩ := List.head?_eq_some_iff.mp front
  have provisional : (0 < Ule.numPuxrs { puxrs, cuxrs := top :: older }) = True :=
    eq_true (List.length_pos_of_mem (List.mem_of_mem_head? head))
  simp only [leReadXr, leIterateXr, interestingXrs, head, tail, provisional, decide_true,
    List.cons_append, List.nil_append, List.map_cons, leIterateGetAcceptedIndex,
    leIterateReadCommittedCallback, asked, if_true]
  cases accepts with
  | true => rfl
  | false =>
    -- Nobody is asked about what is committed, or nothing else is left.
    cases older <;> rfl

/-- Without a snapshot a transaction reads what is older than all of its list, and its own. -/
theorem tokuTxnReadsTxnid_unstamped {xid : Nat} {txn : TokuTxn} {liveList : List Nat}
    (unstamped : txn.snapshotTxnid64 = txnidNone) (copied : txn.liveRootTxnList = some liveList)
    (sorted : liveList.Pairwise (· < ·)) (named : 0 < xid ∨ xid ∈ liveList) :
    tokuTxnReadsTxnid false xid txn = some (decide
      ((liveList ≠ [] ∧ ∀ other ∈ liveList, xid < other) ∨ xid = txn.parentId64)) := by
  have early : ¬xid < txnidNone := Nat.not_lt_zero xid
  simp only [tokuTxnReadsTxnid, Bool.false_eq_true, if_false, copied, unstamped, early, and_false,
    Option.bind_eq_bind, Option.bind_some, lt_head_iff_of_sorted sorted]
  split
  · rename_i reads
    rw [decide_eq_true reads]; rfl
  · rename_i refused
    have hidden : txnidNone < xid ∨ isTxnInLiveRootTxnList liveList xid = true :=
      named.imp id fun member => List.contains_iff_mem.mpr member
    rw [if_pos hidden, decide_eq_false refused]; rfl

/--
When a reader that copies the live roots sees a writer that has finished.

It sees what the writer left provisional exactly when some root was live at the copy and every
root that was is younger than the writer.
It never sees what a root of its list has written, unless that is its own.
-/
theorem readCommittedAlways_iff {events : List TxnEvent} {world : TxnWorld}
    (run : TxnWorld.Reaches events world) {root : Nat} {reader : TokuTxn}
    (opened : reader ∈ world.txns root) (copies : reader.snapshotType = .copies)
    {liveList : List Nat} (copied : reader.liveRootTxnList = some liveList)
    {writer : FinishedTxn} (done : writer ∈ world.finished) :
    ((∀ le newest committed, WrittenBy writer.xid le newest committed →
        leReadXr false le .committed reader = some newest) ↔
      liveList ≠ [] ∧ ∀ other ∈ liveList, writer.xid < other) ∧
    ∀ other ∈ liveList, other ≠ root → ∀ le newest committed,
      WrittenBy other le newest committed →
      leReadXr false le .committed reader = some committed := by
  have ok := run.ok
  have chained := ok.chains root
  have unstamped := chained.unstamped reader opened copies
  have own : reader.parentId64 = root := chained.own reader opened
  have sorted := chained.listSorted reader opened liveList copied
  constructor
  · -- The writer has finished, so it is not the reader itself.
    have apart : writer.xid ≠ reader.parentId64 := by
      intro same
      have gone := ok.closed writer done
      rw [same, own] at gone
      rw [gone] at opened
      cases opened
    have asked := tokuTxnReadsTxnid_unstamped unstamped copied sorted
      (Or.inl (ok.manager.finishedBound writer done).1)
    simp only [apart, or_false] at asked
    constructor
    · -- A row whose two records differ tells whether the provisional one is read.
      intro reads
      by_contra younger
      rw [decide_eq_false younger] at asked
      let row : Ule := { puxrs := [{ type := .insert [], xid := writer.xid }],
                         cuxrs := [{ type := .delete, xid := txnidNone }] }
      have written : WrittenBy writer.xid row (.insert []) .delete := ⟨rfl, rfl, rfl⟩
      have given := (reads row _ _ written).symm.trans (leReadXr_committed written asked)
      cases given
    · intro older le newest committed written
      rw [decide_eq_true older] at asked
      exact leReadXr_committed written asked
  · intro other member foreign le newest committed written
    have asked := tokuTxnReadsTxnid_unstamped unstamped copied sorted (Or.inr member)
    have refused : ¬((liveList ≠ [] ∧ ∀ older ∈ liveList, other < older) ∨
        other = reader.parentId64) := by
      rintro (⟨-, older⟩ | same)
      · exact Nat.lt_irrefl other (older other member)
      · exact foreign (same.trans own)
    rw [decide_eq_false refused] at asked
    exact leReadXr_committed written asked

/-- A finished writer is seen while only younger roots are live. -/
theorem readCommittedAlways_iff_youngerLive :
    ∃ reader : TokuTxn, reader.liveRootTxnList = some [2, 3] ∧
      ∀ le newest committed, WrittenBy 1 le newest committed →
        leReadXr false le .committed reader = some newest := by
  have run : TxnWorld.Reaches [.beginRoot .none false, .logBegin 1, .beginRoot .none false,
      .noteCommit 1, .completeRoot 1, .beginRoot .copies false] _ := Runs.of_foldlM rfl
  have seen := @readCommittedAlways_iff _ _ run 3 _ List.mem_cons_self rfl _ rfl _
    List.mem_cons_self
  exact ⟨_, rfl, seen.1.mpr (by decide)⟩

/-- An older root that is still live hides a writer that has finished before the reader began. -/
theorem readCommittedAlways_misses :
    ∃ (world : TxnWorld) (reader : TokuTxn) (writer : FinishedTxn) (le : Ule),
      TxnWorld.Reaches [.beginRoot .none false, .beginRoot .none false, .logBegin 2,
        .noteCommit 2, .completeRoot 2, .beginRoot .copies false] world ∧
      reader ∈ world.txns 3 ∧ reader.snapshotType = .copies ∧
      reader.liveRootTxnList = some [1, 3] ∧
      writer ∈ world.finished ∧ writer.committed = true ∧ writer.lastXid < 3 ∧
      WrittenBy writer.xid le (.insert [7]) .delete ∧
      leReadXr false le .committed reader = some .delete :=
  ⟨_, _, _, { puxrs := [{ type := .insert [7], xid := 2 }],
              cuxrs := [{ type := .delete, xid := txnidNone }] },
    Runs.of_foldlM rfl, List.mem_cons_self, rfl, rfl, List.mem_cons_self, rfl, by decide,
    ⟨rfl, rfl, rfl⟩, rfl⟩

end Tokuft
