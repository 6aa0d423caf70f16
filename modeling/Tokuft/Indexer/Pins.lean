import Tokuft.Indexer.BuildIndex

/-! Transactions that are pinned and unpinned one after the other. -/

namespace Tokuft

/-- The state of a transaction, which is retired when it is not found. -/
def stateOf (txns : IndexerTxns) (xid : Nat) : TokutxnState :=
  (txns xid).elim .retired IndexerTxn.state

/-- A transaction, if it is found. -/
def foundTxn (txns : IndexerTxns) (xid : Nat) : Option Nat := (txns xid).map fun _ => xid

section

variable {txns : IndexerTxns} {xid : Nat} {xids : List Nat}

/-- The checks on a transaction pass when it is live or preparing. -/
theorem allowedTxn_some : allowedTxn txns (some xid) = (stateOf txns xid).isPinnable := by
  cases found : txns xid <;> simp [allowedTxn, stateOf, found, TokutxnState.isPinnable]

/-- A transaction that is live or preparing is found. -/
theorem foundTxn_of_pinnable (live : (stateOf txns xid).isPinnable = true) :
    foundTxn txns xid = some xid := by
  cases found : txns xid with
  | none => simp [stateOf, found, TokutxnState.isPinnable] at live
  | some txn => simp [foundTxn, found]

/-- The transactions, each pinned once more for every time that it is in a list. -/
def addPins (txns : IndexerTxns) (xids : List Nat) : IndexerTxns := fun xid =>
  (txns xid).map fun txn => { txn with numPin := txn.numPin + xids.count xid }

/-- The transactions, each unpinned once for every time that it is in a list. -/
def dropPins (txns : IndexerTxns) (xids : List Nat) : IndexerTxns := fun xid =>
  (txns xid).map fun txn => { txn with numPin := txn.numPin - xids.count xid }

/-- Pinning changes no state. -/
@[simp] theorem stateOf_addPins : stateOf (addPins txns xids) xid = stateOf txns xid := by
  cases found : txns xid <;> simp [stateOf, addPins, found]

/-- Pinning changes what is found no more. -/
@[simp] theorem foundTxn_addPins : foundTxn (addPins txns xids) xid = foundTxn txns xid := by
  cases found : txns xid <;> simp [foundTxn, addPins, found]

/-- Unpinning changes no state. -/
@[simp] theorem stateOf_dropPins : stateOf (dropPins txns xids) xid = stateOf txns xid := by
  cases found : txns xid <;> simp [stateOf, dropPins, found]

/-- A transaction that is found has one pin more for every time that it is in the list. -/
theorem pinsOf_addPins (found : ∀ xid ∈ xids, (stateOf txns xid).isPinnable = true) :
    pinsOf (addPins txns xids) xid = pinsOf txns xid + xids.count xid := by
  cases here : txns xid with
  | none =>
    have absent : xid ∉ xids := by
      intro member
      have live := found xid member
      simp [stateOf, here, TokutxnState.isPinnable] at live
    simp [pinsOf, addPins, here, List.count_eq_zero.mpr absent]
  | some txn => simp [pinsOf, addPins, here]

/-- A transaction has one pin less for every time that it is in the list. -/
theorem pinsOf_dropPins : pinsOf (dropPins txns xids) xid = pinsOf txns xid - xids.count xid := by
  cases here : txns xid <;> simp [pinsOf, dropPins, here]

end

namespace PinWorld

variable {world after : PinWorld} {xid : Nat} {xids others : List Nat}

/-- The transactions of a list have been pinned. -/
def pinAll (world : PinWorld) (xids : List Nat) : PinWorld where
  txns := addPins world.txns xids
  events := world.events ++ xids.map .pinned

/-- The transactions of a list have been unpinned. -/
def unpinAll (world : PinWorld) (xids : List Nat) : PinWorld where
  txns := dropPins world.txns xids
  events := world.events ++ xids.map .unpinned

/-- Pinning nothing does nothing. -/
theorem pinAll_nil : world.pinAll [] = world := by
  have same : addPins world.txns [] = world.txns := by
    funext xid
    cases found : world.txns xid <;> simp [addPins, found]
  rw [pinAll, same, List.map_nil, List.append_nil]

/-- Unpinning nothing does nothing. -/
theorem unpinAll_nil : world.unpinAll [] = world := by
  have same : dropPins world.txns [] = world.txns := by
    funext xid
    cases found : world.txns xid <;> simp [dropPins, found]
  rw [unpinAll, same, List.map_nil, List.append_nil]

/-- Lists are pinned one after the other. -/
theorem pinAll_pinAll : (world.pinAll xids).pinAll others = world.pinAll (xids ++ others) := by
  have same : addPins (addPins world.txns xids) others = addPins world.txns (xids ++ others) := by
    funext xid
    cases found : world.txns xid <;> simp [addPins, found, Nat.add_assoc]
  simp only [pinAll, same, List.map_append, List.append_assoc]

/-- Lists are unpinned one after the other. -/
theorem unpinAll_unpinAll :
    (world.unpinAll xids).unpinAll others = world.unpinAll (xids ++ others) := by
  have same : dropPins (dropPins world.txns xids) others =
      dropPins world.txns (xids ++ others) := by
    funext xid
    cases found : world.txns xid <;> simp [dropPins, found, Nat.sub_sub]
  simp only [unpinAll, same, List.map_append, List.append_assoc]

section

variable (live : (stateOf world.txns xid).isPinnable = true)
include live

/-- A live transaction that has written can be pinned. -/
theorem txnPinLiveTxn_ok (written : ∀ txn, world.txns xid = some txn → txn.isReadOnly = false) :
    world.txnPinLiveTxn xid = some (world.pinAll [xid]) := by
  -- A live transaction is found, and the code checks that it is not read only.
  cases found : world.txns xid with
  | none => simp [stateOf, found, TokutxnState.isPinnable] at live
  | some txn =>
    have pinnable : txn.state.isPinnable = true := by simpa [stateOf, found] using live
    have same : Function.update world.txns xid (some { txn with numPin := txn.numPin + 1 }) =
        addPins world.txns [xid] := by
      funext other
      by_cases here : other = xid
      · simp [here, addPins, found]
      · rw [Function.update_of_ne here]
        cases there : world.txns other <;> simp [addPins, there, Ne.symm here]
    simp only [txnPinLiveTxn, found, bind_runs]
    rw [invariant_of pinnable, invariant_of (written txn found), Option.bind_some,
      Option.bind_some, same]
    rfl

/-- A live transaction that is pinned can be unpinned. -/
theorem txnUnpinLiveTxn_ok (pinned : 0 < pinsOf world.txns xid) :
    world.txnUnpinLiveTxn xid = some (world.unpinAll [xid]) := by
  -- A live transaction is found, and the code checks that it has a pin.
  cases found : world.txns xid with
  | none => simp [stateOf, found, TokutxnState.isPinnable] at live
  | some txn =>
    have pinnable : txn.state.isPinnable = true := by simpa [stateOf, found] using live
    have positive : 0 < txn.numPin := by simpa [pinsOf, found] using pinned
    have same : Function.update world.txns xid (some { txn with numPin := txn.numPin - 1 }) =
        dropPins world.txns [xid] := by
      funext other
      by_cases here : other = xid
      · simp [here, dropPins, found]
      · rw [Function.update_of_ne here]
        cases there : world.txns other <;> simp [dropPins, there, Ne.symm here]
    simp only [txnUnpinLiveTxn, found, bind_runs]
    rw [invariant_of pinnable, invariant_of positive, Option.bind_some, Option.bind_some, same]
    rfl

end

/-- A record is filled with the state of its transaction, which is pinned if it is live. -/
theorem fillRecord_ok (written : ∀ txn, world.txns xid = some txn → txn.isReadOnly = false) :
    world.fillRecord xid = some ((stateOf world.txns xid, foundTxn world.txns xid),
      world.pinAll ([xid].filter fun xid => (stateOf world.txns xid).isPinnable)) := by
  -- Only a transaction that is live or preparing is pinned.
  by_cases live : (stateOf world.txns xid).isPinnable = true
  · have pinned := txnPinLiveTxn_ok live written
    have kept : ([xid].filter fun xid => (stateOf world.txns xid).isPinnable) = [xid] := by
      simp [live]
    rw [kept]
    cases found : world.txns xid with
    | none => simp [stateOf, found, TokutxnState.isPinnable] at live
    | some txn =>
      have pinnable : txn.state.isPinnable = true := by simpa [stateOf, found] using live
      simp [fillRecord, found, pinnable, pinned, stateOf, foundTxn]
  · have dropped : ([xid].filter fun xid => (stateOf world.txns xid).isPinnable) = [] := by
      simp [live]
    rw [dropped, pinAll_nil]
    cases found : world.txns xid with
    | none => simp [fillRecord, found, stateOf, foundTxn]
    | some txn =>
      have pinnable : ¬txn.state.isPinnable = true := by simpa [stateOf, found] using live
      simp [fillRecord, found, pinnable, stateOf, foundTxn]

/-- Records are filled one after the other. -/
theorem fillRecords_ok {records : List Uxr} (written : ∀ uxr ∈ records, ∀ txn,
      world.txns uxr.xid = some txn → txn.isReadOnly = false) :
    fillRecords records world =
      some (records.map fun uxr => (stateOf world.txns uxr.xid, foundTxn world.txns uxr.xid),
        world.pinAll ((records.map Uxr.xid).filter
          fun xid => (stateOf world.txns xid).isPinnable)) := by
  -- A pin changes no state, so every record sees the states from before.
  induction records generalizing world with
  | nil => simp [fillRecords, pinAll_nil]
  | cons uxr rest ih =>
    have here := fillRecord_ok (written uxr List.mem_cons_self)
    have later := @ih (world.pinAll ([uxr.xid].filter
        fun xid => (stateOf world.txns xid).isPinnable)) (by
      intro other member txn found
      simp only [pinAll, addPins, Option.map_eq_some_iff] at found
      obtain ⟨same, found, rfl⟩ := found
      exact written other (List.mem_cons_of_mem _ member) same found)
    simp only [fillRecords, here, later, bind_runs, pinAll_pinAll]
    simp only [pinAll, stateOf_addPins, foundTxn_addPins, List.map_cons, ← List.filter_append,
      List.singleton_append]

/-- The transactions that are unpinned. -/
def released (records : List (TokutxnState × Option Nat)) : List Nat :=
  records.filterMap fun record => if record.1.isPinnable then record.2 else none

section

variable {records : List (TokutxnState × Option Nat)}

/-- Live transactions that are pinned often enough can be unpinned. -/
theorem releaseTxns_ok
    (found : ∀ record ∈ records, record.1.isPinnable = true → record.2.isSome = true)
    (live : ∀ xid ∈ released records, (stateOf world.txns xid).isPinnable = true)
    (pinned : ∀ xid, (released records).count xid ≤ pinsOf world.txns xid) :
    releaseTxns records world = some (world.unpinAll (released records)) := by
  -- By induction on the records: unpinning one leaves the pins that the others need.
  induction records generalizing world with
  | nil => simp [releaseTxns, released, unpinAll_nil]
  | cons record rest ih =>
    obtain ⟨state, txn⟩ := record
    have foundLater : ∀ record ∈ rest, record.1.isPinnable = true → record.2.isSome = true :=
      fun record member => found record (List.mem_cons_of_mem _ member)
    by_cases pinnable : state.isPinnable = true
    · obtain ⟨xid, rfl⟩ := Option.isSome_iff_exists.mp (found _ List.mem_cons_self pinnable)
      have split : released ((state, some xid) :: rest) = xid :: released rest := by
        simp [released, pinnable]
      rw [split] at live pinned ⊢
      have positive : 0 < pinsOf world.txns xid := by
        have enough := pinned xid
        rw [List.count_cons_self] at enough
        omega
      have first := txnUnpinLiveTxn_ok (live xid List.mem_cons_self) positive
      rw [releaseTxns, if_pos pinnable, bind_of_some, Option.bind_eq_bind, first, Option.bind_some,
        ih foundLater, unpinAll_unpinAll, List.singleton_append]
      · intro other member
        simp only [unpinAll, stateOf_dropPins]
        exact live other (List.mem_cons_of_mem _ member)
      · intro other
        have enough := pinned other
        simp only [unpinAll, pinsOf_dropPins]
        by_cases same : other = xid
        · rw [same] at enough ⊢
          rw [List.count_cons_self] at enough
          simp only [List.count_singleton_self]
          omega
        · rw [List.count_cons_of_ne (Ne.symm same)] at enough
          rw [List.count_eq_zero.mpr (by simpa using same : other ∉ [xid])]
          exact enough
    · have split : released ((state, txn) :: rest) = released rest := by
        simp [released, pinnable]
      rw [split] at live pinned ⊢
      rw [releaseTxns, if_neg pinnable]
      exact ih foundLater live pinned

/-- Unpinning is recorded for every transaction that is unpinned. -/
theorem releaseTxns_events (runs : releaseTxns records world = some after) :
    after.events = world.events ++ (released records).map .unpinned := by
  -- By induction on the records.
  induction records generalizing world with
  | nil =>
    cases runs
    simp [released]
  | cons record others ih =>
    obtain ⟨state, txn⟩ := record
    by_cases pinnable : state.isPinnable = true
    · rw [releaseTxns, if_pos pinnable] at runs
      obtain ⟨xid, isXid, rest⟩ := of_bind runs
      subst isXid
      obtain ⟨middle, first, runs⟩ := of_bind rest
      have unpinned : middle.events = world.events ++ [.unpinned xid] := by
        obtain ⟨found, -, first⟩ := of_bind first
        obtain ⟨-, first⟩ := of_invariant first
        obtain ⟨-, first⟩ := of_invariant first
        cases first
        rfl
      have split : released ((state, some xid) :: others) = xid :: released others := by
        simp [released, pinnable]
      rw [ih runs, unpinned, split, List.map_cons, List.append_assoc, List.singleton_append]
    · have split : released ((state, txn) :: others) = released others := by
        simp [released, pinnable]
      rw [releaseTxns, if_neg pinnable] at runs
      rw [ih runs, split]

end

end PinWorld

end Tokuft
