import Tokuft.Indexer.Pins

/-! When a step of a hot indexer gives back the pins that it took. -/

namespace Tokuft

/-- The transactions that are looked up for a leaf entry, which are none without the root. -/
def seenTxns (txns : IndexerTxns) (ule : Ule) : IndexerTxns :=
  match ule.puxrs.reverse with
  | [] => txns
  | outermost :: _ => if (txns outermost.xid).isNone then fun _ => none else txns

/-- The transactions of a leaf entry that are live or preparing. -/
def pinnedXids (txns : IndexerTxns) (ule : Ule) : List Nat :=
  (ule.puxrs.reverse.map Uxr.xid).filter fun xid => (stateOf (seenTxns txns ule) xid).isPinnable

/-- What is known of a leaf entry, given the transactions. -/
def provInfoOf (txns : IndexerTxns) (key : Bytes) (ule : Ule) : UleProvInfo where
  key := key
  ule := ule
  provStates := ule.puxrs.reverse.map fun uxr => stateOf (seenTxns txns ule) uxr.xid
  provTxns := ule.puxrs.reverse.map fun uxr => foundTxn (seenTxns txns ule) uxr.xid

/-- The states that the transactions of a leaf entry can have.

Children are complete before their parents change state, and only the root can prepare.
-/
structure Reportable (txns : IndexerTxns) (ule : Ule) : Prop where
  distinct : (ule.puxrs.map Uxr.xid).Nodup
  written : ∀ uxr ∈ ule.puxrs, ∀ txn, txns uxr.xid = some txn → txn.isReadOnly = false
  committed : ∀ uxr ∈ ule.cuxrs, uxrIsPlaceholder uxr = false
  inner : ∀ outermost inner, ule.puxrs.reverse = outermost :: inner → ∀ uxr ∈ inner,
    stateOf txns uxr.xid ≠ .preparing ∧
      (stateOf txns outermost.xid ≠ .live → stateOf txns uxr.xid = .retired)

/-- Other threads leave the pins alone, and let a pinned transaction live. -/
def RespectsPins (others : IndexerTxns → IndexerTxns) : Prop :=
  ∀ txns xid, pinsOf (others txns) xid = pinsOf txns xid ∧
    (0 < pinsOf txns xid → (stateOf txns xid).isPinnable = true →
      (stateOf (others txns) xid).isPinnable = true)

/-- The transaction that an event pins. -/
def PinEvent.pins : PinEvent → Option Nat
  | .pinned xid => some xid
  | _ => none

/-- The transaction that an event unpins. -/
def PinEvent.unpins : PinEvent → Option Nat
  | .unpinned xid => some xid
  | _ => none

/-- Whether an event is the use of a new dictionary. -/
def PinEvent.isUse : PinEvent → Bool
  | .processed _ _ => true
  | _ => false

/-- The pins that a step took are given back once each, after the last new dictionary. -/
structure PinsBalanced (before after : IndexerTxns) (events : List PinEvent) : Prop where
  same : ∀ xid, pinsOf after xid = pinsOf before xid
  once : ∀ xid ∈ events.filterMap PinEvent.pins, (events.filterMap PinEvent.unpins).count xid = 1
  last : events.Pairwise fun event later => event.unpins.isSome = true → later.isUse = false
  stays : ∀ whichDb txns, .processed whichDb txns ∈ events →
    ∀ xid ∈ events.filterMap PinEvent.pins, (stateOf txns xid).isPinnable = true

/-- A step returns and balances its pins. -/
def HotIndexer.BalancesPins (indexer : HotIndexer) (loopCount : Nat) (key : Bytes) (ule : Ule)
    (world : PinWorld) (s : HotState) : Prop :=
  ∃ result info after s' events,
    indexer.buildStep loopCount key ule world s = some (result, info, after, s') ∧
      after.events = world.events ++ events ∧ PinsBalanced world.txns after.txns events

/-- Nothing is pinned, or the first new dictionary gets to unpin and is the last one used. -/
def HotIndexer.UnpinsOnce (indexer : HotIndexer) (txns : IndexerTxns) (key : Bytes) (ule : Ule)
    (s : HotState) : Prop :=
  pinnedXids txns ule = [] ∨ 0 < indexer.n ∧
    ∃ s', indexerUndoDoCommitted indexer.senders indexer.gen 0 (provInfoOf txns key ule)
        ule.cuxrs.reverse none s = some (0, s') ∧
      (indexer.n = 1 ∨ indexer.testOnlyErrorCallback = true ∨
        ∃ result s'', undoDoProvisionalRecords indexer.senders indexer.gen 0
          (provInfoOf txns key ule) (fun _ => true) s' = some (result, s'') ∧ result ≠ 0)

section

variable {txns : IndexerTxns} {key : Bytes} {ule : Ule}

/-- A leaf entry is filled with the states of its transactions, and the live ones are pinned. -/
theorem indexerFillProvInfo_ok {world : PinWorld} (reportable : Reportable world.txns ule) :
    world.indexerFillProvInfo key ule =
      some (provInfoOf world.txns key ule, world.pinAll (pinnedXids world.txns ule)) := by
  -- A transaction that wrote the record is not read only, so that it can be pinned.
  unfold PinWorld.indexerFillProvInfo provInfoOf pinnedXids seenTxns
  have written : ∀ uxr ∈ ule.puxrs.reverse, ∀ txn, world.txns uxr.xid = some txn →
      txn.isReadOnly = false :=
    fun uxr member => reportable.written uxr (List.mem_reverse.mp member)
  cases records : ule.puxrs.reverse with
  | nil => simp [PinWorld.pinAll_nil]
  | cons outermost inner =>
    rw [records] at written
    by_cases root : (world.txns outermost.xid).isNone = true
    · -- Nothing is looked up without the root, so everything is retired.
      simp only [if_pos root]
      have none : ∀ xids : List Nat, (xids.filter fun xid =>
          (stateOf (fun _ => none) xid).isPinnable) = [] := by
        intro xids
        apply List.filter_eq_nil_iff.mpr
        intro xid _
        simp [stateOf, TokutxnState.isPinnable]
      rw [none, PinWorld.pinAll_nil]
      simp [stateOf, foundTxn, List.replicate_succ]
    · simp only [if_neg root]
      rw [PinWorld.fillRecords_ok written, bind_of_some]
      simp only [List.map_map]
      rfl

variable (key) in
/-- The transactions that were pinned are the ones to be unpinned. -/
theorem released_provInfoOf :
    PinWorld.released ((provInfoOf txns key ule).provStates.zip
      (provInfoOf txns key ule).provTxns) =
      pinnedXids txns ule := by
  -- Whether a transaction is pinned depends only on the state in which it was seen.
  simp only [provInfoOf, List.zip_map', PinWorld.released, pinnedXids, List.filterMap_map,
    List.filter_map]
  rw [← List.filterMap_eq_filter, List.map_filterMap]
  apply List.filterMap_congr
  intro uxr _
  by_cases live : (stateOf (seenTxns txns ule) uxr.xid).isPinnable = true
  · simp [live, foundTxn_of_pinnable live]
  · simp [live, Option.guard]

/-- Every transaction that is to be unpinned was found. -/
theorem found_provInfoOf : ∀ record ∈
    (provInfoOf txns key ule).provStates.zip (provInfoOf txns key ule).provTxns,
    record.1.isPinnable = true → record.2.isSome = true := by
  intro record member live
  simp only [provInfoOf, List.zip_map', List.mem_map] at member
  obtain ⟨uxr, -, rfl⟩ := member
  simp only at live ⊢
  rw [foundTxn_of_pinnable live]
  rfl

/-- A transaction that is pinned is live or preparing. -/
theorem pinnable_of_pinned {xid : Nat} (pinned : xid ∈ pinnedXids txns ule) :
    (stateOf txns xid).isPinnable = true := by
  have seen := (List.mem_filter.mp pinned).2
  unfold seenTxns at seen
  split at seen
  · exact seen
  · split at seen
    · simp [stateOf, TokutxnState.isPinnable] at seen
    · exact seen

/-- A transaction is pinned once. -/
theorem nodup_pinnedXids (reportable : Reportable txns ule) : (pinnedXids txns ule).Nodup := by
  have distinct : (ule.puxrs.reverse.map Uxr.xid).Nodup := by
    rw [List.map_reverse]
    exact List.pairwise_reverse.mpr (reportable.distinct.imp Ne.symm)
  exact distinct.sublist List.filter_sublist

end

section

variable {senders : Nat → Int} {gen : GenerateRows} {hotdb : Nat} {info : UleProvInfo}
  {mode : HotMode}

/-- Going on after something that returns with something that returns, returns. -/
theorem unlessError_returns {first : Option (Int × HotState)}
    {next : HotState → Option (Int × HotState)} (begins : first.isSome = true)
    (ends : ∀ s, (next s).isSome = true) : (unlessError first next).isSome = true := by
  obtain ⟨⟨result, s⟩, rfl⟩ := Option.isSome_iff_exists.mp begins
  simp only [unlessError, Option.bind_some]
  split
  · rfl
  · exact ends s

/-- Undoing a record returns when the checks pass, unless it is a placeholder. -/
theorem undoRecord_returns (allowed : mode.allowed = true) {prevuxr : Uxr}
    (present : uxrIsPlaceholder prevuxr = false) (xids : List Nat) (s : HotState) :
    (undoRecord senders gen hotdb info mode xids prevuxr s).isSome = true := by
  -- A placeholder is the only record that cannot be undone.
  obtain ⟨type, xid⟩ := prevuxr
  cases type with
  | insert val =>
    simp only [undoRecord]
    apply unlessError_returns rfl
    intro s
    rw [invariant_of (Or.inr allowed)]
    rfl
  | delete => rfl
  | placeholder => cases present

/-- Doing a record returns when the checks pass, unless it is a placeholder. -/
theorem doRecord_returns (allowed : mode.allowed = true) {uxr : Uxr}
    (present : uxrIsPlaceholder uxr = false) (xids : List Nat) (s : HotState) :
    (doRecord senders gen hotdb info mode xids uxr s).isSome = true := by
  -- A placeholder is the only record that cannot be done.
  obtain ⟨type, xid⟩ := uxr
  cases type with
  | insert val =>
    simp only [doRecord]
    apply unlessError_returns rfl
    intro s
    rw [invariant_of (Or.inr allowed)]
    rfl
  | delete => rfl
  | placeholder => cases present

/-- Undoing the record before returns. -/
theorem undoPrevious_returns (allowed : mode.allowed = true) {prevuxr : Option Uxr}
    (present : ∀ uxr, prevuxr = some uxr → uxrIsPlaceholder uxr = false) (xids : List Nat)
    (s : HotState) :
    (undoPrevious senders gen hotdb info mode xids prevuxr s).isSome = true := by
  cases prevuxr with
  | none => rfl
  | some prevuxr => exact undoRecord_returns allowed (present prevuxr rfl) xids s

/-- The committed pass returns when there are no placeholders. -/
theorem indexerUndoDoCommitted_returns {records : List Uxr}
    (present : ∀ uxr ∈ records, uxrIsPlaceholder uxr = false) {prevuxr : Option Uxr}
    (before : ∀ uxr, prevuxr = some uxr → uxrIsPlaceholder uxr = false) (s : HotState) :
    (indexerUndoDoCommitted senders gen hotdb info records prevuxr s).isSome = true := by
  -- By induction on the records, each of which is undone over the one before it.
  induction records generalizing prevuxr s with
  | nil => rfl
  | cons uxr rest ih =>
    have here := present uxr List.mem_cons_self
    rcases entered : indexerSetXid uxr.xid [] with ⟨result, xids⟩
    rw [indexerUndoDoCommitted, entered]
    apply unlessError_returns rfl
    intro s
    rw [invariant_of here, bind_of_some]
    apply unlessError_returns (undoPrevious_returns rfl before xids s)
    intro s
    apply unlessError_returns (doRecord_returns rfl here xids s)
    intro s
    apply unlessError_returns rfl
    intro s
    apply ih (fun uxr member => present uxr (List.mem_cons_of_mem _ member))
    intro _ same
    rw [← Option.some.inj same]
    exact here

/-- The record before one is no placeholder. -/
theorem indexerFindPrevXr_present {ule : Ule} {xrindex : Nat} {uxr : Uxr}
    (found : indexerFindPrevXr ule xrindex = some uxr) : uxrIsPlaceholder uxr = false := by
  have chosen := List.find?_some found
  simpa using chosen

variable {outermost : TokutxnState} {currTxn : Option Nat}

/-- The checks on a transaction matter only when the outermost one is live or preparing. -/
theorem provisionalRecord_allowed {allowed : Bool} {xrindex : Nat} {xids : List Nat} {uxr : Uxr}
    {s : HotState} (notAborting : outermost ≠ .aborting)
    (passes : outermost.isPinnable = true → allowed = true) :
    (provisionalRecord senders gen hotdb info outermost true xrindex xids currTxn uxr s).isSome =
        true ∧
      provisionalRecord senders gen hotdb info outermost allowed xrindex xids currTxn uxr s =
        provisionalRecord senders gen hotdb info outermost true xrindex xids currTxn uxr s := by
  -- Every other state is handled before the transaction is checked.
  constructor
  · unfold provisionalRecord
    split
    · rfl
    · rename_i present
      have deletes : (provisionalDeletes outermost currTxn true).allowed = true := by
        cases outermost <;> first | rfl | exact absurd rfl notAborting
      have inserts : (provisionalInserts outermost currTxn true).allowed = true := by
        cases outermost <;> first | rfl | exact absurd rfl notAborting
      apply unlessError_returns
        (undoPrevious_returns deletes (fun _ found => indexerFindPrevXr_present found) xids s)
      exact doRecord_returns inserts (by simpa using present) xids
  · cases outermost with
    | live => rw [passes rfl]
    | preparing => rw [passes rfl]
    | committing => rfl
    | aborting => exact absurd rfl notAborting
    | retired => rfl

/-- How the transactions of inner records can stand. -/
def InnerOk (outermost : TokutxnState) (record : ProvRecord) : Prop :=
  record.state ≠ .preparing ∧ (record.state = .live → record.txn.isSome = true) ∧
    (outermost ≠ .live → record.state = .retired)

variable (senders gen hotdb info outermost) in
/-- The loop returns what it returns when all checks on transactions pass. -/
def LoopReturns (allowed : Option Nat → Bool) (records : List ProvRecord) (xrindex : Nat)
    (xids : List Nat) (currTxn : Option Nat) (s : HotState) : Prop :=
  (provisionalLoop senders gen hotdb info outermost (fun _ => true) records xrindex xids currTxn
      s).isSome = true ∧
    provisionalLoop senders gen hotdb info outermost allowed records xrindex xids currTxn s =
      provisionalLoop senders gen hotdb info outermost
        (fun _ => true) records xrindex xids currTxn s

variable {allowed : Option Nat → Bool} {record : ProvRecord} {rest : List ProvRecord}
  {xrindex : Nat} {xids : List Nat} {s : HotState}

/-- The loop returns when a record can be entered and it returns for the later ones. -/
theorem LoopReturns.cons (notAborting : outermost ≠ .aborting)
    (enters : record.state ≠ .aborting → ∃ result entered current,
      enterRecord (xrindex == info.ule.numCuxrs) record xids currTxn =
        some (result, entered, current) ∧ (outermost.isPinnable = true → allowed current = true))
    (retired : outermost ≠ .live ∧ info.ule.numCuxrs < xrindex → record.state = .retired)
    (later : ∀ current, (outermost.isPinnable = true → allowed current = true) → ∀ entered s,
      LoopReturns senders gen hotdb info outermost allowed rest (xrindex + 1) entered current s) :
    LoopReturns senders gen hotdb info outermost allowed
      (record :: rest) xrindex xids currTxn s := by
  -- The loop ends at an aborting record or a failure, or goes on with the later records.
  unfold LoopReturns
  rw [provisionalLoop, provisionalLoop]
  by_cases aborting : record.state = .aborting
  · rw [if_pos aborting, if_pos aborting]
    exact ⟨rfl, rfl⟩
  rw [if_neg aborting, if_neg aborting]
  obtain ⟨result, entered, current, enters, passes⟩ := enters aborting
  rw [enters, bind_of_some, bind_of_some]
  simp only
  by_cases failed : result ≠ 0
  · rw [if_pos failed, if_pos failed]
    exact ⟨rfl, rfl⟩
  rw [if_neg failed, if_neg failed, invariant_of retired]
  obtain ⟨returns, same⟩ := @provisionalRecord_allowed senders gen hotdb info outermost current
    (allowed current) xrindex entered record.uxr (s.answered result) notAborting passes
  rw [same]
  obtain ⟨⟨code, middle⟩, both⟩ := Option.isSome_iff_exists.mp returns
  rw [both]
  simp only [bind_runs]
  by_cases failed : code ≠ 0
  · rw [if_pos failed, if_pos failed]
    exact ⟨rfl, rfl⟩
  · rw [if_neg failed, if_neg failed]
    exact later current passes entered middle

/-- Past the outermost record the loop returns. -/
theorem loopReturns_inner {records : List ProvRecord} (notAborting : outermost ≠ .aborting)
    (inner : ∀ record ∈ records, InnerOk outermost record)
    (live : outermost.isPinnable = true → ∀ record ∈ records, record.state = .live →
      allowed record.txn = true)
    (past : info.ule.numCuxrs < xrindex)
    (passes : outermost.isPinnable = true → allowed currTxn = true) :
    LoopReturns senders gen hotdb info outermost allowed records xrindex xids currTxn s := by
  induction records generalizing xrindex xids currTxn s with
  | nil => exact ⟨rfl, rfl⟩
  | cons record rest ih =>
    obtain ⟨notPreparing, found, retired⟩ := inner record List.mem_cons_self
    apply LoopReturns.cons notAborting
    · -- The current transaction stays, or it is the live one of this record.
      intro aborting
      have notFirst : (xrindex == info.ule.numCuxrs) = false := by simpa using Nat.ne_of_gt past
      rw [notFirst, enterRecord, if_neg Bool.false_ne_true]
      cases state : record.state with
      | live =>
        rcases xidsCreateChild xids record.uxr.xid with ⟨result, entered⟩
        refine ⟨result, entered, record.txn, ?_,
          fun pinnable => live pinnable record List.mem_cons_self state⟩
        rw [invariant_of (found state)]
        rfl
      | preparing => exact absurd state notPreparing
      | committing => exact ⟨0, xids, currTxn, rfl, passes⟩
      | aborting => exact absurd state aborting
      | retired => exact ⟨0, xids, currTxn, rfl, passes⟩
    · exact fun outer => retired outer.1
    · intro current passes entered s
      exact ih (fun record member => inner record (List.mem_cons_of_mem _ member))
        (fun pinnable record member => live pinnable record (List.mem_cons_of_mem _ member))
        (by omega) passes

end

section

variable {senders : Nat → Int} {gen : GenerateRows} {hotdb : Nat} {txns : IndexerTxns}
  {key : Bytes} {ule : Ule}

/-- A provisional record with the state of its transaction. -/
def provRecordOf (txns : IndexerTxns) (uxr : Uxr) : ProvRecord where
  uxr := uxr
  state := stateOf txns uxr.xid
  txn := foundTxn txns uxr.xid

/-- The provisional records, each with the state of its transaction. -/
theorem provRecords_provInfoOf : (provInfoOf txns key ule).provRecords =
    ule.puxrs.reverse.map (provRecordOf (seenTxns txns ule)) := by
  -- The states were noted record by record.
  have zipped : ∀ records : List Uxr, records.zip (records.map fun uxr =>
      (stateOf (seenTxns txns ule) uxr.xid, foundTxn (seenTxns txns ule) uxr.xid)) =
      records.map fun uxr =>
        (uxr, stateOf (seenTxns txns ule) uxr.xid, foundTxn (seenTxns txns ule) uxr.xid) := by
    intro records
    induction records with
    | nil => rfl
    | cons uxr rest ih => rw [List.map_cons, List.zip_cons_cons, ih, List.map_cons]
  simp only [UleProvInfo.provRecords, provInfoOf, List.zip_map', zipped, List.map_map]
  rfl

/-- Without the root nothing is seen, and otherwise everything. -/
theorem seenTxns_cases {outermost : Uxr} {inner : List Uxr}
    (records : ule.puxrs.reverse = outermost :: inner) :
    (stateOf (seenTxns txns ule) = fun _ => .retired) ∨ seenTxns txns ule = txns := by
  unfold seenTxns
  rw [records]
  simp only
  split
  · exact Or.inl rfl
  · exact Or.inr rfl

/-- A record that is not the outermost stands as it can. -/
theorem innerOk_provInfoOf (reportable : Reportable txns ule) {outermost : Uxr} {inner : List Uxr}
    (records : ule.puxrs.reverse = outermost :: inner) {uxr : Uxr} (member : uxr ∈ inner) :
    InnerOk (stateOf (seenTxns txns ule) outermost.xid)
      (provRecordOf (seenTxns txns ule) uxr) := by
  -- A transaction that is live was found when its state was read.
  unfold InnerOk provRecordOf
  have found : stateOf (seenTxns txns ule) uxr.xid = .live →
      (foundTxn (seenTxns txns ule) uxr.xid).isSome = true := by
    intro live
    rw [foundTxn_of_pinnable (by rw [live]; rfl)]
    rfl
  rcases seenTxns_cases records with unseen | seen
  · rw [unseen] at found ⊢
    exact ⟨TokutxnState.noConfusion, found, fun _ => rfl⟩
  · obtain ⟨notPreparing, retired⟩ := reportable.inner outermost inner records uxr member
    rw [seen] at found ⊢
    exact ⟨notPreparing, found, retired⟩

variable (key) in
/-- The provisional pass returns, and the checks on transactions pass when the pinned ones do. -/
theorem undoDoProvisionalRecords_returns (reportable : Reportable txns ule)
    {allowed : Option Nat → Bool}
    (passes : ∀ xid ∈ pinnedXids txns ule, allowed (some xid) = true) (s : HotState) :
    (undoDoProvisionalRecords senders gen hotdb (provInfoOf txns key ule) (fun _ => true)
        s).isSome = true ∧
      undoDoProvisionalRecords senders gen hotdb (provInfoOf txns key ule) allowed s =
        undoDoProvisionalRecords senders gen hotdb (provInfoOf txns key ule) (fun _ => true) s := by
  unfold undoDoProvisionalRecords
  rw [provRecords_provInfoOf]
  cases records : ule.puxrs.reverse with
  | nil => simp [provInfoOf, records]
  | cons outermost inner =>
    have pinned : ∀ uxr ∈ outermost :: inner,
        (stateOf (seenTxns txns ule) uxr.xid).isPinnable = true →
        allowed (foundTxn (seenTxns txns ule) uxr.xid) = true := by
      intro uxr member live
      rw [foundTxn_of_pinnable live]
      apply passes
      apply List.mem_filter.mpr
      rw [records]
      exact ⟨List.mem_map_of_mem member, live⟩
    have first : (provInfoOf txns key ule).provStates.head? =
        some (stateOf (seenTxns txns ule) outermost.xid) := by
      simp [provInfoOf, records]
    have loop : LoopReturns senders gen hotdb (provInfoOf txns key ule)
        (stateOf (seenTxns txns ule) outermost.xid) allowed
        ((outermost :: inner).map (provRecordOf (seenTxns txns ule)))
        (provInfoOf txns key ule).ule.numCuxrs [] none s.setEmpty := by
      by_cases aborting : stateOf (seenTxns txns ule) outermost.xid = .aborting
      · -- Nothing is entered when the outermost transaction is aborting.
        have stops : (provRecordOf (seenTxns txns ule) outermost).state = .aborting := aborting
        unfold LoopReturns
        rw [List.map_cons, provisionalLoop, provisionalLoop, if_pos stops, if_pos stops]
        exact ⟨rfl, rfl⟩
      apply LoopReturns.cons aborting
      · intro _
        rw [beq_self_eq_true, enterRecord, if_pos rfl]
        exact ⟨_, _, _, rfl, pinned outermost List.mem_cons_self⟩
      · exact fun later => absurd later.2 (Nat.lt_irrefl _)
      · intro current currentPasses entered s
        apply loopReturns_inner aborting
        · intro record member
          obtain ⟨uxr, isInner, rfl⟩ := List.mem_map.mp member
          exact innerOk_provInfoOf reportable records isInner
        · intro _ record member live
          obtain ⟨uxr, isInner, rfl⟩ := List.mem_map.mp member
          have state : stateOf (seenTxns txns ule) uxr.xid = .live := live
          exact pinned uxr (List.mem_cons_of_mem _ isInner) (by rw [state]; rfl)
        · exact Nat.lt_succ_self _
        · exact currentPasses
    obtain ⟨returns, same⟩ := loop
    rw [first]
    simp only
    rw [same]
    obtain ⟨⟨result, xids, after⟩, runs⟩ := Option.isSome_iff_exists.mp returns
    rw [runs]
    refine ⟨?_, rfl⟩
    simp only [bind_runs]
    split <;> rfl

end

namespace HotIndexer

variable {indexer : HotIndexer} {loopCount : Nat} {world after : PinWorld} {key : Bytes} {ule : Ule}
  {s s' : HotState} {result : Int}

/-- The transactions when a dictionary is about to be sent messages. -/
def used (indexer : HotIndexer) (loopCount whichDb : Nat) (world : PinWorld) : PinWorld :=
  (world.interfere (indexer.others loopCount whichDb)).process whichDb

variable {info : UleProvInfo}

/-- Using a dictionary is recorded. -/
theorem used_events (whichDb : Nat) : (indexer.used loopCount whichDb world).events =
    world.events ++ [.processed whichDb (indexer.used loopCount whichDb world).txns] := rfl

/-- A dictionary that fails is the last one, and otherwise the next one follows. -/
theorem undoDoFrom_succ {left whichDb : Nat}
    (here : indexer.indexerUndoDo whichDb info (indexer.used loopCount whichDb world) s =
      some (result, after, s')) :
    indexer.undoDoFrom loopCount info (left + 1) whichDb world s =
      if result ≠ 0 then some (result, after, s')
      else indexer.undoDoFrom loopCount info left (whichDb + 1) after s' := by
  rw [used] at here
  rw [undoDoFrom]
  simp only [here, bind_runs]

/-- A dictionary only adds to what was done. -/
theorem indexerUndoDo_events {hotdb : Nat}
    (runs : indexer.indexerUndoDo hotdb info world s = some (result, after, s')) :
    ∃ more, after.events = world.events ++ more := by
  -- The two loops only add, and so does the release behind them.
  obtain ⟨⟨first, s₁⟩, -, runs⟩ := of_bind runs
  obtain ⟨⟨second, between, s₂⟩, provisional, runs⟩ := of_bind runs
  have same : after = between := by
    simp only at runs
    by_cases wanted : indexer.testOnlyErrorCallback = true
    · rw [if_pos wanted] at runs
      cases runs
      rfl
    · rw [if_neg wanted] at runs
      cases runs
      rfl
  rw [same]
  by_cases ok : first = 0
  · rw [if_pos ok] at provisional
    obtain ⟨⟨third, s₃⟩, -, released⟩ := of_bind provisional
    obtain ⟨unpinned, releases, ends⟩ := of_bind released
    cases ends
    exact ⟨_, PinWorld.releaseTxns_events releases⟩
  · rw [if_neg ok] at provisional
    cases provisional
    exact ⟨[], (List.append_nil _).symm⟩

/-- Going through the dictionaries only adds to what was done, and uses the first of them. -/
theorem undoDoFrom_events {left whichDb : Nat}
    (runs : indexer.undoDoFrom loopCount info left whichDb world s = some (result, after, s')) :
    ∃ more, after.events = world.events ++ more ∧
      (0 < left → ∃ txns later, more = .processed whichDb txns :: later) := by
  -- By induction on the dictionaries that are left.
  induction left generalizing whichDb world s with
  | zero =>
    cases runs
    exact ⟨[], (List.append_nil _).symm, fun positive => absurd positive (Nat.lt_irrefl 0)⟩
  | succ left ih =>
    obtain ⟨⟨code, middle, s₁⟩, here, -⟩ := of_bind runs
    rw [undoDoFrom_succ here] at runs
    obtain ⟨more, grown⟩ := indexerUndoDo_events here
    have events : middle.events = world.events ++
        .processed whichDb (indexer.used loopCount whichDb world).txns :: more := by
      rw [grown]
      exact List.append_assoc ..
    by_cases failed : code ≠ 0
    · rw [if_pos failed] at runs
      cases runs
      exact ⟨_, events, fun _ => ⟨_, _, rfl⟩⟩
    · rw [if_neg failed] at runs
      obtain ⟨later, ends, -⟩ := ih runs
      refine ⟨.processed whichDb (indexer.used loopCount whichDb world).txns :: (more ++ later), ?_,
        fun _ => ⟨_, _, rfl⟩⟩
      rw [ends, events, List.append_assoc, List.cons_append]

/-- The result for a dictionary once its passes have one. -/
def undoDoResult (indexer : HotIndexer) (result : Int) : Int :=
  if indexer.testOnlyErrorCallback then einval else result

variable {before after : IndexerTxns}

/-- The result is an error when a test wants one, or the passes have one. -/
theorem undoDoResult_ne_zero :
    indexer.undoDoResult result ≠ 0 ↔ indexer.testOnlyErrorCallback = true ∨ result ≠ 0 := by
  unfold undoDoResult
  by_cases wanted : indexer.testOnlyErrorCallback = true
  · rw [if_pos wanted]
    exact iff_of_true (by decide) (Or.inl wanted)
  · rw [if_neg wanted, or_iff_right wanted]

/-- The committed pass fails, and nothing is unpinned. -/
theorem indexerUndoDo_failed {hotdb : Nat} {info : UleProvInfo}
    (committed : indexerUndoDoCommitted indexer.senders indexer.gen hotdb info
      info.ule.cuxrs.reverse none s = some (result, s')) (failed : result ≠ 0) :
    ∃ code s'', indexer.indexerUndoDo hotdb info world s = some (code, world, s'') ∧ code ≠ 0 := by
  rw [indexerUndoDo, committed, bind_of_some]
  simp only [if_neg failed, bind_runs]
  split
  · exact ⟨_, _, rfl, by decide⟩
  · exact ⟨_, _, rfl, failed⟩

/-- The committed pass succeeds, and the pinned transactions are unpinned behind the provisional
pass, whatever its result is.
-/
theorem indexerUndoDo_unpins {hotdb : Nat} {txns : IndexerTxns} (reportable : Reportable txns ule)
    (live : ∀ xid ∈ pinnedXids txns ule, (stateOf world.txns xid).isPinnable = true)
    (pinned : ∀ xid, (pinnedXids txns ule).count xid ≤ pinsOf world.txns xid)
    (committed : indexerUndoDoCommitted indexer.senders indexer.gen hotdb (provInfoOf txns key ule)
      ule.cuxrs.reverse none s = some (0, s')) :
    ∃ result s₁ s₂, undoDoProvisionalRecords indexer.senders indexer.gen hotdb
        (provInfoOf txns key ule) (fun _ => true) s' = some (result, s₁) ∧
      indexer.indexerUndoDo hotdb (provInfoOf txns key ule) world s =
        some (indexer.undoDoResult result, world.unpinAll (pinnedXids txns ule), s₂) := by
  -- The provisional pass may look at the transactions that are pinned.
  have passes : ∀ xid ∈ pinnedXids txns ule, allowedTxn world.txns (some xid) = true := by
    intro xid member
    rw [allowedTxn_some]
    exact live xid member
  obtain ⟨returns, same⟩ := undoDoProvisionalRecords_returns key reportable passes s'
  obtain ⟨⟨result, s₁⟩, runs⟩ := Option.isSome_iff_exists.mp returns
  have releases : PinWorld.releaseTxns ((provInfoOf txns key ule).provStates.zip
      (provInfoOf txns key ule).provTxns) world =
      some (world.unpinAll (pinnedXids txns ule)) := by
    rw [← released_provInfoOf key] at live pinned ⊢
    exact PinWorld.releaseTxns_ok found_provInfoOf live pinned
  have provisional : indexer.indexerUndoDoProvisional hotdb (provInfoOf txns key ule) world s' =
      some (result, world.unpinAll (pinnedXids txns ule), s₁) := by
    rw [indexerUndoDoProvisional, same, runs, bind_of_some]
    simp only [releases, bind_runs]
  have passed : indexerUndoDoCommitted indexer.senders indexer.gen hotdb (provInfoOf txns key ule)
      (provInfoOf txns key ule).ule.cuxrs.reverse none s = some (0, s') := committed
  rw [indexerUndoDo, passed]
  simp only [provisional, bind_runs, if_true]
  by_cases wanted : indexer.testOnlyErrorCallback = true
  · refine ⟨result, s₁, s₁.answered einval, runs, ?_⟩
    rw [if_pos wanted, undoDoResult, if_pos wanted]
  · refine ⟨result, s₁, s₁, runs, ?_⟩
    rw [if_neg wanted, undoDoResult, if_neg wanted]

/-- A step goes through the dictionaries once the transactions are pinned. -/
theorem balancesPins_iff_from (reportable : Reportable world.txns ule) :
    indexer.BalancesPins loopCount key ule world s ↔ ∃ result after s' events,
      indexer.undoDoFrom loopCount (provInfoOf world.txns key ule) indexer.n 0
          (world.pinAll (pinnedXids world.txns ule)) s = some (result, after, s') ∧
        after.events = world.events ++ events ∧ PinsBalanced world.txns after.txns events := by
  -- What happens before the first dictionary is the same on either side.
  unfold BalancesPins
  rw [buildStep, indexerFillProvInfo_ok reportable, bind_of_some]
  constructor
  · rintro ⟨result, info, after, s', events, runs, grown, balanced⟩
    obtain ⟨⟨code, middle, s₁⟩, here, same⟩ := of_bind runs
    cases same
    exact ⟨result, after, s', events, here, grown, balanced⟩
  · rintro ⟨result, after, s', events, runs, grown, balanced⟩
    refine ⟨result, provInfoOf world.txns key ule, after, s', events, ?_, grown, balanced⟩
    simp only [runs, bind_runs]

/-- Without pinned transactions every dictionary is processed, up to an error. -/
theorem undoDoFrom_unpinned {txns : IndexerTxns} (reportable : Reportable txns ule)
    (others : ∀ whichDb, RespectsPins (indexer.others loopCount whichDb))
    (none : pinnedXids txns ule = []) (left whichDb : Nat) (world : PinWorld) (s : HotState) :
    ∃ result after s' events,
      indexer.undoDoFrom loopCount (provInfoOf txns key ule) left whichDb world s =
          some (result, after, s') ∧
        after.events = world.events ++ events ∧ (∀ event ∈ events, event.isUse = true) ∧
        ∀ xid, pinsOf after.txns xid = pinsOf world.txns xid := by
  -- By induction on the dictionaries that are left, where nothing is ever unpinned.
  induction left generalizing whichDb world s with
  | zero =>
    exact ⟨0, world, s, [], rfl, (List.append_nil _).symm, by simp, fun _ => rfl⟩
  | succ left ih =>
    have same : ∀ xid, pinsOf (indexer.used loopCount whichDb world).txns xid =
        pinsOf world.txns xid := fun xid => (others whichDb world.txns xid).1
    -- The passes return, and there is nothing to unpin.
    obtain ⟨code, s', here⟩ : ∃ code s', indexer.indexerUndoDo whichDb (provInfoOf txns key ule)
        (indexer.used loopCount whichDb world) s =
          some (code, indexer.used loopCount whichDb world, s') := by
      have present : ∀ uxr ∈ ule.cuxrs.reverse, uxrIsPlaceholder uxr = false :=
        fun uxr member => reportable.committed uxr (List.mem_reverse.mp member)
      obtain ⟨⟨first, s₁⟩, committed⟩ := Option.isSome_iff_exists.mp
        (@indexerUndoDoCommitted_returns indexer.senders indexer.gen whichDb
          (provInfoOf txns key ule) _ present Option.none (by simp) s)
      by_cases ok : first = 0
      · rw [ok] at committed
        obtain ⟨code, -, s₂, -, runs⟩ := @indexerUndoDo_unpins indexer
          (indexer.used loopCount whichDb world) key ule s s₁ whichDb txns reportable
          (by simp [none]) (by simp [none]) committed
        rw [none, PinWorld.unpinAll_nil] at runs
        exact ⟨_, s₂, runs⟩
      · obtain ⟨code, s₂, runs, -⟩ := @indexerUndoDo_failed indexer
          (indexer.used loopCount whichDb world) s s₁ first whichDb (provInfoOf txns key ule)
          committed ok
        exact ⟨code, s₂, runs⟩
    rw [undoDoFrom_succ here]
    by_cases failed : code ≠ 0
    · rw [if_pos failed]
      exact ⟨code, _, s', _, rfl, used_events whichDb, by simp [PinEvent.isUse], same⟩
    · rw [if_neg failed]
      obtain ⟨result, after, s₂, more, runs, grown, uses, pins⟩ :=
        ih (whichDb + 1) (indexer.used loopCount whichDb world) s'
      refine ⟨result, after, s₂,
        .processed whichDb (indexer.used loopCount whichDb world).txns :: more, runs, ?_, ?_,
        fun xid => (pins xid).trans (same xid)⟩
      · rw [grown, used_events, List.append_assoc, List.singleton_append]
      · intro event member
        rcases List.mem_cons.mp member with rfl | later
        · rfl
        · exact uses event later

/-- The uses of dictionaries balance pins that nothing was done to. -/
theorem pinsBalanced_of_uses {events : List PinEvent}
    (same : ∀ xid, pinsOf after xid = pinsOf before xid)
    (uses : ∀ event ∈ events, event.isUse = true) : PinsBalanced before after events := by
  -- There is no pin and no unpinning among the events.
  have pins : events.filterMap PinEvent.pins = [] := by
    apply List.filterMap_eq_nil_iff.mpr
    intro event member
    have use := uses event member
    cases event with
    | pinned xid => cases use
    | processed whichDb txns => rfl
    | unpinned xid => rfl
  refine ⟨same, ?_, ?_, ?_⟩
  · simp [pins]
  · apply List.pairwise_of_forall_mem_list
    intro event member later _ unpins
    have use := uses event member
    cases event with
    | pinned xid => cases unpins
    | processed whichDb txns => cases unpins
    | unpinned xid => cases use
  · simp [pins]

/-- What is done with pins when the transactions are unpinned behind the first dictionary. -/
def firstEvents (xids : List Nat) (txns : IndexerTxns) : List PinEvent :=
  xids.map .pinned ++ .processed 0 txns :: xids.map .unpinned

variable {xids : List Nat}

/-- The transactions that are pinned in front of the first dictionary. -/
theorem pins_firstEvents (xids : List Nat) (txns : IndexerTxns) :
    (firstEvents xids txns).filterMap PinEvent.pins = xids ∧
      (firstEvents xids txns).filterMap PinEvent.unpins = xids := by
  constructor
  · simp [firstEvents, List.filterMap_cons, List.filterMap_map, PinEvent.pins, Function.comp_def]
  · simp [firstEvents, List.filterMap_cons, List.filterMap_map, PinEvent.unpins, Function.comp_def]

/-- Unpinning behind the first dictionary balances the pins when it is the only one used. -/
theorem pinsBalanced_first {used : IndexerTxns} (distinct : xids.Nodup)
    (same : ∀ xid, pinsOf used xid = pinsOf before xid + xids.count xid)
    (live : ∀ xid ∈ xids, (stateOf used xid).isPinnable = true) :
    PinsBalanced before (dropPins used xids) (firstEvents xids used) := by
  -- The pins of a transaction went up by one when it was pinned, and go down by one again.
  obtain ⟨pins, unpins⟩ := pins_firstEvents xids used
  refine ⟨?_, ?_, ?_, ?_⟩
  · intro xid
    rw [pinsOf_dropPins, same, Nat.add_sub_cancel]
  · rw [pins, unpins]
    intro xid member
    exact List.count_eq_one_of_mem distinct member
  · -- What comes behind the use of the dictionary unpins, and what comes in front of it pins.
    apply List.pairwise_append.mpr
    refine ⟨?_, List.pairwise_cons.mpr ⟨?_, ?_⟩, ?_⟩
    · apply List.pairwise_of_forall_mem_list
      simp [PinEvent.unpins]
    · simp [PinEvent.unpins]
    · apply List.pairwise_of_forall_mem_list
      simp [PinEvent.isUse]
    · simp [PinEvent.unpins]
  · rw [pins]
    intro whichDb txns use
    simp only [firstEvents, List.mem_append, List.mem_map, List.mem_cons, reduceCtorEq, and_false,
      exists_false, or_false, false_or, PinEvent.processed.injEq] at use
    rw [use.2]
    exact live

/-- Transactions that were pinned and are not unpinned leave the pins out of balance. -/
theorem not_pinsBalanced_of_kept {events : List PinEvent} (some : xids ≠ [])
    (pins : events.filterMap PinEvent.pins = xids)
    (unpins : events.filterMap PinEvent.unpins = []) : ¬PinsBalanced before after events := by
  intro balanced
  obtain ⟨xid, member⟩ := List.exists_mem_of_ne_nil xids some
  have once := balanced.once xid (by rw [pins]; exact member)
  rw [unpins] at once
  cases once

/-- A dictionary that is used behind an unpinned transaction leaves the pins out of balance. -/
theorem not_pinsBalanced_of_later {used later : IndexerTxns} (some : xids ≠ []) (whichDb : Nat)
    (more : List PinEvent) :
    ¬PinsBalanced before after
      (firstEvents xids used ++ .processed whichDb later :: more) := by
  -- A transaction must not be used behind its last unpinning.
  intro balanced
  obtain ⟨xid, member⟩ := List.exists_mem_of_ne_nil xids some
  have apart := (List.pairwise_append.mp balanced.last).2.2
  have unpinned : PinEvent.unpinned xid ∈ firstEvents xids used := by
    simp [firstEvents, member]
  have notUsed := apart _ unpinned _ List.mem_cons_self rfl
  cases notUsed

/-- A step balances its pins exactly when nothing is pinned, or the first new dictionary gets as far
as unpinning and is the last one used.
-/
theorem balancesPins_iff (others : ∀ whichDb, RespectsPins (indexer.others loopCount whichDb))
    (reportable : Reportable world.txns ule) :
    indexer.BalancesPins loopCount key ule world s ↔
      indexer.UnpinsOnce world.txns key ule s := by
  rw [balancesPins_iff_from reportable, UnpinsOnce]
  by_cases none : pinnedXids world.txns ule = []
  · -- Nothing is pinned, so only the uses of dictionaries are recorded.
    refine iff_of_true ?_ (Or.inl none)
    rw [none, PinWorld.pinAll_nil]
    obtain ⟨result, after, s', events, runs, grown, uses, same⟩ :=
      undoDoFrom_unpinned reportable others none indexer.n 0 world s
    exact ⟨result, after, s', events, runs, grown, pinsBalanced_of_uses same uses⟩
  rw [or_iff_right none]
  have distinct := nodup_pinnedXids reportable
  have pinned : (world.pinAll (pinnedXids world.txns ule)).events =
      world.events ++ (pinnedXids world.txns ule).map .pinned := rfl
  cases size : indexer.n with
  | zero =>
    -- Without a dictionary nothing is unpinned.
    refine iff_of_false ?_ (fun unpins => absurd unpins.1 (Nat.lt_irrefl 0))
    rintro ⟨result, after, s', events, runs, grown, balanced⟩
    cases runs
    rw [pinned] at grown
    obtain rfl := List.append_cancel_left grown
    exact not_pinsBalanced_of_kept none
      (by simp [List.filterMap_map, PinEvent.pins, Function.comp_def])
      (by simp [List.filterMap_map, PinEvent.unpins, Function.comp_def]) balanced
  | succ left =>
    rw [and_iff_right (Nat.succ_pos left)]
    generalize first : indexer.used loopCount 0 (world.pinAll (pinnedXids world.txns ule)) = used
    have more : ∀ xid, pinsOf used.txns xid =
        pinsOf world.txns xid + (pinnedXids world.txns ule).count xid := by
      intro xid
      rw [← first]
      exact ((others 0 _ xid).1).trans (pinsOf_addPins fun xid => pinnable_of_pinned)
    have live : ∀ xid ∈ pinnedXids world.txns ule, (stateOf used.txns xid).isPinnable = true := by
      intro xid member
      rw [← first]
      apply (others 0 _ xid).2
      · have once := List.count_pos_iff.mpr member
        simp only [PinWorld.pinAll, pinsOf_addPins fun xid => pinnable_of_pinned]
        omega
      · simp only [PinWorld.pinAll, stateOf_addPins]
        exact pinnable_of_pinned member
    have usedEvents : used.events = world.events ++
        ((pinnedXids world.txns ule).map .pinned ++ [.processed 0 used.txns]) := by
      rw [← first, used_events, pinned, List.append_assoc]
    have present : ∀ uxr ∈ ule.cuxrs.reverse, uxrIsPlaceholder uxr = false :=
      fun uxr member => reportable.committed uxr (List.mem_reverse.mp member)
    obtain ⟨⟨code, s₁⟩, committed⟩ := Option.isSome_iff_exists.mp
      (@indexerUndoDoCommitted_returns indexer.senders indexer.gen 0
        (provInfoOf world.txns key ule) _ present Option.none (by simp) s)
    by_cases ok : code = 0
    · -- The pins are given back behind the first dictionary, so it has to be the last one.
      subst ok
      obtain ⟨result, s₂, s₃, provisional, here⟩ :=
        @indexerUndoDo_unpins indexer used key ule s s₁ 0
        world.txns reportable live (fun xid => by rw [more]; omega) committed
      rw [← first] at here
      rw [undoDoFrom_succ here, first]
      have events : (used.unpinAll (pinnedXids world.txns ule)).events =
          world.events ++ firstEvents (pinnedXids world.txns ule) used.txns := by
        rw [PinWorld.unpinAll, usedEvents, firstEvents]
        simp
      have balanced := pinsBalanced_first distinct more live
      by_cases failed : indexer.undoDoResult result ≠ 0
      · rw [if_pos failed]
        apply iff_of_true
        · exact ⟨_, _, s₃, _, rfl, events, balanced⟩
        · rcases undoDoResult_ne_zero.mp failed with wanted | error
          · exact ⟨s₁, committed, Or.inr (Or.inl wanted)⟩
          · exact ⟨s₁, committed, Or.inr (Or.inr ⟨result, s₂, provisional, error⟩)⟩
      rw [if_neg failed]
      cases left with
      | zero =>
        apply iff_of_true
        · exact ⟨_, _, s₃, _, rfl, events, balanced⟩
        · exact ⟨s₁, committed, Or.inl rfl⟩
      | succ left =>
        apply iff_of_false
        · -- The second dictionary is used when the pins are already given back.
          rintro ⟨final, after, s', all, runs, grown, balanced⟩
          obtain ⟨later, ends, uses⟩ := undoDoFrom_events runs
          obtain ⟨txns, rest, rfl⟩ := uses (Nat.succ_pos left)
          rw [ends, events, List.append_assoc] at grown
          obtain rfl := List.append_cancel_left grown
          exact not_pinsBalanced_of_later none _ _ balanced
        · rintro ⟨s', passed, single | wanted | ⟨code, s'', runs, error⟩⟩
          · omega
          · exact failed (undoDoResult_ne_zero.mpr (Or.inl wanted))
          · rw [committed] at passed
            cases passed
            rw [provisional] at runs
            cases runs
            exact failed (undoDoResult_ne_zero.mpr (Or.inr error))
    · -- Nothing is unpinned when the committed pass fails.
      obtain ⟨final, s₂, here, failed⟩ := @indexerUndoDo_failed indexer used s s₁ code 0
        (provInfoOf world.txns key ule) committed ok
      rw [← first] at here
      rw [undoDoFrom_succ here, if_pos failed, first]
      apply iff_of_false
      · rintro ⟨result, after, s', events, runs, grown, balanced⟩
        cases runs
        rw [usedEvents] at grown
        obtain rfl := List.append_cancel_left grown
        exact not_pinsBalanced_of_kept none
          (by simp [List.filterMap_map, PinEvent.pins, Function.comp_def])
          (by simp [List.filterMap_map, PinEvent.unpins, Function.comp_def]) balanced
      · rintro ⟨s', passed, -⟩
        rw [committed] at passed
        cases passed
        exact ok rfl

/-- An indexer with some dictionaries, where every value has one row and nothing fails. -/
def nothingFails (n : Nat) : HotIndexer where
  senders _ := 0
  gen := {
    put := fun _ key val => (0, [(val, key)])
    del := fun _ _ val => (0, [val]) }
  n := n
  testOnlyErrorCallback := false
  poll _ := 0
  others _ _ txns := txns

/-- A leaf entry with a provisional value. -/
def oneProvisional : Ule := { puxrs := [{ type := .insert [2], xid := 7 }], cuxrs := [] }

/-- The transaction of the provisional value is live, and nobody has pinned it. -/
def oneLive : PinWorld where
  txns xid := if xid = 7 then some { state := .live, numPin := 0, isReadOnly := false } else none
  events := []

/-- Nothing has been sent. -/
def nothingSent : HotState := { calls := 0, commitKeys := [], sent := [], asked := [] }

/-- The live transaction can be reported. -/
theorem reportable_oneLive : Reportable oneLive.txns oneProvisional where
  distinct := by decide
  written := by
    intro uxr member txn found
    cases List.mem_singleton.mp member
    cases found
    rfl
  committed := by
    intro uxr member
    cases member
  inner := by
    intro outermost inner records uxr member
    cases records
    cases member

/-- When nobody interferes, the pins are respected. -/
theorem respectsPins_id : RespectsPins fun txns => txns :=
  fun _ _ => ⟨rfl, fun _ live => live⟩

/-- The transaction is unpinned for each of two dictionaries, and the second
time it is not pinned. -/
theorem two_not_balancesPins :
    ¬(nothingFails 2).BalancesPins 0 [1] oneProvisional oneLive nothingSent := by
  rintro ⟨result, info, after, s', events, runs, -⟩
  have stops : ((nothingFails 2).buildStep 0 [1] oneProvisional oneLive nothingSent).isNone =
      true := by decide
  rw [runs] at stops
  cases stops

/-- With one dictionary the step balances its pins just when it unpins once. -/
theorem balancesPins_iff_one :
    (nothingFails 1).BalancesPins 0 [1] oneProvisional oneLive nothingSent ↔
      (nothingFails 1).UnpinsOnce oneLive.txns [1] oneProvisional nothingSent :=
  balancesPins_iff (fun _ => respectsPins_id) reportable_oneLive

end HotIndexer

end Tokuft
