import Tokuft.Leafentry.UleLaws
import Tokuft.Leafentry.Pack
import Tokuft.Txn.State

/-! Garbage collection of committed records, and the application of one message to one row. -/

namespace Tokuft

/-- Keep committed records from the newest down to the first that every reader can see. -/
def keepThrough (oldestReferencedXid : Nat) : List Uxr → List Uxr
  | [] => []
  | uxr :: older =>
    if uxr.xid < oldestReferencedXid then [uxr]
    else uxr :: keepThrough oldestReferencedXid older

/-- The oldest committed record that is kept loses its transaction. -/
def clearBottom : List Uxr → List Uxr
  | [] => []
  | [bottom] => [{ bottom with xid := txnidNone }]
  | uxr :: older => uxr :: clearBottom older

/-- What a caller knows when it collects garbage. -/
structure TxnGcInfo where
  /-- A copy of the manager's state, and whether it was already taken. -/
  txnStateForGc : Option (Bool × TxnManagerState)
  oldestReferencedXidForSimpleGc : Nat
  oldestReferencedXidForImplicitPromotion : Nat
  mvccNeeded : Bool
  deriving DecidableEq, Repr

/-- The committed records that simple collection keeps. -/
def keptBySimpleGc (gcInfo : TxnGcInfo) (cuxrs : List Uxr) : List Uxr :=
  if gcInfo.mvccNeeded then keepThrough gcInfo.oldestReferencedXidForSimpleGc cuxrs
  -- Without readers of the past only the newest record is needed.
  else cuxrs.take 1

/-- Drop committed records below the newest that is older than every referenced transaction. -/
def uleSimpleGarbageCollection (ule : Ule) (gcInfo : TxnGcInfo) : Ule :=
  if ule.numCuxrs = 1 then ule
  else if (keptBySimpleGc gcInfo ule.cuxrs).length = ule.numCuxrs then ule
  else { ule with cuxrs := clearBottom (keptBySimpleGc gcInfo ule.cuxrs) }

/--
Walk the committed records from the newest one and keep those that some reader needs.

While a snapshot is given, records are skipped until the first one that it can read.
-/
def markNecessary (state : TxnManagerState) : Option Nat → List Uxr → Option (List Uxr)
  | _, [] => some []
  | _, [bottom] => some [bottom]
  | skipping, uxr :: next :: older =>
    let reads := skipping.all fun tl1 =>
      xidReadsCommittedXid tl1 uxr.xid state.snapshotXids state.referencedXids
    if reads then
      let xc := uxr.xid
      -- A record whose transaction is still committing hides nothing below it.
      if isTxnInLiveRootTxnList state.liveRootTxns xc then
        (markNecessary state none (next :: older)).map (uxr :: ·)
      else do
        let youngest := getYoungestLiveListTxnidFor xc state.snapshotXids state.referencedXids
        invariant (youngest ≠ xc)
        let tl1 := if youngest = txnidNone then getNextOlderTxnid xc state.snapshotXids
          else youngest
        -- No snapshot reads below this record, so the rest is garbage.
        if tl1 = txnidNone then some [uxr]
        else (markNecessary state (some tl1) (next :: older)).map (uxr :: ·)
    else markNecessary state skipping (next :: older)

/-- Drop every committed record that no recorded snapshot and no later reader needs. -/
def uleGarbageCollect (ule : Ule) (state : TxnManagerState) : Option Ule :=
  if ule.numCuxrs = 1 then some ule
  else do
    let kept ← markNecessary state none ule.cuxrs
    invariant (1 ≤ kept.length)
    pure { ule with cuxrs := clearBottom kept }

/-- The size a leaf entry would be packed in, or zero when its only record is a delete. -/
def ulePackedMemsize (ule : Ule) : Option Nat :=
  if ule.numCuxrs = 1 ∧ ule.numPuxrs = 0 then do
    let uxr ← uleGetInnermostUxr ule
    if uxrIsDelete uxr then pure 0 else leMemsizeFromUle ule
  else leMemsizeFromUle ule

/-- A committed stack of this many records is worth a full collection. -/
def uleMinStackSizeToForceGc : Nat := 5

/-- A leaf entry of this many bytes is worth a full collection. -/
def uleMinMemsizeToForceGc : Nat := 1024 * 1024

/-- Whether a full collection gains enough to be worth taking a state for. -/
def uleWorthGarbageCollecting (ule : Ule) (initialized : Bool) : Option Bool :=
  if initialized ∨ uleMinStackSizeToForceGc ≤ ule.numCuxrs then pure true
  else do
    let size ← ulePackedMemsize ule
    pure (decide (uleMinMemsizeToForceGc ≤ size))

/-- Collect fully when there is garbage, a state to judge it by, and enough to gain. -/
def uleMaybeGarbageCollect (ule : Ule) (gcInfo : TxnGcInfo) : Option Ule :=
  match gcInfo.txnStateForGc with
  | none => pure ule
  | some (initialized, state) =>
    if 1 < ule.numCuxrs then do
      let worthwhile ← uleWorthGarbageCollecting ule initialized
      if worthwhile then uleGarbageCollect ule state else pure ule
    else pure ule

/--
Store a leaf entry, unless no record of it inserts anything.

A row keeps the unpacked leaf entry whose packing succeeded in place of the bytes.
-/
def uleStore (ule : Ule) : Option (Option Ule) := do
  let packed ← lePack ule
  pure (packed.map fun _ => ule)

/-- Apply one message to one row, which may have no leaf entry before or after. -/
def leApplyMsg {Key : Type} (msg : FtMsg Key) (oldLeafentry : Option Ule) (gcInfo : TxnGcInfo) :
    Option (Option Ule × Int) := do
  let ule := oldLeafentry.getD uleInitEmptyUle
  let (ule, rowcountdelta) ← msgModifyUle ule msg
  let ule ← uleTryPromoteProvisionalOutermost ule gcInfo.oldestReferencedXidForImplicitPromotion
  let ule := uleSimpleGarbageCollection ule gcInfo
  let ule ← uleMaybeGarbageCollect ule gcInfo
  let newLeafentry ← uleStore ule
  pure (newLeafentry, rowcountdelta)

/-- What the innermost record of a leaf entry says. -/
def innermostXr (ule : Ule) : Option Xr := (ule.puxrs ++ ule.cuxrs).head?.map Uxr.type

variable {ule after : Ule} {cuxrs : List Uxr}

/-- A successful read of the innermost record reads what it says. -/
theorem innermostXr_of_get {uxr : Uxr} (found : uleGetInnermostUxr ule = some uxr) :
    innermostXr ule = some uxr.type := by
  -- The read only adds the check that something is committed.
  simp only [uleGetInnermostUxr, bind_inv] at found
  obtain ⟨-, -, head⟩ := found
  simp [innermostXr, head]

/-- A push puts its record on top. -/
theorem ulePushUxr_innermost {isCommitted : Bool} {uxr : Uxr}
    (pushed : ulePushUxr ule isCommitted uxr = some after) :
    innermostXr after = some uxr.type := by
  simp only [ulePushUxr, bind_inv] at pushed
  obtain ⟨-, -, pushed⟩ := pushed
  cases isCommitted with
  | true =>
    -- A committed push needs an empty provisional side, so its record is on top.
    simp only [if_true, Option.bind_eq_some_iff, invariant_eq_some, Option.some.injEq] at pushed
    obtain ⟨-, none, rfl⟩ := pushed
    simp [innermostXr, List.length_eq_zero_iff.mp none]
  | false =>
    simp only [Bool.false_eq_true, if_false, Option.some.injEq] at pushed
    subst pushed
    rfl

/-- Promotion to the committed side keeps what the innermost record says. -/
theorem ulePromoteProvisionalInnermostToCommitted_innermost
    (promoted : ulePromoteProvisionalInnermostToCommitted ule = some after) :
    innermostXr after = innermostXr ule := by
  simp only [ulePromoteProvisionalInnermostToCommitted, bind_inv] at promoted
  obtain ⟨-, -, innermost, found, outermost, -, promoted⟩ := promoted
  rw [innermostXr_of_get found]
  -- Each solid kind of record is pushed back as it was.
  cases kind : innermost.type with
  | placeholder => simp [kind] at promoted
  | delete => simp only [kind] at promoted; exact ulePushUxr_innermost promoted
  | insert val => simp only [kind] at promoted; exact ulePushUxr_innermost promoted

/-- Promotion to a provisional record keeps what the innermost record says. -/
theorem ulePromoteProvisionalInnermostToIndex_innermost {index : Nat}
    (promoted : ulePromoteProvisionalInnermostToIndex ule index = some after) :
    innermostXr after = innermostXr ule := by
  simp only [ulePromoteProvisionalInnermostToIndex, bind_inv] at promoted
  obtain ⟨-, -, innermost, found, promoted⟩ := promoted
  rw [innermostXr_of_get found]
  -- The record at the index takes over the innermost value.
  split at promoted
  · rename_i kind
    rw [kind]
    exact ulePushUxr_innermost promoted
  · rename_i kind
    rw [kind]
    exact ulePushUxr_innermost promoted
  · cases promoted

/-- Implicit promotion keeps what the innermost record says. -/
theorem uleDoImplicitPromotions_innermost {xids : List Nat}
    (promoted : uleDoImplicitPromotions ule xids = some after) :
    innermostXr after = innermostXr ule := by
  unfold uleDoImplicitPromotions at promoted
  split at promoted
  · cases promoted; rfl
  · simp only [bind_inv] at promoted
    obtain ⟨-, -, promoted⟩ := promoted
    split at promoted
    · exact ulePromoteProvisionalInnermostToCommitted_innermost promoted
    · split at promoted
      · exact ulePromoteProvisionalInnermostToIndex_innermost promoted
      · cases promoted; rfl

/-- Promotion by age keeps what the innermost record says. -/
theorem uleTryPromoteProvisionalOutermost_innermost {oldest : Nat}
    (promoted : uleTryPromoteProvisionalOutermost ule oldest = some after) :
    innermostXr after = innermostXr ule := by
  unfold uleTryPromoteProvisionalOutermost at promoted
  split at promoted
  · cases promoted; rfl
  · split at promoted
    · exact ulePromoteProvisionalInnermostToCommitted_innermost promoted
    · cases promoted; rfl

/-- Keeping records down to one that every reader sees keeps the newest of them. -/
theorem keepThrough_head (oldest : Nat) (cuxrs : List Uxr) :
    (keepThrough oldest cuxrs).head? = cuxrs.head? := by
  cases cuxrs with
  | nil => rfl
  | cons uxr older => simp only [keepThrough]; split <;> rfl

/-- Only the transaction of the oldest record is cleared, not what the records say. -/
@[simp] theorem clearBottom_type (cuxrs : List Uxr) :
    (clearBottom cuxrs).map Uxr.type = cuxrs.map Uxr.type := by
  induction cuxrs with
  | nil => rfl
  | cons uxr older ih =>
    cases older with
    | nil => rfl
    | cons next rest => simpa [clearBottom] using ih

/-- What the innermost record says depends only on what the newest committed record says. -/
theorem innermostXr_congr (same : cuxrs.head?.map Uxr.type = ule.cuxrs.head?.map Uxr.type) :
    innermostXr { ule with cuxrs } = innermostXr ule := by
  rcases ule with ⟨_ | ⟨uxr, outer⟩, old⟩
  · simpa [innermostXr] using same
  · rfl

/-- Clearing the oldest record keeps what the newest one says. -/
theorem clearBottom_head {kept : List Uxr} (same : kept.head? = cuxrs.head?) :
    (clearBottom kept).head?.map Uxr.type = cuxrs.head?.map Uxr.type := by
  rw [← List.head?_map, clearBottom_type, List.head?_map, same]

/-- Simple collection keeps what the innermost record says. -/
theorem uleSimpleGarbageCollection_innermost (ule : Ule) (gcInfo : TxnGcInfo) :
    innermostXr (uleSimpleGarbageCollection ule gcInfo) = innermostXr ule := by
  -- Both ways of choosing what to keep start from the newest record.
  have newest : (keptBySimpleGc gcInfo ule.cuxrs).head? = ule.cuxrs.head? := by
    unfold keptBySimpleGc
    split
    · exact keepThrough_head _ _
    · cases ule.cuxrs <;> rfl
  unfold uleSimpleGarbageCollection
  split
  · rfl
  · split
    · rfl
    · exact innermostXr_congr (clearBottom_head newest)

/-- A full walk over the committed records keeps the newest of them. -/
theorem markNecessary_head {state : TxnManagerState} {kept : List Uxr}
    (marked : markNecessary state none cuxrs = some kept) : kept.head? = cuxrs.head? := by
  match cuxrs with
  | [] => cases marked; rfl
  | [bottom] => cases marked; rfl
  | uxr :: next :: older =>
    -- Nothing is skipped before the first record, so it is marked whatever follows.
    simp only [markNecessary, Option.all_none, if_true] at marked
    split at marked
    · obtain ⟨rest, -, rfl⟩ := Option.map_eq_some_iff.mp marked
      rfl
    · simp only [bind_inv] at marked
      obtain ⟨-, -, marked⟩ := marked
      generalize (if getYoungestLiveListTxnidFor uxr.xid state.snapshotXids
        state.referencedXids = txnidNone then _ else _) = tl1 at marked
      by_cases none : tl1 = txnidNone
      · rw [if_pos none] at marked
        cases marked
        rfl
      · rw [if_neg none] at marked
        obtain ⟨rest, -, rfl⟩ := Option.map_eq_some_iff.mp marked
        rfl

/-- Full collection keeps what the innermost record says. -/
theorem uleGarbageCollect_innermost {state : TxnManagerState}
    (collected : uleGarbageCollect ule state = some after) :
    innermostXr after = innermostXr ule := by
  unfold uleGarbageCollect at collected
  split at collected
  · cases collected; rfl
  · simp only [bind_inv] at collected
    obtain ⟨kept, marked, -, -, rfl⟩ := collected
    exact innermostXr_congr (clearBottom_head (markNecessary_head marked))

/-- Collection, whether or not it is worthwhile, keeps what the innermost record says. -/
theorem uleMaybeGarbageCollect_innermost {gcInfo : TxnGcInfo}
    (collected : uleMaybeGarbageCollect ule gcInfo = some after) :
    innermostXr after = innermostXr ule := by
  unfold uleMaybeGarbageCollect at collected
  split at collected
  · cases collected; rfl
  · split at collected
    · simp only [bind_inv] at collected
      obtain ⟨worthwhile, -, collected⟩ := collected
      split at collected
      · exact uleGarbageCollect_innermost collected
      · cases collected; rfl
    · cases collected; rfl

end Tokuft
