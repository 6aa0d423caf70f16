import Tokuft.Leafentry.RowDelta
import Tokuft.Tree.Basement

/-! The logical row count: adjusted when messages are sent, corrected when they are applied. -/

namespace Tokuft

variable {Key : Type}

/-- The messages that one transaction sends about one key. -/
def isKeyMessage : FtMsgType → Bool
  | .insert | .insertNoOverwrite | .deleteAny | .abortAny | .commitAny => true
  | _ => false

/-- What the sender of a message adds to the count. -/
def sentDelta : FtMsgType → Int
  | .insert | .insertNoOverwrite => 1
  | .deleteAny => -1
  | _ => 0

/-- The condition under which applying a message to a leaf entry reports the right change. -/
def MessageReports (msg : FtMsg Key) (le : Ule) : Prop :=
  msg.type = .abortAny →
    ∀ promoted ∈ uleDoImplicitPromotions le msg.xids, AbortReports promoted msg.xids

instance (msg : FtMsg Key) (le : Ule) : Decidable (MessageReports msg le) :=
  inferInstanceAs (Decidable (_ → ∀ promoted ∈ uleDoImplicitPromotions le msg.xids, _))

variable {msg : FtMsg Key} {delta : Int} {gcInfo : TxnGcInfo}

/-- A message reports rightly exactly under its condition. -/
theorem msgModifyUle_delta {le after : Ule} (applied : msgModifyUle le msg = some (after, delta))
    (keyed : isKeyMessage msg.type = true) (solid : innermostXr le ≠ some .placeholder) :
    innermostXr after ≠ some .placeholder ∧
      (((rowPresent after).toNat : Int) = (rowPresent le).toNat + sentDelta msg.type + delta ↔
        MessageReports msg le) := by
  have ordinary : msg.type ≠ .optimize ∧ msg.type ≠ .optimizeForUpgrade := by
    constructor <;> intro type <;> simp [isKeyMessage, type] at keyed
  simp only [msgModifyUle, if_pos ordinary, bind_inv]
    at applied
  obtain ⟨-, -, promoted, promotion, applied⟩ := applied
  -- Promotion changes nothing that the count could see.
  have kept := uleDoImplicitPromotions_innermost promotion
  have present : rowPresent le = rowPresent promoted := by rw [rowPresent, rowPresent, kept]
  rw [← kept] at solid
  cases type : msg.type with
  | insert =>
    -- The row is there afterwards, and the report gives back what was counted twice.
    simp only [type] at applied
    obtain ⟨top, rfl⟩ := uleApplyInsert_delta applied
    have done : rowPresent after = true := by rw [rowPresent, top]; rfl
    refine ⟨by rw [top]; simp, iff_of_true ?_ (by simp [MessageReports, type])⟩
    rw [done, present]
    cases rowPresent promoted <;> rfl
  | insertNoOverwrite =>
    simp only [type] at applied
    rcases uleApplyInsertNoOverwrite_delta applied with ⟨there, rfl, rfl⟩ | ⟨missing, top, rfl⟩
    · -- The row was there already and stays as it is.
      refine ⟨solid, iff_of_true ?_ (by simp [MessageReports, type])⟩
      rw [present, there]; rfl
    · have done : rowPresent after = true := by rw [rowPresent, top]; rfl
      refine ⟨by rw [top]; simp, iff_of_true ?_ (by simp [MessageReports, type])⟩
      rw [done, present, missing]; rfl
  | deleteAny =>
    simp only [type] at applied
    obtain ⟨top, rfl⟩ := uleApplyDelete_delta applied
    have gone : rowPresent after = false := by rw [rowPresent, top]; rfl
    refine ⟨by rw [top]; simp, iff_of_true ?_ (by simp [MessageReports, type])⟩
    -- A record on top that is no placeholder either inserts or deletes.
    rw [gone, present, rowPresent]
    obtain ⟨innermost, found⟩ : ∃ xr, innermostXr promoted = some xr := by
      simp only [uleApplyDelete, bind_inv] at applied
      obtain ⟨uxr, found, -⟩ := applied
      exact ⟨_, innermostXr_of_get found⟩
    rw [found] at solid ⊢
    cases innermost with
    | insert val => rfl
    | delete => rfl
    | placeholder => exact absurd rfl solid
  | abortAny =>
    simp only [type] at applied
    obtain ⟨solidAfter, reports⟩ := uleApplyAbort_delta applied solid
    have condition : MessageReports msg le ↔ AbortReports promoted msg.xids := by
      simp [MessageReports, type, promotion]
    refine ⟨solidAfter, ?_⟩
    rw [condition, ← reports, present]
    simp [sentDelta]
  | commitAny =>
    -- The record that a commit moves down the stack stays the newest.
    simp only [type, Option.bind_eq_some_iff, Option.some.injEq,
      Prod.mk.injEq] at applied
    obtain ⟨committed, commit, rfl, rfl⟩ := applied
    have same := uleApplyCommit_innermost commit
    refine ⟨by rwa [same], iff_of_true ?_ (by simp [MessageReports, type])⟩
    rw [present, rowPresent, rowPresent, same]; simp [sentDelta]
  | _ => simp [isKeyMessage, type] at keyed

/-- A row that is there when it is stored is there when it is read again. -/
theorem uleStore_present {ule : Ule} {new : Option Ule} (stored : uleStore ule = some new) :
    (∀ le ∈ new, le = ule) ∧ new.any rowPresent = rowPresent ule := by
  simp only [uleStore, bind_inv] at stored
  obtain ⟨packed, packing, rfl⟩ := stored
  cases packed with
  | some bytes => simp
  | none =>
    -- Only a leaf entry in which nothing inserts is stored as nothing.
    simp only [lePack, bind_inv] at packing
    obtain ⟨-, -, root, -, -, -, packing⟩ := packing
    split at packing
    · -- Some record inserts, and then packing ends with bytes.
      simp only [Option.bind_eq_some_iff] at packing
      obtain ⟨memsize, -, packing⟩ := packing
      split at packing <;> simp [Option.bind_eq_some_iff] at packing
    · rename_i nothing
      refine ⟨by simp, ?_⟩
      rw [rowPresent, innermostXr]
      cases head : (ule.puxrs ++ ule.cuxrs).head? with
      | none => rfl
      | some uxr =>
        have member : uxr ∈ ule.cuxrs ++ ule.puxrs := by
          have inside := List.mem_of_mem_head? head
          rw [List.mem_append] at inside ⊢
          exact inside.symm
        have inserts : uxrIsInsert uxr = false := by
          simpa using fun found => nothing (List.any_eq_true.mpr ⟨uxr, member, found⟩)
        rw [Option.map_some, ← uxrIsInsert_present, inserts]
        rfl

/-- What a leaf entry's message does is not undone by promotion, collection, or storing. -/
theorem leApplyMsg_delta {old new : Option Ule}
    (applied : leApplyMsg msg old gcInfo = some (new, delta)) (keyed : isKeyMessage msg.type = true)
    (solid : ∀ le ∈ old, innermostXr le ≠ some .placeholder) :
    (∀ le ∈ new, innermostXr le ≠ some .placeholder) ∧
      (((new.any rowPresent).toNat : Int) =
          (old.any rowPresent).toNat + sentDelta msg.type + delta ↔
        MessageReports msg (old.getD uleInitEmptyUle)) := by
  simp only [leApplyMsg, bind_inv, Prod.mk.injEq, Prod.exists] at applied
  obtain ⟨modified, reported, modify, promoted, promotion, collected, collection, stored, storing,
    rfl, rfl⟩ := applied
  -- A missing row reads as the entry with one delete, which is not there either.
  have solidOld : innermostXr (old.getD uleInitEmptyUle) ≠ some .placeholder := by
    cases old with
    | none => decide
    | some le => exact solid le rfl
  have presentOld : old.any rowPresent = rowPresent (old.getD uleInitEmptyUle) := by
    cases old <;> rfl
  have kept : innermostXr collected = innermostXr modified := by
    rw [uleMaybeGarbageCollect_innermost collection, uleSimpleGarbageCollection_innermost,
      uleTryPromoteProvisionalOutermost_innermost promotion]
  obtain ⟨same, presentNew⟩ := uleStore_present storing
  obtain ⟨solidNew, exact⟩ := msgModifyUle_delta modify keyed solidOld
  refine ⟨fun le member => ?_, ?_⟩
  · rw [same le member, kept]; exact solidNew
  · rw [presentNew, presentOld, ← exact, rowPresent, kept, ← rowPresent]

variable [LinearOrder Key]

/-- No row's newest record is a placeholder. -/
def BnSolid (bn : BnData Key) : Prop :=
  ∀ key, ∀ le ∈ bn.get key, innermostXr le ≠ some .placeholder

/--
The condition under which applying a message to a basement node reports the right change.

A delete that finds no leaf entry is dropped, although its sender has subtracted a row.
-/
def BnReports (bn : BnData Key) (msg : FtMsg Key) : Prop :=
  match bn.get msg.key with
  | none => msg.type ≠ .deleteAny
  | some le => MessageReports msg le

instance (bn : BnData Key) (msg : FtMsg Key) : Decidable (BnReports bn msg) :=
  match found : bn.get msg.key with
  | none => decidable_of_iff (msg.type ≠ .deleteAny) (by rw [BnReports, found])
  | some le => decidable_of_iff (MessageReports msg le) (by rw [BnReports, found])

/-- One row's message reports rightly exactly under its condition. -/
theorem bnApplyMsgOnce_delta {bn after : BnData Key}
    (applied : bnApplyMsgOnce bn msg.key msg (bn.get msg.key) gcInfo = some (after, delta))
    (keyed : isKeyMessage msg.type = true) (solid : BnSolid bn) :
    BnSolid after ∧
      ((after.count rowPresent : Int) = bn.count rowPresent + sentDelta msg.type + delta ↔
        MessageReports msg ((bn.get msg.key).getD uleInitEmptyUle)) := by
  simp only [bnApplyMsgOnce, bind_inv, Prod.mk.injEq, Prod.exists] at applied
  obtain ⟨newLe, deltaLe, row, rfl, rfl⟩ := applied
  obtain ⟨solidNew, exact⟩ := leApplyMsg_delta row keyed (solid msg.key)
  refine ⟨fun key le member => ?_, ?_⟩
  · rw [SortedTable.get_set] at member
    split at member
    · exact solidNew le member
    · exact solid key le member
  · -- Only the row of the message changes the count.
    have counted := bn.count_set msg.key newLe rowPresent
    rw [← exact]
    omega

/-- A message to a basement node reports rightly exactly under its condition. -/
theorem bnApplyMsg_delta {updateFun : UpdateFunc Key} {bn after : BnData Key}
    (applied : bnApplyMsg updateFun bn msg gcInfo = some (after, delta))
    (keyed : isKeyMessage msg.type = true) (solid : BnSolid bn) :
    BnSolid after ∧
      ((after.count rowPresent : Int) = bn.count rowPresent + sentDelta msg.type + delta ↔
        BnReports bn msg) := by
  cases found : bn.get msg.key with
  | some le =>
    -- A row that is there takes every message of its key.
    have once : bnApplyMsgOnce bn msg.key msg (bn.get msg.key) gcInfo = some (after, delta) := by
      rw [← applied, bnApplyMsg, found]
      cases type : msg.type <;> first | rfl | simp [isKeyMessage, type] at keyed
    simpa [BnReports, found] using bnApplyMsgOnce_delta once keyed solid
  | none =>
    by_cases creates : msg.type = .insert ∨ msg.type = .insertNoOverwrite
    · -- An insert makes the row that it does not find.
      have once : bnApplyMsgOnce bn msg.key msg (bn.get msg.key) gcInfo =
          some (after, delta) := by
        rw [← applied, bnApplyMsg]
        rcases creates with type | type <;> rw [type]
      obtain ⟨solidAfter, exact⟩ := bnApplyMsgOnce_delta once keyed solid
      have reports : MessageReports msg ((bn.get msg.key).getD uleInitEmptyUle) := by
        rcases creates with type | type <;> simp [MessageReports, type]
      have kind : msg.type ≠ .deleteAny := by rcases creates with type | type <;> simp [type]
      exact ⟨solidAfter, iff_of_true (exact.mpr reports) (by simpa [BnReports, found])⟩
    · -- Every other message of a missing key is dropped.
      have dropped : after = bn ∧ delta = 0 := by
        rw [bnApplyMsg, found] at applied
        cases type : msg.type <;> simp [isKeyMessage, type] at keyed creates <;>
          simpa [type, eq_comm] using applied
      obtain ⟨rfl, rfl⟩ := dropped
      refine ⟨solid, ?_⟩
      rw [BnReports, found]
      cases type : msg.type with
      -- The sender subtracted a row that was never there.
      | deleteAny => exact iff_of_false (by rw [sentDelta]; omega) (by simp)
      | abortAny => exact iff_of_true (by simp [sentDelta]) (by simp)
      | commitAny => exact iff_of_true (by simp [sentDelta]) (by simp)
      | _ => simp [isKeyMessage, type] at keyed creates

end Tokuft
