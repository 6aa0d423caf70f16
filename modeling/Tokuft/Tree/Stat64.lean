import Mathlib.Tactic.Abel
import Tokuft.Library.SplicedList
import Tokuft.Node.Leaf
import Tokuft.Tree.Basement

/-! Rows and bytes of basement nodes, and how messages and garbage collection change them. -/

namespace Tokuft

/-- A number of rows, and the bytes of their keys and values. -/
@[ext]
structure Stat64Info where
  numrows : Int
  numbytes : Int
  deriving DecidableEq, Repr

namespace Stat64Info

instance : Zero Stat64Info := ⟨⟨0, 0⟩⟩

instance : Add Stat64Info := ⟨fun a b => ⟨a.numrows + b.numrows, a.numbytes + b.numbytes⟩⟩

instance : Neg Stat64Info := ⟨fun a => ⟨-a.numrows, -a.numbytes⟩⟩

@[simp] theorem zero_numrows : (0 : Stat64Info).numrows = 0 := rfl

@[simp] theorem zero_numbytes : (0 : Stat64Info).numbytes = 0 := rfl

@[simp] theorem add_numrows (a b : Stat64Info) : (a + b).numrows = a.numrows + b.numrows := rfl

@[simp] theorem add_numbytes (a b : Stat64Info) : (a + b).numbytes = a.numbytes + b.numbytes := rfl

@[simp] theorem neg_numrows (a : Stat64Info) : (-a).numrows = -a.numrows := rfl

@[simp] theorem neg_numbytes (a : Stat64Info) : (-a).numbytes = -a.numbytes := rfl

/-- Changes of rows and bytes add up, and can be undone. -/
instance : AddCommGroup Stat64Info where
  add_assoc a b c := by ext <;> simp [Int.add_assoc]
  zero_add a := by ext <;> simp
  add_zero a := by ext <;> simp
  add_comm a b := by ext <;> simp [Int.add_comm]
  neg_add_cancel a := by ext <;> simp
  nsmul := nsmulRec
  zsmul := zsmulRec

end Stat64Info

variable {Key : Type}

/-- The rows of a basement node with their keys, in order. -/
abbrev BnRows (Key : Type) := List (Key × Ule)

/-- The bytes of a row that its newest record has, which are none when that one deletes. -/
def uleGetInnermostNumbytes (ule : Ule) (keylen : Nat) : Option Nat := do
  let uxr ← uleGetInnermostUxr ule
  match uxr.type with
  | .delete => pure 0
  | .insert val => pure ((val.length + keylen) % 2 ^ 32)
  -- A placeholder never had a length.
  | .placeholder => none

/-- The bytes of a row that may not be there. -/
def leNumbytes (keylen : Nat) : Option Ule → Option Nat
  | none => pure 0
  | some le => uleGetInnermostNumbytes le keylen

section Rows

variable (sizes : KeySizes Key)

/-- Apply a message to a row, and tell what that changes in the counts. -/
def rowApplyMsgOnce (key : Key) (msg : FtMsg Key) (le : Option Ule) (gcInfo : TxnGcInfo) :
    Option (Option Ule × Stat64Info) := do
  let oldnumbytes ← leNumbytes (sizes.key key) le
  let (newLe, _) ← leApplyMsg msg le gcInfo
  let newnumbytes ← leNumbytes (sizes.key key) newLe
  -- A row was replaced, or deleted, or added.
  let numrowsDelta : Int := match le, newLe with
    | some _, none => -1
    | none, some _ => 1
    | _, _ => 0
  pure (newLe, ⟨numrowsDelta, newnumbytes - oldnumbytes⟩)

/-- Ask the user's function what becomes of a row, and apply that as an insert or a delete. -/
def rowDoUpdate (updateFun : UpdateFunc Key) (key : Key) (msg : FtMsg Key) (le : Option Ule)
    (gcInfo : TxnGcInfo) : Option (Option Ule × Stat64Info) :=
  let latest := le.bind fun le => if leLatestIsDel le then none else leLatestVal le
  match updateFun key latest msg.val with
  | none => pure (le, 0)
  | some newVal =>
    let type := if newVal.isSome then FtMsgType.insert else .deleteAny
    rowApplyMsgOnce sizes key { msg with key, val := newVal.getD [], type } le gcInfo

/-- Whether a garbage collection could drop a record of a row. -/
def leWorthRunningGarbageCollection (le : Ule) (gcInfo : TxnGcInfo) : Bool :=
  if leIsClean le then false
  else if 1 < le.numCuxrs then true
  else 0 < le.numPuxrs &&
    leOutermostUncommittedXid le < gcInfo.oldestReferencedXidForImplicitPromotion

/-- Collect the garbage of a row fully. -/
def leGarbageCollect (le : Ule) (gcInfo : TxnGcInfo) : Option (Option Ule) := do
  let (_, state) ← gcInfo.txnStateForGc
  let ule ← uleTryPromoteProvisionalOutermost le gcInfo.oldestReferencedXidForImplicitPromotion
  let ule ← if 1 < ule.numCuxrs then uleGarbageCollect ule state else pure ule
  uleStore ule

/-- Collect the garbage of a row if that is worth it, and tell what that changes in the counts. -/
def rowGcOnce (key : Key) (le : Ule) (gcInfo : TxnGcInfo) : Option (Option Ule × Stat64Info) :=
  if leWorthRunningGarbageCollection le gcInfo then do
    let oldnumbytes ← uleGetInnermostNumbytes le (sizes.key key)
    let newLe ← leGarbageCollect le gcInfo
    let newnumbytes ← leNumbytes (sizes.key key) newLe
    pure (newLe, ⟨if newLe.isSome then 0 else -1, newnumbytes - oldnumbytes⟩)
  else pure (some le, 0)

/-- Visit every row in order, keep what the visits leave of them, and add up their changes. -/
def visitRows (visit : Key → Ule → Option (Option Ule × Stat64Info)) :
    BnRows Key → Option (BnRows Key × Stat64Info)
  | [] => pure ([], 0)
  | (key, le) :: rest => do
    let (newLe, delta) ← visit key le
    let (rest, more) ← visitRows visit rest
    pure ((newLe.map (key, ·)).toList ++ rest, delta + more)

end Rows

section Table

variable [LinearOrder Key]

/-- Find the row of a key, which is the first one that is not below the key. -/
def findZero (key : Key) : BnRows Key → Option Ule
  | [] => none
  | (other, le) :: rest =>
    if key < other then none
    else if key = other then some le
    else findZero key rest

/-- Change the row of a key, which may not be there before or after. -/
def changeRow (rows : BnRows Key) (key : Key)
    (change : Option Ule → Option (Option Ule × Stat64Info)) :
    Option (BnRows Key × Stat64Info) := do
  let (newLe, delta) ← change (findZero key rows)
  pure (setEntry key newLe rows, delta)

variable (sizes : KeySizes Key) (updateFun : UpdateFunc Key)

/-- Put a message into a basement node, and tell what that changes in the counts. -/
def rowsApplyMsg (rows : BnRows Key) (msg : FtMsg Key) (gcInfo : TxnGcInfo) :
    Option (BnRows Key × Stat64Info) :=
  match msg.type with
  | .insertNoOverwrite | .insert =>
    changeRow rows msg.key fun le => rowApplyMsgOnce sizes msg.key msg le gcInfo
  | .deleteAny | .abortAny | .commitAny =>
    changeRow rows msg.key fun
      -- A row that is not there takes no message and reports no change.
      | none => pure (none, 0)
      | some le => rowApplyMsgOnce sizes msg.key msg (some le) gcInfo
  | .optimizeForUpgrade | .commitBroadcastAll | .optimize =>
    visitRows (fun key le =>
      if leIsClean le then pure (some le, 0)
      else rowApplyMsgOnce sizes key { msg with key } (some le) gcInfo) rows
  | .commitBroadcastTxn | .abortBroadcastTxn =>
    visitRows (fun key le => do
      let represented ← leHasXids le msg.xids
      if represented then rowApplyMsgOnce sizes key { msg with key } (some le) gcInfo
      else pure (some le, 0)) rows
  | .update =>
    changeRow rows msg.key fun le => rowDoUpdate sizes updateFun msg.key msg le gcInfo
  | .updateBroadcastAll =>
    visitRows (fun key le => rowDoUpdate sizes updateFun key msg (some le) gcInfo) rows
  | .none => pure (rows, 0)

end Table

section Laws

variable (sizes : KeySizes Key)

/-- What a row that may not be there counts. -/
def leStats (key : Key) : Option Ule → Stat64Info
  | none => 0
  | some le => ⟨1, (uleGetInnermostNumbytes le (sizes.key key)).getD 0⟩

/-- The number of rows, and their bytes. -/
def rowsStats (rows : BnRows Key) : Stat64Info :=
  (rows.map fun row => leStats sizes row.1 (some row.2)).sum

/-- What was told of a change is the difference of what the row counts after and before. -/
def Tells (key : Key) (old new : Option Ule) (delta : Stat64Info) : Prop :=
  leStats sizes key old + delta = leStats sizes key new

variable {sizes} {key : Key} {old new : Option Ule} {delta : Stat64Info} {gcInfo : TxnGcInfo}

variable {msg : FtMsg Key}

/-- The bytes of a row are those that it counts. -/
theorem leStats_numbytes (le : Option Ule) {numbytes : Nat}
    (known : leNumbytes (sizes.key key) le = some numbytes) :
    leStats sizes key le = ⟨if le.isSome then 1 else 0, numbytes⟩ := by
  cases le with
  | none =>
    cases known
    rfl
  | some le =>
    rw [leNumbytes] at known
    rw [leStats, known]
    rfl

/-- A message tells what it changes in its row. -/
theorem tells_rowApplyMsgOnce
    (applied : rowApplyMsgOnce sizes key msg old gcInfo = some (new, delta)) :
    Tells sizes key old new delta := by
  simp only [rowApplyMsgOnce, bind_inv, Prod.mk.injEq, Prod.exists] at applied
  obtain ⟨oldnumbytes, before, newLe, _, _, newnumbytes, after, rfl, rfl⟩ := applied
  rw [Tells, leStats_numbytes _ before, leStats_numbytes _ after]
  -- The row is there before, or after, or both, or never.
  cases old <;> cases newLe <;> ext <;> simp

/-- An update tells what it changes in its row. -/
theorem tells_rowDoUpdate {updateFun : UpdateFunc Key}
    (updated : rowDoUpdate sizes updateFun key msg old gcInfo = some (new, delta)) :
    Tells sizes key old new delta := by
  rw [rowDoUpdate] at updated
  split at updated
  · cases updated
    exact add_zero _
  · exact tells_rowApplyMsgOnce updated

/-- Garbage collection tells what it changes in a row. -/
theorem tells_rowGcOnce {le : Ule}
    (collected : rowGcOnce sizes key le gcInfo = some (new, delta)) :
    Tells sizes key (some le) new delta := by
  rw [rowGcOnce] at collected
  split at collected
  · simp only [bind_inv, Prod.mk.injEq] at collected
    obtain ⟨oldnumbytes, before, newLe, _, newnumbytes, after, rfl, rfl⟩ := collected
    rw [Tells, leStats_numbytes (some le) before, leStats_numbytes _ after]
    -- A row that garbage collection leaves nothing of is one row less.
    cases newLe <;> ext <;> simp
  · cases collected
    exact add_zero _

/-- Visits that tell what they change add up to what changes in the rows. -/
theorem visitRows_stats {visit : Key → Ule → Option (Option Ule × Stat64Info)}
    (tells : ∀ {key le new delta}, visit key le = some (new, delta) →
      Tells sizes key (some le) new delta) :
    ∀ {rows after : BnRows Key} {delta : Stat64Info}, visitRows visit rows = some (after, delta) →
      rowsStats sizes rows + delta = rowsStats sizes after := by
  intro rows
  induction rows with
  | nil =>
    intro after delta visited
    cases visited
    rfl
  | cons row rest ih =>
    intro after delta visited
    simp only [visitRows, bind_inv, Prod.mk.injEq, Prod.exists] at visited
    obtain ⟨newLe, here, first, restAfter, more, later, rfl, rfl⟩ := visited
    have told := tells first
    have counted := ih later
    rw [Tells] at told
    -- The new row stands where the old one did, or there is none.
    have placed : rowsStats sizes ((newLe.map (row.1, ·)).toList ++ restAfter) =
        leStats sizes row.1 newLe + rowsStats sizes restAfter := by
      cases newLe with
      | none => exact (zero_add _).symm
      | some le => rfl
    rw [placed, ← told, ← counted]
    show leStats sizes row.1 (some row.2) + rowsStats sizes rest + (here + more) = _
    abel

variable [LinearOrder Key]

/-- Setting the row of a key takes out what it counted, and puts in what it counts now. -/
theorem rowsStats_setEntry (sizes : KeySizes Key) (rows : BnRows Key) (key : Key)
    (new : Option Ule) :
    rowsStats sizes (setEntry key new rows) + leStats sizes key (findZero key rows) =
      rowsStats sizes rows + leStats sizes key new := by
  have placed (rest : BnRows Key) : rowsStats sizes ((new.map (key, ·)).toList ++ rest) =
      leStats sizes key new + rowsStats sizes rest := by
    cases new with
    | none => exact (zero_add _).symm
    | some le => rfl
  induction rows with
  | nil =>
    rw [setEntry, placed]
    exact (add_zero _).trans (add_comm _ _)
  | cons row rest ih =>
    rcases row with ⟨other, le⟩
    rw [setEntry, findZero]
    by_cases below : key < other
    · -- No row has the key.
      rw [if_pos below, if_pos below, placed]
      exact (add_zero _).trans (add_comm _ _)
    · rw [if_neg below, if_neg below]
      by_cases same : key = other
      · subst same
        rw [if_pos rfl, if_pos rfl, placed]
        show _ = leStats sizes key (some le) + rowsStats sizes rest + leStats sizes key new
        abel
      · rw [if_neg same, if_neg same]
        show leStats sizes other (some le) + rowsStats sizes (setEntry key new rest) + _ =
          leStats sizes other (some le) + rowsStats sizes rest + _
        rw [add_assoc, ih, add_assoc]

/-- A change that tells what it changes in its row tells what changes in the rows. -/
theorem changeRow_stats {rows after : BnRows Key}
    {change : Option Ule → Option (Option Ule × Stat64Info)}
    (tells : ∀ {old new delta}, change old = some (new, delta) → Tells sizes key old new delta)
    (changed : changeRow rows key change = some (after, delta)) :
    rowsStats sizes rows + delta = rowsStats sizes after := by
  simp only [changeRow, bind_inv, Prod.mk.injEq, Prod.exists] at changed
  obtain ⟨newLe, deltaLe, made, rfl, rfl⟩ := changed
  have told := tells made
  have counted := rowsStats_setEntry sizes rows key newLe
  rw [Tells] at told
  rw [← told, ← add_assoc, add_right_comm] at counted
  exact (add_right_cancel counted).symm

/-- Every message tells what it changes in the rows of a basement node. -/
theorem rowsApplyMsg_stats {updateFun : UpdateFunc Key} {rows after : BnRows Key}
    (applied : rowsApplyMsg sizes updateFun rows msg gcInfo = some (after, delta)) :
    rowsStats sizes rows + delta = rowsStats sizes after := by
  -- A row that is left as it is tells of no change.
  have kept {key : Key} {le : Option Ule} : Tells sizes key le le 0 := add_zero _
  cases type : msg.type with
  | insert | insertNoOverwrite =>
    simp only [rowsApplyMsg, type] at applied
    exact changeRow_stats tells_rowApplyMsgOnce applied
  | deleteAny | abortAny | commitAny =>
    simp only [rowsApplyMsg, type] at applied
    refine changeRow_stats ?_ applied
    intro old new delta changed
    cases old with
    | none =>
      cases changed
      exact kept
    | some le => exact tells_rowApplyMsgOnce changed
  | optimizeForUpgrade | commitBroadcastAll | optimize =>
    simp only [rowsApplyMsg, type] at applied
    refine visitRows_stats ?_ applied
    intro key le new delta visited
    by_cases clean : leIsClean le
    · rw [if_pos clean] at visited
      cases visited
      exact kept
    · rw [if_neg clean] at visited
      exact tells_rowApplyMsgOnce visited
  | commitBroadcastTxn | abortBroadcastTxn =>
    simp only [rowsApplyMsg, type] at applied
    refine visitRows_stats ?_ applied
    intro key le new delta visited
    obtain ⟨represented, -, visited⟩ := of_bind visited
    cases represented with
    | false =>
      cases visited
      exact kept
    | true => exact tells_rowApplyMsgOnce visited
  | update =>
    simp only [rowsApplyMsg, type] at applied
    exact changeRow_stats tells_rowDoUpdate applied
  | updateBroadcastAll =>
    simp only [rowsApplyMsg, type] at applied
    exact visitRows_stats tells_rowDoUpdate applied
  | none =>
    simp only [rowsApplyMsg, type] at applied
    cases applied
    exact add_zero _

end Laws

end Tokuft
