import Tokuft.Leafentry.Gc
import Tokuft.Leafentry.Read
import Tokuft.Library.SortedTable

/-! A basement node's rows, and the application of one message to them. -/

namespace Tokuft

/-- The rows of a basement node, in order of their keys. -/
abbrev BnData (Key : Type) [LinearOrder Key] := SortedTable Key Ule

/--
The user's update function.

It sees the key, the latest value if there is one, and the message's extra data.
It may leave the row alone, delete it, or give it a value.
-/
abbrev UpdateFunc (Key : Type) := Key → Option Bytes → Bytes → Option (Option Bytes)

variable {Key : Type} [LinearOrder Key]

/-- A row with one committed value and nothing else. -/
def leIsClean (le : Ule) : Bool := le.numCuxrs == 1 && le.numPuxrs == 0

/-- Whether a row carries records of the root transaction of a stack. -/
def leHasXids (le : Ule) (xids : List Nat) : Option Bool := do
  invariant (0 < xids.length)
  let xid := xidsGetOutermostXid xids
  invariant (xid ≠ txnidNone)
  pure (leOutermostUncommittedXid le == xid)

/-- Apply a message to the row of a key, which may not be there. -/
def bnApplyMsgOnce (bn : BnData Key) (key : Key) (msg : FtMsg Key) (le : Option Ule)
    (gcInfo : TxnGcInfo) : Option (BnData Key × Int) := do
  let (newLe, logicalRowsDeltaLe) ← leApplyMsg msg le gcInfo
  pure (bn.set key newLe, logicalRowsDeltaLe)

/-- Ask the user's function what becomes of a row, and apply that as an insert or a delete. -/
def doUpdate (updateFun : UpdateFunc Key) (bn : BnData Key) (key : Key) (msg : FtMsg Key)
    (le : Option Ule) (gcInfo : TxnGcInfo) : Option (BnData Key × Int) :=
  let latest := le.bind fun le => if leLatestIsDel le then none else leLatestVal le
  match updateFun key latest msg.val with
  | none => pure (bn, 0)
  | some newVal =>
    let type := if newVal.isSome then FtMsgType.insert else .deleteAny
    bnApplyMsgOnce bn key { msg with key, val := newVal.getD [], type } le gcInfo

/-- Visit every row in order, adding up the changes that the visits report. -/
def bnForEach (bn : BnData Key) (visit : BnData Key → Key → Ule → Option (BnData Key × Int)) :
    Option (BnData Key × Int) :=
  (bn.entries.map Prod.fst).foldlM (fun (bn, delta) key =>
    match bn.get key with
    | none => pure (bn, delta)
    | some le => do
      let (bn, more) ← visit bn key le
      pure (bn, delta + more)) (bn, 0)

/-- Put a message into a basement node, reporting the change in the logical row count. -/
def bnApplyMsg (updateFun : UpdateFunc Key) (bn : BnData Key) (msg : FtMsg Key)
    (gcInfo : TxnGcInfo) : Option (BnData Key × Int) :=
  match msg.type with
  | .insertNoOverwrite | .insert => bnApplyMsgOnce bn msg.key msg (bn.get msg.key) gcInfo
  | .deleteAny | .abortAny | .commitAny =>
    match bn.get msg.key with
    -- A row that is not there takes no message and reports no change.
    | none => pure (bn, 0)
    | some le => bnApplyMsgOnce bn msg.key msg (some le) gcInfo
  | .optimizeForUpgrade | .commitBroadcastAll | .optimize =>
    bnForEach bn fun bn key le =>
      if leIsClean le then pure (bn, 0)
      else bnApplyMsgOnce bn key { msg with key } (some le) gcInfo
  | .commitBroadcastTxn | .abortBroadcastTxn =>
    bnForEach bn fun bn key le => do
      let represented ← leHasXids le msg.xids
      if represented then bnApplyMsgOnce bn key { msg with key } (some le) gcInfo
      else pure (bn, 0)
  | .update => doUpdate updateFun bn msg.key msg (bn.get msg.key) gcInfo
  | .updateBroadcastAll => do
    -- The changes that the rows report are not counted for a broadcast update.
    let (bn, _) ← bnForEach bn fun bn key le => doUpdate updateFun bn key msg (some le) gcInfo
    pure (bn, 0)
  | .none => pure (bn, 0)

end Tokuft
