import Tokuft.Leafentry.Ule

/-! What a hot indexer sends into a new dictionary for one leaf entry of the source dictionary. -/

namespace Tokuft

/-- Where a transaction stands, as the indexer reads it. -/
inductive TokutxnState where
  | live
  | preparing
  | committing
  | aborting
  | retired
  deriving DecidableEq, Repr

/-- A transaction that is pinned stays live or preparing. -/
def TokutxnState.isPinnable : TokutxnState → Bool
  | .live => true
  | .preparing => true
  | _ => false

/-- What is done to a row of the new dictionary. -/
inductive HotKind where
  | deleteCommitted
  | deleteProvisional (txn : Option Nat)
  | insertCommitted (val : Bytes)
  | insertProvisional (val : Bytes) (txn : Option Nat)
  | commit
  deriving DecidableEq, Repr

/-- A message for the new dictionary. -/
structure HotMsg where
  hotdb : Nat
  kind : HotKind
  key : Bytes
  xids : List Nat
  deriving DecidableEq, Repr

/-- The caller's functions that make the rows of a new dictionary, or fail. -/
structure GenerateRows where
  put : Nat → Bytes → Bytes → Int × List (Bytes × Bytes)
  del : Nat → Bytes → Bytes → Int × List Bytes

/-- What the indexer asked for, and got a result for. -/
inductive Asked where
  /-- Something with this result. -/
  | answered (result : Int)
  /-- A number of sends from a call on, of which only the last result is looked at. -/
  | sends (first count : Nat)
  deriving DecidableEq, Repr

/-- What the indexer has done so far. -/
structure HotState where
  /-- How many messages it tried to send. -/
  calls : Nat
  /-- The keys to be committed. -/
  commitKeys : List Bytes
  /-- The messages that were sent, which the source does not record. -/
  sent : List HotMsg
  /-- What was asked for, which the source does not record. -/
  asked : List Asked
  deriving DecidableEq, Repr

/-- The result that the indexer looks at. -/
def Asked.result (senders : Nat → Int) : Asked → Int
  | .answered result => result
  | .sends first count => if count = 0 then 0 else senders (first + count - 1)

/-- A send failed, and a later one of the same array was the one that was looked at. -/
def Asked.Hides (senders : Nat → Int) : Asked → Prop
  | .answered _ => False
  | .sends first count => (∃ i < count, senders (first + i) ≠ 0) ∧
    Asked.result senders (.sends first count) = 0

/-- The error for an argument that is not valid. -/
abbrev einval : Int := 22

namespace HotState

/-- Forget the keys to be committed. -/
def setEmpty (s : HotState) : HotState := { s with commitKeys := [] }

/-- Note a result. -/
def answered (s : HotState) (result : Int) : HotState :=
  { s with asked := s.asked ++ [.answered result] }

/-- Try to send a message, and keep its key if it was sent and has to be committed. -/
def send (senders : Nat → Int) (keepsKey : Bool) (msg : HotMsg) (s : HotState) : Int × HotState :=
  let result := senders s.calls
  if result = 0 then
    (result, { s with
      calls := s.calls + 1
      sent := s.sent ++ [msg]
      commitKeys := s.commitKeys ++ if keepsKey then [msg.key] else [] })
  else (result, { s with calls := s.calls + 1 })

/-- Send the messages of an array, with the result of the last one. -/
def sendEach (senders : Nat → Int) (keepsKey : Bool) :
    List HotMsg → Int → HotState → Int × HotState
  | [], result, s => (result, s)
  | msg :: rest, _, s =>
    -- The source goes on after a failure, and the next result takes its place.
    let (result, s) := s.send senders keepsKey msg
    sendEach senders keepsKey rest result s

/-- Send an array of messages. -/
def sendArray (senders : Nat → Int) (keepsKey : Bool) (msgs : List HotMsg) (s : HotState) :
    Int × HotState :=
  sendEach senders keepsKey msgs 0 { s with asked := s.asked ++ [.sends s.calls msgs.length] }

/-- Send commit messages for keys, up to the first that fails; the root has nothing to commit. -/
def sendCommits (senders : Nat → Int) (hotdb : Nat) (xids : List Nat) :
    List Bytes → HotState → Int × HotState
  | [], s => (0, s)
  | key :: rest, s =>
    if xids = [] then sendCommits senders hotdb xids rest s
    else
      let (result, s) := s.sendArray senders false [{ hotdb, kind := .commit, key, xids }]
      if result ≠ 0 then (result, s) else sendCommits senders hotdb xids rest s

end HotState

/-- Go on with a state unless the result is an error. -/
def unlessError (first : Option (Int × HotState)) (next : HotState → Option (Int × HotState)) :
    Option (Int × HotState) :=
  first.bind fun done => if done.1 ≠ 0 then some done else next done.2

/-- The transactions of a child, unless they are nested too deep. -/
def xidsCreateChild (parent : List Nat) (xid : Nat) : Int × List Nat :=
  if parent.length + 1 = maxTransactionRecords then (einval, parent) else (0, parent ++ [xid])

/-- The root and one transaction, which is left out when it is the root itself. -/
def indexerSetXid (xid : Nat) (xids : List Nat) : Int × List Nat :=
  if xid = txnidNone then (0, [])
  else
    let (result, child) := xidsCreateChild [] xid
    if result = 0 then (0, child) else (result, xids)

/-- What is known of a leaf entry and the transactions of its provisional records. -/
structure UleProvInfo where
  key : Bytes
  ule : Ule
  provStates : List TokutxnState
  provTxns : List (Option Nat)
  deriving DecidableEq, Repr

/-- The records of a leaf entry, the oldest committed one first and the innermost one last. -/
def Ule.uxrs (ule : Ule) : List Uxr := (ule.puxrs ++ ule.cuxrs).reverse

/-- The last record before an index that is no placeholder. -/
def indexerFindPrevXr (ule : Ule) (xrindex : Nat) : Option Uxr :=
  (ule.uxrs.take xrindex).reverse.find? fun uxr => !uxrIsPlaceholder uxr

/-- How messages are sent: what kind they are for a value, and whether the key
is to be committed. -/
structure HotMode where
  kind : Bytes → HotKind
  keepsKey : Bool
  /-- Whether the checks in front of a send pass. -/
  allowed : Bool

section

variable (senders : Nat → Int) (gen : GenerateRows) (hotdb : Nat) (info : UleProvInfo)

/-- The messages for the rows that a value has in the new dictionary. -/
def insertMsgs (mode : HotMode) (xids : List Nat) (rows : List (Bytes × Bytes)) : List HotMsg :=
  rows.map fun (key, val) => { hotdb, kind := mode.kind val, key, xids }

/-- The messages for the keys that a value had in the new dictionary. -/
def deleteMsgs (mode : HotMode) (xids : List Nat) (keys : List Bytes) : List HotMsg :=
  keys.map fun key => { hotdb, kind := mode.kind [], key, xids }

/-- Delete the rows of the record before. -/
def undoRecord (mode : HotMode) (xids : List Nat) (prevuxr : Uxr) (s : HotState) :
    Option (Int × HotState) :=
  match prevuxr.type with
  | .delete => some (0, s)
  | .insert val =>
    let (result, keys) := gen.del hotdb info.key val
    unlessError (some (result, s.answered result)) fun s => do
      invariant (keys = [] ∨ mode.allowed = true)
      some (s.sendArray senders mode.keepsKey (deleteMsgs hotdb mode xids keys))
  | .placeholder => none

/-- Insert the rows of a record. -/
def doRecord (mode : HotMode) (xids : List Nat) (uxr : Uxr) (s : HotState) :
    Option (Int × HotState) :=
  match uxr.type with
  | .delete => some (0, s)
  | .insert val =>
    let (result, rows) := gen.put hotdb info.key val
    unlessError (some (result, s.answered result)) fun s => do
      invariant (rows = [] ∨ mode.allowed = true)
      some (s.sendArray senders mode.keepsKey (insertMsgs hotdb mode xids rows))
  | .placeholder => none

/-- The deletes of the committed pass. -/
def committedDeletes : HotMode where
  kind _ := .deleteCommitted
  keepsKey := true
  allowed := true

/-- The inserts of the committed pass. -/
def committedInserts : HotMode where
  kind val := .insertCommitted val
  keepsKey := true
  allowed := true

/-- Undo the record before, unless there is none. -/
def undoPrevious (mode : HotMode) (xids : List Nat) (prevuxr : Option Uxr) (s : HotState) :
    Option (Int × HotState) :=
  match prevuxr with
  | none => some (0, s)
  | some prevuxr => undoRecord senders gen hotdb info mode xids prevuxr s

/-- Undo and do the committed records from the bottom to the top. -/
def indexerUndoDoCommitted : List Uxr → Option Uxr → HotState → Option (Int × HotState)
  | [], _, s => some (0, s)
  | uxr :: rest, prevuxr, s =>
    let (result, xids) := indexerSetXid uxr.xid []
    unlessError (some (result, s.setEmpty.answered result)) fun s => do
      -- Placeholders in the committed stack are not allowed.
      invariant (uxrIsPlaceholder uxr = false)
      unlessError (undoPrevious senders gen hotdb info committedDeletes xids prevuxr s) fun s =>
        unlessError (doRecord senders gen hotdb info committedInserts xids uxr s) fun s =>
          unlessError (some (s.sendCommits senders hotdb xids s.commitKeys)) fun s =>
            indexerUndoDoCommitted rest (some uxr) s

/-- How the provisional pass deletes, by the state of the outermost transaction. -/
def provisionalDeletes (outermost : TokutxnState) (currTxn : Option Nat) (allowed : Bool) :
    HotMode :=
  match outermost with
  | .live | .preparing =>
    { kind := fun _ => .deleteProvisional currTxn, keepsKey := false, allowed }
  | .committing | .retired =>
    { kind := fun _ => .deleteCommitted, keepsKey := true, allowed := true }
  -- The pass stops at a transaction that is aborting.
  | .aborting => { kind := fun _ => .deleteCommitted, keepsKey := true, allowed := false }

/-- How the provisional pass inserts, which commits implicitly. -/
def provisionalInserts (outermost : TokutxnState) (currTxn : Option Nat) (allowed : Bool) :
    HotMode :=
  match outermost with
  | .live | .preparing =>
    { kind := fun val => .insertProvisional val currTxn, keepsKey := false, allowed }
  | .committing | .retired =>
    { kind := fun val => .insertCommitted val, keepsKey := false, allowed := true }
  | .aborting => { kind := fun val => .insertCommitted val, keepsKey := false, allowed := false }

/-- A provisional record with the state of its transaction, and the transaction if it was found. -/
structure ProvRecord where
  uxr : Uxr
  state : TokutxnState
  txn : Option Nat

/-- The provisional records of a leaf entry, the outermost first. -/
def UleProvInfo.provRecords (info : UleProvInfo) : List ProvRecord :=
  (info.ule.puxrs.reverse.zip (info.provStates.zip info.provTxns)).map
    fun (uxr, state, txn) => { uxr, state, txn }

/-- The transactions to send for, and the current one, when a record is entered. -/
def enterRecord (isOutermost : Bool) (record : ProvRecord) (xids : List Nat)
    (currTxn : Option Nat) : Option (Int × List Nat × Option Nat) :=
  if isOutermost then
    let (result, xids) := indexerSetXid record.uxr.xid xids
    some (result, xids, record.txn)
  else match record.state with
    | .live => do
      let (result, xids) := xidsCreateChild xids record.uxr.xid
      invariant (record.txn.isSome = true)
      some (result, xids, record.txn)
    | .preparing => none
    | _ => some (0, xids, currTxn)

/-- Undo and do a provisional record, unless it is a placeholder, which is skipped. -/
def provisionalRecord (outermost : TokutxnState) (allowed : Bool) (xrindex : Nat) (xids : List Nat)
    (currTxn : Option Nat) (uxr : Uxr) (s : HotState) : Option (Int × HotState) :=
  if uxrIsPlaceholder uxr then some (0, s)
  else
    unlessError
      (undoPrevious senders gen hotdb info (provisionalDeletes outermost currTxn allowed) xids
        (indexerFindPrevXr info.ule xrindex) s)
      (doRecord senders gen hotdb info (provisionalInserts outermost currTxn allowed) xids uxr)

/-- Undo and do the provisional records from the outermost to the innermost. -/
def provisionalLoop (outermost : TokutxnState) (allowed : Option Nat → Bool) :
    List ProvRecord → Nat → List Nat → Option Nat → HotState → Option (Int × List Nat × HotState)
  | [], _, xids, _, s => some (0, xids, s)
  | record :: rest, xrindex, xids, currTxn, s =>
    -- Nothing is done once a transaction is reached that is aborting.
    if record.state = .aborting then some (0, xids, s)
    else do
      let (result, xids, currTxn) ←
        enterRecord (xrindex == info.ule.numCuxrs) record xids currTxn
      let s := s.answered result
      if result ≠ 0 then some (result, xids, s)
      else do
        invariant (outermost ≠ .live ∧ info.ule.numCuxrs < xrindex → record.state = .retired)
        let (result, s) ← provisionalRecord senders gen hotdb info outermost (allowed currTxn)
          xrindex xids currTxn record.uxr s
        if result ≠ 0 then some (result, xids, s)
        else provisionalLoop outermost allowed rest (xrindex + 1) xids currTxn s

/-- Undo and do the provisional records, and commit if the outermost transaction has. -/
def undoDoProvisionalRecords (allowed : Option Nat → Bool) (s : HotState) :
    Option (Int × HotState) :=
  match info.provStates.head? with
  | none => some (0, s.setEmpty)
  | some outermost => do
    let (result, xids, s) ← provisionalLoop senders gen hotdb info outermost allowed
      info.provRecords info.ule.numCuxrs [] none s.setEmpty
    if result ≠ 0 then some (result, s)
    else some (s.sendCommits senders hotdb xids s.commitKeys)

end

end Tokuft
