import Tokuft.Basic

/-! The unpacked leaf entry and the application of one message to it. -/

namespace Tokuft

/-- What one transaction record says about the row. -/
inductive Xr where
  /-- The row holds this value. -/
  | insert (val : Bytes)
  /-- The row is absent. -/
  | delete
  /-- The transaction has not written, but a transaction nested inside it has. -/
  | placeholder
  deriving DecidableEq, Repr

/-- An unpacked transaction record. -/
structure Uxr where
  type : Xr
  xid : Nat
  deriving DecidableEq, Repr

/-- A record that inserts. -/
def uxrIsInsert (uxr : Uxr) : Bool :=
  match uxr.type with
  | .insert _ => true
  | _ => false

/-- A record that deletes. -/
def uxrIsDelete (uxr : Uxr) : Bool :=
  match uxr.type with
  | .delete => true
  | _ => false

/-- A record that only keeps the place of a transaction. -/
def uxrIsPlaceholder (uxr : Uxr) : Bool :=
  match uxr.type with
  | .placeholder => true
  | _ => false

/--
An unpacked leaf entry.

The source keeps one array, oldest committed record first and innermost provisional record last.
Both parts are kept here with the top of that stack at the head of the list.
-/
structure Ule where
  /-- Provisional records, innermost first. -/
  puxrs : List Uxr
  /-- Committed records, newest first. -/
  cuxrs : List Uxr
  deriving DecidableEq, Repr

/-- How many records are provisional. -/
@[simp] abbrev Ule.numPuxrs (ule : Ule) : Nat := ule.puxrs.length

/-- How many records are committed. -/
@[simp] abbrev Ule.numCuxrs (ule : Ule) : Nat := ule.cuxrs.length

/-- The committed record of a row that was never written. -/
def committedDelete : Uxr := { type := .delete, xid := txnidNone }

/-- The leaf entry of a row that was never written. -/
def uleInitEmptyUle : Ule := { puxrs := [], cuxrs := [committedDelete] }

/-- The innermost record, which exists once something is committed. -/
def uleGetInnermostUxr (ule : Ule) : Option Uxr := do
  invariant (0 < ule.numCuxrs)
  (ule.puxrs ++ ule.cuxrs).head?

/-- The transaction of the innermost record. -/
def uleGetInnermostXid (ule : Ule) : Option Nat := do
  let uxr ← (ule.puxrs ++ ule.cuxrs).head?
  pure uxr.xid

/-- The outermost provisional record, the source's record at index num_cuxrs. -/
def uleGetOutermostProvisional (ule : Ule) : Option Uxr := ule.puxrs.getLast?

/-- Put one more record on top of the stack, on the committed or the provisional side. -/
def ulePushUxr (ule : Ule) (isCommitted : Bool) (uxr : Uxr) : Option Ule := do
  -- The first empty slot exists only below the nesting bound.
  invariant (ule.numPuxrs < maxTransactionRecords - 1)
  if isCommitted then
    invariant (ule.numPuxrs = 0)
    pure { ule with cuxrs := uxr :: ule.cuxrs }
  else
    pure { ule with puxrs := uxr :: ule.puxrs }

/-- Record an insert for a transaction. -/
def ulePushInsertUxr (ule : Ule) (isCommitted : Bool) (xid : Nat) (val : Bytes) : Option Ule :=
  ulePushUxr ule isCommitted { type := .insert val, xid }

/-- Record a delete for a transaction. -/
def ulePushDeleteUxr (ule : Ule) (isCommitted : Bool) (xid : Nat) : Option Ule :=
  ulePushUxr ule isCommitted { type := .delete, xid }

/-- Keep the place of a transaction that has not written. -/
def ulePushPlaceholderUxr (ule : Ule) (xid : Nat) : Option Ule := do
  invariant (0 < ule.numCuxrs)
  ulePushUxr ule false { type := .placeholder, xid }

/-- Pop the top of the stack, undoing whatever the innermost transaction did. -/
def uleRemoveInnermostUxr (ule : Ule) : Option Ule := do
  invariant (0 < ule.numCuxrs)
  match ule.puxrs with
  | _ :: outer => pure { ule with puxrs := outer }
  | [] =>
    -- Only an environment without transactions removes a committed record this way.
    invariant (ule.numCuxrs = 1)
    let xid ← uleGetInnermostXid ule
    invariant (xid = txnidNone)
    pure { ule with cuxrs := [] }

/-- Drop provisional placeholders from the top of a stack that stands on committed records. -/
def dropPlaceholders (cuxrs : List Uxr) : List Uxr → Option Ule
  | uxr :: outer =>
    if uxrIsPlaceholder uxr then dropPlaceholders cuxrs outer
    else some { puxrs := uxr :: outer, cuxrs }
  | [] => do
    -- The loop must stop before it would remove a committed record.
    let top ← cuxrs.head?
    invariant (uxrIsPlaceholder top = false)
    pure { puxrs := [], cuxrs }

/-- Remove placeholders from the top of the stack, where they make no sense. -/
def uleRemoveInnermostPlaceholders (ule : Ule) : Option Ule :=
  dropPlaceholders ule.cuxrs ule.puxrs

/-- Fold the innermost value into a new committed record named by the outermost transaction. -/
def ulePromoteProvisionalInnermostToCommitted (ule : Ule) : Option Ule := do
  invariant (0 < ule.numPuxrs)
  let innermost ← uleGetInnermostUxr ule
  let outermost ← uleGetOutermostProvisional ule
  match innermost.type with
  | .placeholder => none
  | .delete => ulePushDeleteUxr { ule with puxrs := [] } true outermost.xid
  | .insert val => ulePushInsertUxr { ule with puxrs := [] } true outermost.xid val

/--
Fold the innermost value into the provisional record at an index, keeping that record's transaction.

The index counts provisional records from the outermost one, which has index zero.
-/
def ulePromoteProvisionalInnermostToIndex (ule : Ule) (index : Nat) : Option Ule := do
  invariant (index + 1 < ule.numPuxrs)
  let innermost ← uleGetInnermostUxr ule
  match ule.puxrs.drop (ule.numPuxrs - 1 - index), innermost.type with
  | target :: outer, .delete => ulePushDeleteUxr { ule with puxrs := outer } false target.xid
  | target :: outer, .insert val =>
    ulePushInsertUxr { ule with puxrs := outer } false target.xid val
  | _, _ => none

/-- How many records agree with a message's stack, both read from the outermost transaction in. -/
def icaDepth : List Nat → List Uxr → Nat
  | xid :: xids, uxr :: uxrs => if xid = uxr.xid then icaDepth xids uxrs + 1 else 0
  | _, _ => 0

/-- Promote every transaction newer than the innermost common ancestor of the two stacks. -/
def uleDoImplicitPromotions (ule : Ule) (xids : List Nat) : Option Ule := do
  -- No promotion is necessary when everything is already committed.
  if ule.numPuxrs = 0 then pure ule
  else
    invariant (0 < xids.length)
    match icaDepth xids ule.puxrs.reverse with
    | 0 => ulePromoteProvisionalInnermostToCommitted ule
    | index + 1 =>
      -- An innermost record that is itself the common ancestor stays where it is.
      if index + 1 < ule.numPuxrs then ulePromoteProvisionalInnermostToIndex ule index
      else pure ule

/-- Promote the provisional stack when its root transaction is older than any that can be live. -/
def uleTryPromoteProvisionalOutermost (ule : Ule) (oldestPossibleLiveXid : Nat) : Option Ule :=
  match uleGetOutermostProvisional ule with
  | none => pure ule
  | some outermost =>
    if outermost.xid < oldestPossibleLiveXid then ulePromoteProvisionalInnermostToCommitted ule
    else pure ule

/-- Keep the places of the transactions between the innermost record and the writer. -/
def uleAddPlaceholders (ule : Ule) (xids : List Nat) : Option Ule := do
  invariant (0 < ule.numCuxrs)
  invariant (ule.numPuxrs ≤ xids.length)
  -- The stacks must agree as far as the leaf entry reaches.
  invariant (xids.take ule.numPuxrs = ule.puxrs.reverse.map Uxr.xid)
  -- An empty stack makes the loop bound wrap, and the first read past the end stops the process.
  invariant (0 < xids.length)
  (xids.drop ule.numPuxrs).dropLast.foldlM ulePushPlaceholderUxr ule

/-- Discard what the writer did earlier, or make room for its first record. -/
def ulePrepareForNewUxr (ule : Ule) (xids : List Nat) : Option Ule := do
  let thisXid := xidsGetInnermostXid xids
  let innermostXid ← uleGetInnermostXid ule
  if thisXid = txnidNone ∧ innermostXid = txnidNone then uleRemoveInnermostUxr ule
  else if 0 < ule.numPuxrs ∧ innermostXid = thisXid then uleRemoveInnermostUxr ule
  else uleAddPlaceholders ule xids

/-- Write a value unless the row already has one. -/
def uleApplyInsertNoOverwrite (ule : Ule) (xids : List Nat) (val : Bytes) :
    Option (Ule × Int) := do
  invariant (isValidLen val.length)
  let innermost ← uleGetInnermostUxr ule
  if uxrIsInsert innermost then pure (ule, -1)
  else
    let ule ← ulePrepareForNewUxr ule xids
    let thisXid := xidsGetInnermostXid xids
    let ule ← ulePushInsertUxr ule (thisXid == txnidNone) thisXid val
    pure (ule, 0)

/-- Write a value, taking back the caller's count when the row already had one. -/
def uleApplyInsert (ule : Ule) (xids : List Nat) (val : Bytes) : Option (Ule × Int) := do
  invariant (isValidLen val.length)
  let innermost ← uleGetInnermostUxr ule
  let retval : Int := if uxrIsInsert innermost then -1 else 0
  let ule ← ulePrepareForNewUxr ule xids
  let thisXid := xidsGetInnermostXid xids
  let ule ← ulePushInsertUxr ule (thisXid == txnidNone) thisXid val
  pure (ule, retval)

/-- Delete the row, giving back the caller's count when the row was already deleted. -/
def uleApplyDelete (ule : Ule) (xids : List Nat) : Option (Ule × Int) := do
  let innermost ← uleGetInnermostUxr ule
  let retval : Int := if uxrIsDelete innermost then 1 else 0
  let ule ← ulePrepareForNewUxr ule xids
  let thisXid := xidsGetInnermostXid xids
  let ule ← ulePushDeleteUxr ule (thisXid == txnidNone) thisXid
  pure (ule, retval)

/-- The change in the row count that an abort of the innermost record reports. -/
def abortRetval (ule : Ule) (innermost : Uxr) : Int :=
  -- The oldest committed record is the only one the source compares with.
  let oldest := ule.cuxrs.getLast?
  if uxrIsDelete innermost then
    if ule.numPuxrs = 1 ∧ ule.numCuxrs = 1 ∧ oldest.any uxrIsDelete then 0 else 1
  else if uxrIsInsert innermost then
    if ule.numPuxrs = 1 ∧ ule.numCuxrs = 1 ∧ oldest.any uxrIsInsert then 0 else -1
  else 0

/-- Undo what the aborted transaction did to the row, if it did anything. -/
def uleApplyAbort (ule : Ule) (xids : List Nat) : Option (Ule × Int) := do
  let thisXid := xidsGetInnermostXid xids
  invariant (thisXid ≠ txnidNone)
  let innermost ← uleGetInnermostUxr ule
  -- A committed record of the same transaction is no longer there to abort.
  if 0 < ule.numPuxrs ∧ innermost.xid = thisXid then
    let retval := abortRetval ule innermost
    let ule ← uleRemoveInnermostUxr ule
    let ule ← uleRemoveInnermostPlaceholders ule
    invariant (0 < ule.numCuxrs)
    pure (ule, retval)
  else
    pure (ule, 0)

/-- Make the innermost record the only record, committed by no transaction. -/
def uleApplyBroadcastCommitAll (ule : Ule) : Option Ule := do
  let innermost ← (ule.puxrs ++ ule.cuxrs).head?
  pure { puxrs := [], cuxrs := [{ innermost with xid := txnidNone }] }

/-- Promote what the committed transaction did to the row by one level, if it did anything. -/
def uleApplyCommit (ule : Ule) (xids : List Nat) : Option Ule := do
  let thisXid := xidsGetInnermostXid xids
  invariant (thisXid ≠ txnidNone)
  if 0 < ule.numPuxrs then
    let innermostXid ← uleGetInnermostXid ule
    if innermostXid = thisXid then
      if ule.numPuxrs = 1 then ulePromoteProvisionalInnermostToCommitted ule
      else ulePromoteProvisionalInnermostToIndex ule (ule.numPuxrs - 2)
    else pure ule
  else pure ule

/-- Promote the provisional stack when its root transaction is older than the oldest living one. -/
def uleOptimize (ule : Ule) (xids : List Nat) : Option Ule :=
  match uleGetOutermostProvisional ule with
  | none => pure ule
  | some uncommitted => do
    invariant (xids.length ≤ 1)
    let oldestLivingXid := xidsGetOutermostXid xids
    if oldestLivingXid = txnidNone ∨ uncommitted.xid < oldestLivingXid then
      ulePromoteProvisionalInnermostToCommitted ule
    else pure ule

/-- Apply one message to an unpacked leaf entry, reporting the change in the row count. -/
def msgModifyUle {Key : Type} (ule : Ule) (msg : FtMsg Key) : Option (Ule × Int) := do
  let xids := msg.xids
  invariant (xids.length < maxTransactionRecords)
  let ule ←
    if msg.type ≠ .optimize ∧ msg.type ≠ .optimizeForUpgrade then uleDoImplicitPromotions ule xids
    else pure ule
  match msg.type with
  | .insertNoOverwrite => uleApplyInsertNoOverwrite ule xids msg.val
  | .insert => uleApplyInsert ule xids msg.val
  | .deleteAny => uleApplyDelete ule xids
  | .abortAny | .abortBroadcastTxn => uleApplyAbort ule xids
  | .commitBroadcastAll => do
    let ule ← uleApplyBroadcastCommitAll ule
    pure (ule, 0)
  | .commitAny | .commitBroadcastTxn => do
    let ule ← uleApplyCommit ule xids
    pure (ule, 0)
  | .optimize | .optimizeForUpgrade => do
    let ule ← uleOptimize ule xids
    pure (ule, 0)
  -- Updates are translated into inserts before they get this far.
  | .update | .updateBroadcastAll | .none => none

end Tokuft
