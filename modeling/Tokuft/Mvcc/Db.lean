import Tokuft.Leafentry.Gc
import Tokuft.Leafentry.NestedRun
import Tokuft.Txn.World

/-! Transactions that write rows under locks, and rows whose garbage is collected meanwhile. -/

namespace Tokuft

/-- A row, and what its readers should be given. -/
structure DbRow (Key : Type) where
  row : Ule
  /-- What the open transactions of the row's writer see; no step of the engine reads this. -/
  history : KeyHistory Key
  /-- What each root has left that committed, latest first; no step reads this either. -/
  versions : List (Nat × Row)
  /-- The root that holds the row lock, or none. -/
  lock : Nat
  /-- The worlds since the row was last written, from which collection may have its copy. -/
  clones : List TxnWorld

/-- A table and its transactions. -/
structure Db (Key : Type) where
  txns : TxnWorld
  /-- The bounds that the manager has published so far. -/
  published : List Nat
  rows : Key → DbRow Key

variable {Key : Type}

/-- A row that was never written. -/
def DbRow.init : DbRow Key where
  row := uleInitEmptyUle
  history := .init
  versions := []
  lock := txnidNone
  clones := [.init]

/-- A table that was never written. -/
def Db.init : Db Key where
  txns := .init
  published := [TxnManager.init.lastCalculatedOldestReferencedXid]
  rows := fun _ => .init

/-- What a statement does to a row. -/
inductive RowWrite where
  | insert (val : Bytes)
  | insertNoOverwrite (val : Bytes)
  | delete
  deriving DecidableEq, Repr

/-- The event of a row's history that a write is. -/
def RowWrite.keyEvent (msn : Nat) : RowWrite → KeyEvent
  | .insert val => .insert msn val
  | .insertNoOverwrite val => .insertNoOverwrite msn val
  | .delete => .delete msn

/-- One of the two ways to collect garbage. -/
inductive Collection where
  /-- By a bound that was published at some time. -/
  | simple (gcInfo : TxnGcInfo)
  /-- By a copy of the manager's state, given by its place among the worlds since the last write. -/
  | full (clone : Nat)
  deriving DecidableEq, Repr

/-- What can happen in a database. -/
inductive DbEvent (Key : Type) where
  /-- A transaction starts or ends; a child that ends has committed. -/
  | txn (event : TxnEvent)
  /-- The innermost child of a root aborts, sending messages to the rows that it wrote. -/
  | abortChild (root : Nat) (msns : Key → List Nat)
  /-- The innermost open transaction of a root writes a row. -/
  | write (root : Nat) (key : Key) (msn : Nat) (write : RowWrite)
  /-- A root that is ending sends messages to a row that it wrote. -/
  | finishRow (root : Nat) (key : Key) (msns : List Nat)
  /-- A row is promoted because its writer is older than a bound no higher than a published one. -/
  | promote (key : Key) (oldest : Nat)
  | collect (key : Key) (collection : Collection)

/-- What happens to the transactions when something happens in the database. -/
def DbEvent.txnEvent : DbEvent Key → Option TxnEvent
  | .txn event => some event
  | .abortChild root _ => some (.completeChild root)
  | _ => none

/-- One event of the row's history, whose messages reach the row at once. -/
def DbRow.act (row : DbRow Key) (key : Key) (event : KeyEvent) : Option (DbRow Key) := do
  let history ← row.history.step key event
  let next ← applyMsgs row.row (history.delivered.drop row.history.delivered.length)
  pure { row with row := next, history }

/-- Whether the open transactions of a root are those that the row's history follows. -/
def DbRow.heldBy (row : DbRow Key) (root : Nat) : Bool :=
  row.lock == root && !row.history.nest.scopes.isEmpty

/-- The events by which a root's open transactions enter the history of a row. -/
def openingEvents (root : Nat) (chain : List TokuTxn) : List KeyEvent :=
  .beginRoot root :: chain.reverse.tail.map fun child => .beginChild child.childId64

/-- Lock a row for a root and enter its open transactions, unless the root holds the lock. -/
def DbRow.acquire (row : DbRow Key) (key : Key) (root : Nat) (chain : List TokuTxn) :
    Option (DbRow Key) := do
  invariant (row.lock = txnidNone ∨ row.lock = root)
  if row.lock = root then pure row
  else
    let opened ← (openingEvents root chain).foldlM (fun row event => row.act key event) row
    pure { opened with lock := root }

/-- The innermost open transaction of a root writes the row. -/
def DbRow.write (row : DbRow Key) (key : Key) (world : TxnWorld) (root msn : Nat)
    (write : RowWrite) : Option (DbRow Key) :=
  match world.txns root with
  | [] => none
  | txn :: outer => do
    invariant (txn.state = .live ∧ txn.declaredReadOnly = false)
    invariant (∀ open_ ∈ txn :: outer, open_.beginWasLogged = true)
    let locked ← row.acquire key root (txn :: outer)
    let written ← locked.act key (write.keyEvent msn)
    -- No copy that is older than this write may be used on the row any more.
    pure { written with clones := [] }

/-- A root that is ending leaves its value in the row, or takes it back. -/
def DbRow.finish (row : DbRow Key) (key : Key) (root : Nat) (state : TokuTxnState)
    (msns : List Nat) : Option (DbRow Key) :=
  match state with
  | .live => none
  | .aborting => row.act key (.abort msns)
  | .committing => do
    let finished ← row.act key (.commit msns)
    let left := (row.history.nest.scopes.head?.bind Scope.own).map fun value => (root, value)
    pure { finished with versions := left.toList ++ finished.versions }

/-- A root that is ending finishes one row ahead of its end. -/
def DbRow.finishRow (row : DbRow Key) (key : Key) (world : TxnWorld) (root : Nat)
    (msns : List Nat) : Option (DbRow Key) :=
  match world.txns root with
  | [txn] => do
    invariant (row.heldBy root)
    row.finish key root txn.state msns
  | _ => none

/-- A root ends, leaving the rows that it has not finished as they are, and unlocking all. -/
def DbRow.completeRoot (row : DbRow Key) (key : Key) (world : TxnWorld) (root : Nat) :
    Option (DbRow Key) :=
  match world.txns root with
  | [txn] => do
    let finished ← if row.heldBy root then row.finish key root txn.state [] else pure row
    pure (if row.lock = root then { finished with lock := txnidNone } else finished)
  | _ => none

/-- What an event of the transactions does to a row. -/
def DbRow.afterTxn (row : DbRow Key) (key : Key) (world : TxnWorld) :
    TxnEvent → Option (DbRow Key)
  | .beginChild root =>
    if row.heldBy root then
      row.act key (.beginChild (startChildTxn root (world.lastChildXid root)))
    else pure row
  | .completeChild root => if row.heldBy root then row.act key (.commit []) else pure row
  | .completeRoot root => row.completeRoot key world root
  | _ => pure row

/-- Collect the garbage of a row. -/
def DbRow.collect (row : DbRow Key) (published : List Nat) : Collection → Option Ule
  | .simple gcInfo => do
    invariant (gcInfo.mvccNeeded = true ∧ gcInfo.oldestReferencedXidForSimpleGc ∈ published)
    pure (uleSimpleGarbageCollection row.row gcInfo)
  | .full clone => do
    let copied ← row.clones[clone]?
    uleGarbageCollect row.row copied.mgr.cloneStateForGc

variable [DecidableEq Key]

/-- What an event does to a row. -/
def DbRow.next (row : DbRow Key) (key : Key) (world : TxnWorld) (published : List Nat) :
    DbEvent Key → Option (DbRow Key)
  | .txn event => row.afterTxn key world event
  | .abortChild root msns =>
    if row.heldBy root then row.act key (.abort (msns key)) else pure row
  | .write root target msn write =>
    if target = key then row.write key world root msn write else pure row
  | .finishRow root target msns =>
    if target = key then row.finishRow key world root msns else pure row
  | .promote target oldest =>
    if target = key then do
      invariant (∃ estimate ∈ published, oldest ≤ estimate)
      let promoted ← uleTryPromoteProvisionalOutermost row.row oldest
      pure { row with row := promoted }
    else pure row
  | .collect target collection =>
    if target = key then do
      let collected ← row.collect published collection
      pure { row with row := collected }
    else pure row

/-- One step, which every row takes together with the transactions. -/
structure Db.Step (before : Db Key) (event : DbEvent Key) (after : Db Key) : Prop where
  txns : event.txnEvent.elim (some before.txns) before.txns.next = some after.txns
  published : after.published =
    after.txns.mgr.lastCalculatedOldestReferencedXid :: before.published
  rows : ∀ key, ((before.rows key).next key before.txns before.published event).map
    (fun row => { row with clones := after.txns :: row.clones }) = some (after.rows key)

/-- The databases that a run of events leads to. -/
def Db.Reaches (events : List (DbEvent Key)) (db : Db Key) : Prop :=
  Runs Db.Step .init events db

omit [DecidableEq Key]

/-- What a root has written to a row and not taken back, as its innermost transaction sees it. -/
def DbRow.ownWrite (row : DbRow Key) (root : Nat) : Option Row :=
  if row.lock = root ∧ row.history.nest.scopes.any (·.own.isSome) then some row.history.nest.view
  else row.versions.lookup root

/-- What the last root left that had committed a write when a snapshot was created. -/
def versionBefore (finished : List FinishedTxn) (versions : List (Nat × Row))
    (snapshotXid : Nat) : Row :=
  ((finished.find? fun txn =>
    txn.committed && decide (txn.lastXid < snapshotXid) &&
      (versions.lookup txn.xid).isSome).bind fun txn => versions.lookup txn.xid).getD none

/-- What a transaction should read that has a snapshot. -/
def Db.shouldRead (db : Db Key) (key : Key) (root snapshotXid : Nat) : Row :=
  ((db.rows key).ownWrite root).getD
    (versionBefore db.txns.finished (db.rows key).versions snapshotXid)

end Tokuft
