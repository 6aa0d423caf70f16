import Tokuft.Library.CopyOnWrite
import Tokuft.Library.Runs
import Tokuft.Leafentry.UleLaws
import Tokuft.Txn.State

/-! A leaf entry refines nested copy-on-write transactions, whichever commits are never sent. -/

namespace Tokuft

/-- A row holds a value or nothing. -/
abbrev Row := Option Bytes

/-- The record that says what a row holds. -/
def rowRecord : Row → Xr
  | none => .delete
  | some val => .insert val

/-- The record of a transaction, which only keeps its place until it writes. -/
def ownRecord : Option Row → Xr
  | none => .placeholder
  | some row => rowRecord row

/-- The provisional record of one open transaction. -/
def scopeUxr (scope : Scope Nat Row) : Uxr := { type := ownRecord scope.own, xid := scope.name }

/-- What happens to one key, seen from the transaction that acts on it. -/
inductive KeyEvent where
  /-- A root transaction starts. -/
  | beginRoot (xid : Nat)
  /-- The innermost transaction starts a child. -/
  | beginChild (xid : Nat)
  /-- The innermost transaction writes a value. -/
  | insert (msn : Nat) (val : Bytes)
  /-- The innermost transaction writes a value unless the row already has one. -/
  | insertNoOverwrite (msn : Nat) (val : Bytes)
  /-- The innermost transaction deletes the row. -/
  | delete (msn : Nat)
  /-- The innermost transaction commits, sending one message for each of these numbers. -/
  | commit (msns : List Nat)
  /-- The innermost transaction aborts, sending one message for each of these numbers. -/
  | abort (msns : List Nat)
  deriving DecidableEq, Repr

/-- The reference semantics of one key's history, and the messages delivered so far. -/
structure KeyHistory (Key : Type) where
  nest : Nest Nat Row
  /-- The root identifiers used so far. -/
  rootIds : List Nat
  /-- The identifiers used so far within the current root, its own included. -/
  childIds : List Nat
  delivered : List (FtMsg Key)
  deriving DecidableEq, Repr

/-- Before anything happens the row is absent and no transaction is open. -/
def KeyHistory.init {Key : Type} : KeyHistory Key :=
  { nest := { base := none, scopes := [] }, rootIds := [], childIds := [], delivered := [] }

/-- The transaction stack of the innermost open transaction, outermost first. -/
def stackOf (scopes : List (Scope Nat Row)) : List Nat := (scopes.map Scope.name).reverse

variable {Key : Type}

/-- The message the innermost open transaction sends. -/
def KeyHistory.message (history : KeyHistory Key) (key : Key) (type : FtMsgType) (val : Bytes)
    (msn : Nat) : FtMsg Key :=
  { key, val, type, msn, xids := stackOf history.nest.scopes }

/-- One event of a properly nested history, or nothing when the event is not admitted. -/
def KeyHistory.step (key : Key) (history : KeyHistory Key) :
    KeyEvent → Option (KeyHistory Key)
  | .beginRoot xid => do
    -- A root waits for the previous root to end, and its identifier is new.
    invariant (history.nest.scopes = [] ∧ xid ≠ txnidNone ∧ xid ∉ history.rootIds)
    pure { history with nest := history.nest.enter xid, rootIds := xid :: history.rootIds,
                        childIds := [xid] }
  | .beginChild xid => do
    invariant (history.nest.scopes ≠ [] ∧ history.nest.scopes.length < maxNestedTransactions)
    invariant (xid ≠ txnidNone ∧ xid ∉ history.childIds)
    pure { history with nest := history.nest.enter xid, childIds := xid :: history.childIds }
  | .insert msn val => do
    invariant (history.nest.scopes ≠ [] ∧ isValidLen val.length)
    pure { history with nest := history.nest.write (some val),
                        delivered := history.delivered ++ [history.message key .insert val msn] }
  | .insertNoOverwrite msn val => do
    invariant (history.nest.scopes ≠ [] ∧ isValidLen val.length)
    let nest := if history.nest.view = none then history.nest.write (some val) else history.nest
    pure { history with nest, delivered := history.delivered ++
                                [history.message key .insertNoOverwrite val msn] }
  | .delete msn => do
    invariant (history.nest.scopes ≠ [])
    pure { history with nest := history.nest.write none,
                        delivered := history.delivered ++ [history.message key .deleteAny [] msn] }
  | .commit msns => do
    -- Whether a commit is delivered is up to the sender.
    invariant (history.nest.scopes ≠ [])
    pure { history with nest := history.nest.commit,
                        delivered := history.delivered ++
                          msns.map (history.message key .commitAny []) }
  | .abort msns => do
    -- An abort is delivered at least once when the transaction wrote the key.
    invariant (∃ scope ∈ history.nest.scopes.head?, scope.own = none ∨ msns ≠ [])
    pure { history with nest := history.nest.abort,
                        delivered := history.delivered ++
                          msns.map (history.message key .abortAny []) }

/-- A history of one key, as the run of its events. -/
def KeyHistory.Reaches (key : Key) (events : List KeyEvent) (history : KeyHistory Key) : Prop :=
  Runs (fun before event after => before.step key event = some after) .init events history

/-- Apply messages in order, keeping the leaf entry. -/
def applyMsgs (ule : Ule) (msgs : List (FtMsg Key)) : Option Ule :=
  msgs.foldlM (fun ule msg => (msgModifyUle ule msg).map Prod.fst) ule

end Tokuft
