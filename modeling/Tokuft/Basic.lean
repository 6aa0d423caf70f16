import Mathlib.Algebra.Order.BigOperators.Ring.Finset

/-! Identifiers, messages, and the assertion monad shared by every layer of the engine. -/

namespace Tokuft

/-- A row value or a key, as the bytes it occupies. -/
abbrev Bytes := List UInt8

/-- Transaction identifiers count up from one, and this one stands for no transaction at all. -/
abbrev txnidNone : Nat := 0

/-- The deepest nesting of transactions the engine admits. -/
def maxNestedTransactions : Nat := 253

/-- One record for every nested transaction and one for the implicit transaction zero. -/
def maxTransactionRecords : Nat := maxNestedTransactions + 1

/-- Lengths share their word with a type bit, so the top bit has to be clear. -/
def isValidLen (len : Nat) : Prop := len < 2 ^ 31

instance (len : Nat) : Decidable (isValidLen len) := inferInstanceAs (Decidable (len < 2 ^ 31))

/-- A check of the source that stops the process, modelled as an absent result. -/
def invariant (holds : Prop) [Decidable holds] : Option Unit :=
  -- The source aborts on a failed check, so nothing after it has a value.
  if holds then some () else none

/-- A check that holds lets the computation continue. -/
@[simp] theorem invariant_of {holds : Prop} [Decidable holds] (h : holds) :
    invariant holds = some () := if_pos h

/-- A check lets the computation continue only when it holds. -/
@[simp] theorem invariant_eq_some {holds : Prop} [Decidable holds] {u : Unit} :
    invariant holds = some u ↔ holds := by
  simp [invariant]

/-- A step that an assertion guards is only done when the assertion holds. -/
theorem of_invariant {α : Type} {condition : Prop} [Decidable condition] {rest : Unit → Option α}
    {result : α} (done : (invariant condition).bind rest = some result) :
    condition ∧ rest () = some result := by
  by_cases holds : condition
  · rw [invariant, if_pos holds] at done
    exact ⟨holds, done⟩
  · rw [invariant, if_neg holds] at done
    cases done

universe u

/-- A computation that returned went on with what the one before it returned. -/
theorem of_bind {α β : Type u} {first : Option α} {rest : α → Option β} {result : β}
    (done : first.bind rest = some result) : ∃ a, first = some a ∧ rest a = some result :=
  Option.bind_eq_some_iff.mp done

/-- A computation goes on with what the one before it returned. -/
theorem bind_of_some {α β : Type u} (a : α) (rest : α → Option β) : (some a >>= rest) = rest a :=
  rfl

/-- The rules that run a computation whose parts return, to be given to `simp` together. -/
theorem bind_runs :
    (∀ {α β : Type u} (first : Option α) (rest : α → Option β), first >>= rest = first.bind rest) ∧
    (∀ {α β : Type u} (a : α) (rest : α → Option β), (some a).bind rest = rest a) ∧
    ∀ {α : Type u} (a : α), (pure a : Option α) = some a :=
  ⟨fun _ _ => rfl, fun _ _ => rfl, fun _ => rfl⟩

/-- The rules that take a computation apart which returned, to be given to `simp` together. -/
theorem bind_inv :
    (∀ {α β : Type u} (first : Option α) (rest : α → Option β), first >>= rest = first.bind rest) ∧
    (∀ {α β : Type u} {first : Option α} {rest : α → Option β} {b : β},
      first.bind rest = some b ↔ ∃ a, first = some a ∧ rest a = some b) ∧
    (∀ {α : Type u} (a : α), (pure a : Option α) = some a) ∧
    ∀ {α : Type u} (a b : α), some a = some b ↔ a = b :=
  ⟨fun _ _ => rfl, Option.bind_eq_some_iff, fun _ => rfl, fun _ _ => Option.some_inj⟩

/-- The kinds of message a tree can carry. -/
inductive FtMsgType where
  | none
  | insert
  | deleteAny
  | abortAny
  | commitAny
  | commitBroadcastAll
  | commitBroadcastTxn
  | abortBroadcastTxn
  | insertNoOverwrite
  | optimize
  | optimizeForUpgrade
  | update
  | updateBroadcastAll
  deriving DecidableEq, Repr

/-- A message names its key, carries a value, and is stamped with its transaction stack. -/
structure FtMsg (Key : Type) where
  key : Key
  val : Bytes
  type : FtMsgType
  /-- The message sequence number, drawn from one counter of the tree. -/
  msn : Nat
  /-- The transaction stack of the sender, outermost first. -/
  xids : List Nat
  deriving DecidableEq, Repr

/-- The innermost transaction of a stack, or none when the stack is empty. -/
def xidsGetInnermostXid (xids : List Nat) : Nat := xids.getLast?.getD txnidNone

/-- The outermost transaction of a stack, or none when the stack is empty. -/
def xidsGetOutermostXid (xids : List Nat) : Nat := xids.head?.getD txnidNone

end Tokuft
