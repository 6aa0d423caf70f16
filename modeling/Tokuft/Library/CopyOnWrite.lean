import Mathlib.Data.List.Basic

/-! Nested scopes that copy a value on their first write, hand it out on commit, and drop it on
abort. -/

namespace Tokuft

/-- A scope has a name and, once it has written, its own copy of the value. -/
structure Scope (Name Value : Type) where
  name : Name
  own : Option Value
  deriving DecidableEq, Repr

/-- A value outside every scope, and the open scopes above it, innermost first. -/
structure Nest (Name Value : Type) where
  base : Value
  scopes : List (Scope Name Value)
  deriving DecidableEq, Repr

variable {Name Value : Type}

/-- What the innermost of some scopes sees: its own copy, or what its parent sees. -/
def viewOf (base : Value) : List (Scope Name Value) → Value
  | [] => base
  | scope :: outer => scope.own.getD (viewOf base outer)

/-- What the innermost scope of a nest sees. -/
def Nest.view (nest : Nest Name Value) : Value := viewOf nest.base nest.scopes

/-- Open a scope that has written nothing yet. -/
def Nest.enter (nest : Nest Name Value) (name : Name) : Nest Name Value :=
  { nest with scopes := { name, own := none } :: nest.scopes }

/-- The innermost scope writes its own copy. -/
def Nest.write (nest : Nest Name Value) (value : Value) : Nest Name Value :=
  match nest.scopes with
  | [] => nest
  | scope :: outer => { nest with scopes := { scope with own := some value } :: outer }

/-- The innermost scope closes and hands its copy, if it has one, to its parent. -/
def Nest.commit (nest : Nest Name Value) : Nest Name Value :=
  match nest.scopes with
  | [] => nest
  | [root] => { base := root.own.getD nest.base, scopes := [] }
  | scope :: parent :: outer =>
    { nest with scopes := { parent with own := scope.own.or parent.own } :: outer }

/-- The innermost scope closes and its copy is lost. -/
def Nest.abort (nest : Nest Name Value) : Nest Name Value :=
  { nest with scopes := nest.scopes.tail }

/-- A scope that has not written sees what its parent sees. -/
theorem viewOf_untouched {base : Value} {untouched live : List (Scope Name Value)}
    (none : ∀ scope ∈ untouched, scope.own = none) :
    viewOf base (untouched ++ live) = viewOf base live := by
  induction untouched with
  | nil => rfl
  | cons scope rest ih =>
    -- The innermost scope has no copy, so the view falls through to the rest.
    simp only [List.cons_append, viewOf, none scope (by simp), Option.getD_none]
    exact ih fun other member => none other (by simp [member])

/-- Committing a scope changes nothing that can be seen. -/
@[simp] theorem Nest.view_commit (nest : Nest Name Value) : nest.commit.view = nest.view := by
  -- The parent receives exactly the copy that its child was showing.
  rcases nest with ⟨base, _ | ⟨scope, _ | ⟨parent, outer⟩⟩⟩
  · rfl
  · rfl
  · cases copied : scope.own <;> simp [Nest.view, Nest.commit, viewOf, copied]

/-- Committing a scope that wrote nothing only closes it. -/
theorem Nest.commit_untouched {nest : Nest Name Value} {scope : Scope Name Value}
    {outer : List (Scope Name Value)} (scopes : nest.scopes = scope :: outer)
    (untouched : scope.own = none) : nest.commit = nest.abort := by
  cases outer <;> simp [Nest.commit, Nest.abort, scopes, untouched]

end Tokuft
