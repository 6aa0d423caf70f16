import Mathlib.Data.List.TakeWhile
import Tokuft.Leafentry.Nested

/-! The relation between a leaf entry and the reference semantics, kept by every message. -/

namespace Tokuft

variable {Key : Type}

/-- A record of a row is never a placeholder. -/
theorem rowRecord_solid (row : Row) : rowRecord row ≠ .placeholder := by
  cases row <;> simp [rowRecord]

/-- The open transactions that have something to show, down from the innermost that wrote. -/
def touchedScopes (scopes : List (Scope Nat Row)) : List (Scope Nat Row) :=
  scopes.dropWhile (fun scope => scope.own.isNone)

/-- The leaf entry shows exactly the open transactions and the value outside them. -/
structure Settled (nest : Nest Nat Row) (ule : Ule) : Prop where
  provisional : ule.puxrs = (touchedScopes nest.scopes).map scopeUxr
  committed : ∃ top rest, ule.cuxrs = top :: rest ∧ top.type = rowRecord nest.base

/--
How a leaf entry stands to the reference semantics between two messages.

Either it is settled, or it still carries records of transactions that committed silently.
-/
inductive Represents (history : KeyHistory Key) (ule : Ule) : Prop where
  | settled (settled : Settled history.nest ule)
  | stale (untouched live : List (Scope Nat Row)) (dead : Uxr) (deads shared : List Uxr)
      (scopes : history.nest.scopes = untouched ++ live)
      (bare : ∀ scope ∈ untouched, scope.own = none)
      (provisional : ule.puxrs = dead :: deads ++ shared)
      (value : dead.type = rowRecord (viewOf history.nest.base live))
      (names : shared.map Uxr.xid = live.map Scope.name)
      (outer : shared.tail = live.tail.map scopeUxr)
      (touched : ∀ scope ∈ live.head?, scope.own ≠ none)
      (based : ule.cuxrs ≠ [])
      (base : live ≠ [] → ∃ top rest, ule.cuxrs = top :: rest ∧
        top.type = rowRecord history.nest.base)
      (apart : ∀ scope ∈ untouched.getLast?, ∀ uxr ∈ (dead :: deads).getLast?,
        scope.name ≠ uxr.xid)
      (known : ∀ uxr ∈ (dead :: deads).getLast?,
        uxr.xid ∈ if live = [] then history.rootIds else history.childIds)

/-- What holds of the names of the open transactions, innermost first. -/
structure NamesOk (names rootIds childIds : List Nat) : Prop where
  depth : names.length ≤ maxNestedTransactions
  named : ∀ name ∈ names, name ≠ txnidNone
  distinct : names.Nodup
  known : ∀ name ∈ names, name ∈ childIds
  rooted : ∀ name ∈ names.getLast?, name ∈ rootIds

/-- What the events keep true of the identifiers of the open transactions. -/
def ScopesOk (history : KeyHistory Key) : Prop :=
  NamesOk (history.nest.scopes.map Scope.name) history.rootIds history.childIds

variable {scope : Scope Nat Row} {nest : Nest Nat Row} {ule : Ule}

/-- The touched scopes are the outer end of the open ones. -/
theorem touchedScopes_split (scopes : List (Scope Nat Row)) :
    ∃ untouched, scopes = untouched ++ touchedScopes scopes ∧
      ∀ scope ∈ untouched, scope.own = none := by
  refine ⟨scopes.takeWhile (fun scope => scope.own.isNone), ?_, fun scope member => ?_⟩
  · exact (List.takeWhile_append_dropWhile).symm
  · simpa using List.mem_takeWhile_imp member

/-- Scopes that have not written are skipped, and the first one that has stops the skipping. -/
theorem touchedScopes_append {untouched live : List (Scope Nat Row)}
    (bare : ∀ scope ∈ untouched, scope.own = none)
    (touched : ∀ scope ∈ live.head?, scope.own ≠ none) :
    touchedScopes (untouched ++ live) = live := by
  -- By induction on the scopes that have not written.
  induction untouched with
  | nil =>
    cases live with
    | nil => rfl
    | cons scope outer =>
      have written : scope.own ≠ none := touched scope (by simp)
      simp [touchedScopes, Option.isNone_eq_false_iff.mpr
        (Option.isSome_iff_ne_none.mpr written)]
  | cons scope rest ih =>
    have empty : scope.own = none := bare scope (by simp)
    have rest := ih fun other member => bare other (by simp [member])
    simpa [touchedScopes, List.dropWhile, empty] using rest

/-- A scope that has written is touched, and so are all the scopes around it. -/
theorem touchedScopes_written (outer : List (Scope Nat Row)) (written : scope.own ≠ none) :
    touchedScopes (scope :: outer) = scope :: outer :=
  touchedScopes_append (List.forall_mem_nil _) (by simpa using written)

/-- The innermost touched scope has written. -/
theorem touchedScopes_head (scopes : List (Scope Nat Row)) :
    ∀ scope ∈ (touchedScopes scopes).head?, scope.own ≠ none := by
  intro scope member empty
  have stops := List.head?_dropWhile_not (fun scope : Scope Nat Row => scope.own.isNone) scopes
  simp only [touchedScopes, Option.mem_def] at member
  simp [member, empty] at stops

/-- The records of scopes carry their names. -/
@[simp] theorem map_xid_scopeUxr (scopes : List (Scope Nat Row)) :
    (scopes.map scopeUxr).map Uxr.xid = scopes.map Scope.name := by
  simp [scopeUxr, Function.comp_def]

/-- The stack of some open transactions starts with the stack of the outer ones. -/
theorem stackOf_append (inner outer : List (Scope Nat Row)) :
    stackOf (inner ++ outer) = stackOf outer ++ stackOf inner := by
  simp [stackOf]

/-- The innermost transaction of a stack is the innermost open scope. -/
@[simp] theorem xidsGetInnermostXid_stackOf (scope : Scope Nat Row)
    (outer : List (Scope Nat Row)) :
    xidsGetInnermostXid (stackOf (scope :: outer)) = scope.name := by
  simp [xidsGetInnermostXid, stackOf]

/-- A settled leaf entry shows what the innermost transaction sees. -/
theorem Settled.innermost (settled : Settled nest ule) :
    ∃ uxr, uleGetInnermostUxr ule = some uxr ∧ uxr.type = rowRecord nest.view := by
  obtain ⟨top, rest, cuxrs, type⟩ := settled.committed
  obtain ⟨untouched, split, bare⟩ := touchedScopes_split nest.scopes
  -- Scopes that have not written show what the touched ones show.
  have view : nest.view = viewOf nest.base (touchedScopes nest.scopes) := by
    rw [Nest.view, split, viewOf_untouched bare, ← split]
  have provisional := settled.provisional
  have head := touchedScopes_head nest.scopes
  rcases ule with ⟨puxrs, committed⟩
  cases live : touchedScopes nest.scopes with
  | nil =>
    simp only [live, List.map_nil] at provisional view
    subst provisional cuxrs
    exact ⟨top, uleGetInnermostUxr_committed top rest, by rw [type, view, viewOf]⟩
  | cons scope outer =>
    simp only [live, List.map_cons] at provisional view
    subst provisional cuxrs
    refine ⟨scopeUxr scope, uleGetInnermostUxr_provisional (by simp), ?_⟩
    obtain ⟨row, written⟩ := Option.ne_none_iff_exists'.mp (head scope (by simp [live]))
    simp [view, viewOf, scopeUxr, ownRecord, written]

section

variable {history : KeyHistory Key} (rep : Represents history ule)
include rep

/-- A leaf entry shows what the innermost transaction sees, settled or not. -/
theorem Represents.innermost :
    ∃ uxr, uleGetInnermostUxr ule = some uxr ∧ uxr.type = rowRecord history.nest.view := by
  cases rep with
  | settled settled => exact settled.innermost
  | stale untouched live dead deads shared scopes bare provisional value names outer touched
      based base apart known =>
    -- The newest silent commit left its value on top.
    refine ⟨dead, ?_, ?_⟩
    · rcases ule with ⟨puxrs, cuxrs⟩
      simp only at provisional
      subst provisional
      exact uleGetInnermostUxr_provisional based
    · rw [value, Nest.view, scopes, viewOf_untouched bare]

/-- Implicit promotion settles a leaf entry for the stack of the open transactions. -/
theorem Represents.promote (ok : ScopesOk history) (opened : history.nest.scopes ≠ []) :
    ∃ settled, uleDoImplicitPromotions ule (stackOf history.nest.scopes) = some settled ∧
      Settled history.nest settled := by
  cases rep with
  | settled settled =>
    -- A settled leaf entry is already aligned with the stack.
    obtain ⟨untouched, split, -⟩ := touchedScopes_split history.nest.scopes
    refine ⟨ule, uleDoImplicitPromotions_aligned ⟨stackOf untouched, ?_⟩, settled⟩
    rw [settled.provisional, map_xid_scopeUxr]
    conv_lhs => rw [split]
    exact stackOf_append untouched (touchedScopes history.nest.scopes)
  | stale untouched live dead deads shared scopes bare provisional value names outer touched
      based base apart known =>
    -- The silent commits are folded into the innermost transaction that is still open.
    rcases ule with ⟨puxrs, cuxrs⟩
    simp only at provisional
    subst provisional
    have common : stackOf history.nest.scopes =
        (shared.map Uxr.xid).reverse ++ stackOf untouched := by
      rw [scopes, stackOf_append, names, stackOf]
    have sent : stackOf history.nest.scopes ≠ [] := by simpa [stackOf] using opened
    have room : shared.length ≤ maxNestedTransactions := by
      have lengths := congrArg List.length names
      have depth := ok.depth
      simp only [List.length_map, scopes, List.length_append] at lengths depth
      omega
    have solid : dead.type ≠ .placeholder := by rw [value]; exact rowRecord_solid _
    have differ : ∀ xid ∈ (stackOf untouched).head?, ∀ uxr ∈ (dead :: deads).getLast?,
        xid ≠ uxr.xid := by
      intro xid member uxr last
      simp only [stackOf, List.head?_reverse, List.getLast?_map, Option.mem_def,
        Option.map_eq_some_iff] at member
      obtain ⟨scope, located, rfl⟩ := member
      exact apart scope located uxr last
    have promoted := uleDoImplicitPromotions_stale based solid room common sent differ
    have visible : touchedScopes history.nest.scopes = live := by
      rw [scopes]
      exact touchedScopes_append bare touched
    cases shared with
    | nil =>
      -- Every silent commit was of a root, so its value is now the committed one.
      have none : live = [] := by simpa using names.symm
      refine ⟨_, promoted, ⟨by simp [visible, none], ⟨_, _, rfl, ?_⟩⟩⟩
      simpa [none, viewOf] using value
    | cons target others =>
      -- The innermost open transaction that shares the stack takes over the value.
      cases live with
      | nil => simp at names
      | cons scope rest =>
        simp only [List.map_cons, List.cons.injEq] at names
        obtain ⟨row, written⟩ := Option.ne_none_iff_exists'.mp (touched scope (by simp))
        refine ⟨_, promoted, ⟨?_, base (by simp)⟩⟩
        have outer : others = rest.map scopeUxr := outer
        simp [visible, outer, scopeUxr, names.1, value, viewOf, written, ownRecord]

end

section

variable (settled : Settled nest ule) {outer : List (Scope Nat Row)}
  (scopes : nest.scopes = scope :: outer)
include settled scopes

/-- Making room for a write leaves exactly the records of the transactions around the writer. -/
theorem Settled.prepare (named : scope.name ≠ txnidNone)
    (fresh : ∀ other ∈ outer, other.name ≠ scope.name)
    (depth : outer.length < maxNestedTransactions) :
    ulePrepareForNewUxr ule (stackOf nest.scopes) =
      some { puxrs := outer.map scopeUxr, cuxrs := ule.cuxrs } := by
  obtain ⟨top, rest, cuxrs, -⟩ := settled.committed
  have provisional := settled.provisional
  rcases ule with ⟨puxrs, committed⟩
  simp only at cuxrs provisional
  subst cuxrs provisional
  rw [scopes]
  cases own : scope.own with
  | some row =>
    -- The writer's own record is on top and is discarded.
    have visible : touchedScopes (scope :: outer) = scope :: outer :=
      touchedScopes_written outer (by simp [own])
    have removed : uleRemoveInnermostUxr
        { puxrs := (scope :: outer).map scopeUxr, cuxrs := top :: rest } =
        some { puxrs := outer.map scopeUxr, cuxrs := top :: rest } :=
      uleRemoveInnermostUxr_provisional (by simp)
    rw [visible]
    simp [ulePrepareForNewUxr, uleGetInnermostXid, named, scopeUxr] at removed ⊢
    exact removed
  | none =>
    -- Transactions between the newest record and the writer get placeholders.
    obtain ⟨untouched, split, bare⟩ := touchedScopes_split outer
    have visible : touchedScopes (scope :: outer) = touchedScopes outer := by
      simp [touchedScopes, own]
    rw [visible]
    generalize touchedScopes outer = live at split
    subst split
    have stack : stackOf (scope :: (untouched ++ live)) =
        stackOf live ++ (stackOf untouched ++ [scope.name]) := by simp [stackOf]
    have records : ((stackOf untouched).map placeholderUxr).reverse ++ live.map scopeUxr =
        (untouched ++ live).map scopeUxr := by
      have places : untouched.map (placeholderUxr ∘ Scope.name) = untouched.map scopeUxr :=
        List.map_congr_left fun other member => by
          simp [placeholderUxr, scopeUxr, bare other member, ownRecord]
      simp [stackOf, List.map_reverse, places]
    have based : top :: rest ≠ [] := List.cons_ne_nil top rest
    have placed := foldlM_ulePushPlaceholderUxr based (stackOf untouched) (live.map scopeUxr) (by
        simp only [List.length_append] at depth
        simp [stackOf]; omega)
    have added : uleAddPlaceholders { puxrs := live.map scopeUxr, cuxrs := top :: rest }
        (stackOf (scope :: (untouched ++ live))) =
        some { puxrs := (untouched ++ live).map scopeUxr, cuxrs := top :: rest } := by
      have covered : (live.map scopeUxr).length = (stackOf live).length := by simp [stackOf]
      have agree : (stackOf live) = (live.map scopeUxr).reverse.map Uxr.xid := by
        rw [List.map_reverse, map_xid_scopeUxr, stackOf]
      have sent : 0 < (stackOf live ++ (stackOf untouched ++ [scope.name])).length := by
        simp only [List.length_append, List.length_singleton]
        omega
      simp only [uleAddPlaceholders, Ule.numPuxrs, Ule.numCuxrs, stack, covered, List.take_left,
        List.drop_left, List.dropLast_concat, placed, records, ← agree, invariant_of sent]
      simp
    cases live with
    | nil =>
      -- Nothing is provisional, so the newest record is a committed one.
      simpa [ulePrepareForNewUxr, uleGetInnermostXid, named, Ule.numPuxrs] using added
    | cons newest others =>
      have other : newest.name ≠ scope.name := fresh newest (by simp)
      simp only [ulePrepareForNewUxr, uleGetInnermostXid, xidsGetInnermostXid_stackOf, named,
        List.map_cons, List.cons_append, List.head?_cons, scopeUxr, other, false_and, and_false,
        if_false, bind_runs] at added ⊢
      simpa [scopeUxr] using added

/-- A write on top of the prepared records settles the leaf entry again. -/
theorem Settled.written (row : Row) :
    Settled (nest.write row)
      { puxrs := { type := rowRecord row, xid := scope.name } :: outer.map scopeUxr,
        cuxrs := ule.cuxrs } := by
  refine ⟨?_, ?_⟩
  · have visible : touchedScopes ({ scope with own := some row } :: outer) =
        { scope with own := some row } :: outer :=
      touchedScopes_written outer (by simp)
    simp [Nest.write, scopes, visible, scopeUxr, ownRecord]
  · simpa [Nest.write, scopes] using settled.committed

end

/--
The records that a reader may be given, the newest first.

All provisional records count as one, which stands for the outermost transaction.
It says what the innermost record says.
-/
def interestingXrs (le : Ule) : List Uxr :=
  (match le.puxrs.head?, le.puxrs.getLast? with
  | some innermost, some outermost => [{ innermost with xid := outermost.xid }]
  | _, _ => []) ++ le.cuxrs

variable {after : Ule} {xids : List Nat}

/-- With something provisional, readers see its outermost transaction and its innermost value. -/
theorem interestingXrs_provisional {innermost : Uxr} {outer cuxrs : List Uxr} :
    interestingXrs { puxrs := innermost :: outer, cuxrs } =
      { type := innermost.type, xid := ((innermost :: outer).getLast (by simp)).xid } :: cuxrs := by
  have last : (innermost :: outer).getLast? = some ((innermost :: outer).getLast (by simp)) :=
    List.getLast?_eq_some_getLast (by simp)
  simp only [interestingXrs, last, List.head?_cons, List.cons_append, List.nil_append]

/-- With nothing provisional, readers choose from what is committed. -/
@[simp] theorem interestingXrs_committed (cuxrs : List Uxr) :
    interestingXrs { puxrs := [], cuxrs } = cuxrs := rfl

section

variable (promoted : ulePromoteProvisionalInnermostToCommitted ule = some after)
include promoted

/-- Promotion to the committed side needs a value to promote and something committed. -/
theorem ulePromoteProvisionalInnermostToCommitted_inv :
    ∃ innermost outer, ule.puxrs = innermost :: outer ∧ ule.cuxrs ≠ [] ∧
      innermost.type ≠ .placeholder := by
  rcases ule with ⟨_ | ⟨innermost, outer⟩, cuxrs⟩
  · simp [ulePromoteProvisionalInnermostToCommitted, invariant] at promoted
  · rcases cuxrs with _ | ⟨top, rest⟩
    · simp [ulePromoteProvisionalInnermostToCommitted, uleGetInnermostUxr, invariant] at promoted
    · refine ⟨innermost, outer, rfl, List.cons_ne_nil _ _, fun place => ?_⟩
      have found := @uleGetInnermostUxr_provisional innermost outer (top :: rest) (by simp)
      simp [ulePromoteProvisionalInnermostToCommitted, found, place] at promoted

/-- Promotion to the committed side leaves readers the same records. -/
theorem ulePromoteProvisionalInnermostToCommitted_interesting :
    interestingXrs after = interestingXrs ule := by
  obtain ⟨innermost, outer, provisional, based, solid⟩ :=
    ulePromoteProvisionalInnermostToCommitted_inv promoted
  rcases ule with ⟨puxrs, cuxrs⟩
  simp only at provisional based
  subst provisional
  rw [ulePromoteProvisionalInnermostToCommitted_eq based solid] at promoted
  cases promoted
  rw [interestingXrs_committed, interestingXrs_provisional]

end

/-- Promotion to a provisional record leaves readers the same records. -/
theorem ulePromoteProvisionalInnermostToIndex_interesting {index : Nat}
    (promoted : ulePromoteProvisionalInnermostToIndex ule index = some after) :
    interestingXrs after = interestingXrs ule := by
  rcases ule with ⟨_ | ⟨innermost, outer⟩, cuxrs⟩
  · simp [ulePromoteProvisionalInnermostToIndex, invariant] at promoted
  · rcases cuxrs with _ | ⟨top, rest⟩
    · simp [ulePromoteProvisionalInnermostToIndex, uleGetInnermostUxr, invariant] at promoted
    · have found := @uleGetInnermostUxr_provisional innermost outer (top :: rest) (by simp)
      simp only [ulePromoteProvisionalInnermostToIndex, found, bind_inv,
        Option.bind_some] at promoted
      obtain ⟨-, -, promoted⟩ := promoted
      generalize Ule.numPuxrs _ - 1 - index = depth at promoted
      -- The records from the target outwards stay, so the outermost one does.
      have split := List.take_append_drop depth (innermost :: outer)
      cases kept : (innermost :: outer).drop depth with
      | nil => rw [kept] at promoted; cases promoted
      | cons target others =>
        rw [kept] at split promoted
        have last : (innermost :: outer).getLast (List.cons_ne_nil _ _) =
            (target :: others).getLast (List.cons_ne_nil _ _) := by
          have front := List.getLast_append_of_right_ne_nil
            ((innermost :: outer).take depth) (target :: others) (List.cons_ne_nil _ _)
          rw [← front]
          exact List.getLast_congr _ _ split.symm
        have pushed (type : Xr) (placed : ulePushUxr { puxrs := others, cuxrs := top :: rest } false
            { type, xid := target.xid } = some after) (same : innermost.type = type) :
            interestingXrs after =
              interestingXrs { puxrs := innermost :: outer, cuxrs := top :: rest } := by
          simp only [ulePushUxr, bind_inv, Bool.false_eq_true, if_false] at placed
          obtain ⟨-, -, rfl⟩ := placed
          rw [interestingXrs_provisional, interestingXrs_provisional, last, same]
          cases others <;> rfl
        cases kind : innermost.type with
        | placeholder => rw [kind] at promoted; cases promoted
        | delete => rw [kind] at promoted; exact pushed _ promoted kind
        | insert val => rw [kind] at promoted; exact pushed _ promoted kind

/-- Implicit promotion leaves readers the same records. -/
theorem uleDoImplicitPromotions_interesting
    (promoted : uleDoImplicitPromotions ule xids = some after) :
    interestingXrs after = interestingXrs ule := by
  -- One case for each promotion, and one for none.
  unfold uleDoImplicitPromotions at promoted
  split at promoted
  · cases promoted; rfl
  · simp only [bind_inv] at promoted
    obtain ⟨-, -, promoted⟩ := promoted
    split at promoted
    · exact ulePromoteProvisionalInnermostToCommitted_interesting promoted
    · split at promoted
      · exact ulePromoteProvisionalInnermostToIndex_interesting promoted
      · cases promoted; rfl

/-- Promotion by age leaves readers the same records. -/
theorem uleTryPromoteProvisionalOutermost_interesting {oldest : Nat}
    (promoted : uleTryPromoteProvisionalOutermost ule oldest = some after) :
    interestingXrs after = interestingXrs ule := by
  unfold uleTryPromoteProvisionalOutermost at promoted
  split at promoted
  · cases promoted; rfl
  · split at promoted
    · exact ulePromoteProvisionalInnermostToCommitted_interesting promoted
    · cases promoted; rfl

/-- A commit message leaves readers the same records. -/
theorem uleApplyCommit_interesting (applied : uleApplyCommit ule xids = some after) :
    interestingXrs after = interestingXrs ule := by
  -- The innermost record is promoted, which shows readers the same record.
  simp only [uleApplyCommit, bind_inv] at applied
  obtain ⟨-, -, applied⟩ := applied
  split at applied
  · simp only [Option.bind_eq_some_iff] at applied
    obtain ⟨xid, -, applied⟩ := applied
    split at applied
    · split at applied
      · exact ulePromoteProvisionalInnermostToCommitted_interesting applied
      · exact ulePromoteProvisionalInnermostToIndex_interesting applied
    · cases applied; rfl
  · cases applied; rfl

/-- An abort message touches no committed record. -/
theorem uleApplyAbort_cuxrs {retval : Int}
    (applied : uleApplyAbort ule xids = some (after, retval)) : after.cuxrs = ule.cuxrs := by
  have dropped : ∀ puxrs : List Uxr, ∀ {result : Ule},
      dropPlaceholders ule.cuxrs puxrs = some result → result.cuxrs = ule.cuxrs := by
    intro puxrs
    induction puxrs with
    | nil =>
      intro result done
      simp only [dropPlaceholders, bind_inv] at done
      obtain ⟨-, -, -, -, rfl⟩ := done
      rfl
    | cons uxr outer ih =>
      intro result done
      unfold dropPlaceholders at done
      split at done
      · exact ih done
      · cases done; rfl
  simp only [uleApplyAbort, bind_inv] at applied
  obtain ⟨-, -, innermost, -, applied⟩ := applied
  split at applied
  · rename_i own
    simp only [Option.bind_eq_some_iff, Option.some.injEq, Prod.mk.injEq] at applied
    obtain ⟨popped, removed, result, done, -, -, rfl, -⟩ := applied
    -- Something is provisional, so the record that goes is a provisional one.
    rcases ule with ⟨_ | ⟨uxr, outer⟩, cuxrs⟩
    · exact absurd own.1 (Nat.lt_irrefl 0)
    · simp only [uleRemoveInnermostUxr, bind_inv] at removed
      obtain ⟨-, -, rfl⟩ := removed
      exact dropped outer done
  · cases applied; rfl

/-- The record that readers see of the open transactions, once one of them has written. -/
def ownXrs (nest : Nest Nat Row) : List Uxr :=
  match (touchedScopes nest.scopes).getLast? with
  | none => []
  | some root => [{ type := rowRecord nest.view, xid := root.name }]

/-- A settled leaf entry shows readers the open transactions above what is committed. -/
theorem Settled.interesting (settled : Settled nest ule) :
    interestingXrs ule = ownXrs nest ++ ule.cuxrs := by
  obtain ⟨innermost, found, shown⟩ := settled.innermost
  have provisional := settled.provisional
  rcases ule with ⟨puxrs, cuxrs⟩
  simp only at provisional
  unfold ownXrs
  cases live : touchedScopes nest.scopes with
  | nil =>
    rw [live] at provisional
    cases provisional
    rfl
  | cons scope outer =>
    rw [live] at provisional
    cases provisional
    -- The innermost record says what the innermost transaction sees.
    have top : innermost = scopeUxr scope := by
      simp only [uleGetInnermostUxr, bind_inv] at found
      obtain ⟨-, -, head⟩ := found
      exact (Option.some.inj head).symm
    have last : ((scope :: outer).map scopeUxr).getLast? =
        (scope :: outer).getLast?.map scopeUxr := List.getLast?_map
    rw [List.map_cons, List.getLast?_cons] at last
    rw [List.getLast?_cons]
    simp only [interestingXrs, List.map_cons, List.head?_cons, List.getLast?_cons]
    rw [← shown, top]
    simp only [Option.some.injEq, List.getLast?_cons, Option.map_some] at last
    rw [last]
    rfl

/-- Two rows with their open transactions show readers the same records below those. -/
def SameBelow (nest : Nest Nat Row) (ule : Ule) (nextNest : Nest Nat Row) (next : Ule) : Prop :=
  ∃ below, below ≠ [] ∧ interestingXrs ule = ownXrs nest ++ below ∧
    interestingXrs next = ownXrs nextNest ++ below

/-- Two settled leaf entries with the same committed records differ only above these. -/
theorem Settled.sameBelow {nextNest : Nest Nat Row} {next : Ule} (settled : Settled nest ule)
    (nextSettled : Settled nextNest next) (same : next.cuxrs = ule.cuxrs) :
    SameBelow nest ule nextNest next := by
  obtain ⟨top, rest, cuxrs, -⟩ := settled.committed
  exact ⟨ule.cuxrs, by rw [cuxrs]; exact List.cons_ne_nil top rest, settled.interesting,
    same ▸ nextSettled.interesting⟩

/-- Promotion leaves readers the same, so what is settled afterwards may be compared with it. -/
theorem SameBelow.promoted {nextNest : Nest Nat Row} {settled next : Ule}
    (same : SameBelow nest settled nextNest next)
    (promoted : uleDoImplicitPromotions ule xids = some settled) :
    SameBelow nest ule nextNest next := by
  obtain ⟨below, more, before, after⟩ := same
  exact ⟨below, more, (uleDoImplicitPromotions_interesting promoted).symm.trans before, after⟩

end Tokuft
