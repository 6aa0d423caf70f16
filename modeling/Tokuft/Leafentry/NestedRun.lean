import Tokuft.Leafentry.NestedRefines

/-! Every event of a nested history keeps the leaf entry in step with the reference semantics. -/

namespace Tokuft

variable {Key : Type} {nest : Nest Nat Row} {ule : Ule}

/-- The records of scopes that have not written are exactly the placeholders on top. -/
theorem dropWhile_placeholder (scopes : List (Scope Nat Row)) :
    (scopes.map scopeUxr).dropWhile uxrIsPlaceholder = (touchedScopes scopes).map scopeUxr := by
  induction scopes with
  | nil => rfl
  | cons scope outer ih =>
    -- A scope that has written shows a row, and a row is never a placeholder.
    cases own : scope.own with
    | none =>
      have place : uxrIsPlaceholder (scopeUxr scope) = true := by
        simp [scopeUxr, own, ownRecord, uxrIsPlaceholder]
      simpa [touchedScopes, own, place] using ih
    | some row =>
      cases row <;>
        simp [touchedScopes, scopeUxr, own, ownRecord, rowRecord, uxrIsPlaceholder]

/-- A record of a row is no placeholder. -/
theorem uxrIsPlaceholder_row {uxr : Uxr} {row : Row} (type : uxr.type = rowRecord row) :
    uxrIsPlaceholder uxr = false := by
  cases row <;> simp [uxrIsPlaceholder, type, rowRecord]

/-- The newest record of a settled leaf entry belongs to an open transaction. -/
theorem Settled.head_open (settled : Settled nest ule) :
    ∀ uxr ∈ ule.puxrs.head?, ∃ scope ∈ nest.scopes, uxr.xid = scope.name := by
  intro uxr member
  rw [settled.provisional, List.head?_map, Option.mem_def, Option.map_eq_some_iff] at member
  obtain ⟨scope, located, rfl⟩ := member
  exact ⟨scope, (List.dropWhile_sublist _).mem (List.mem_of_head? located), rfl⟩

/-- A settled leaf entry rests on a committed record. -/
theorem Settled.based (settled : Settled nest ule) :
    ule.cuxrs ≠ [] := by
  obtain ⟨top, rest, cuxrs, -⟩ := settled.committed
  simp [cuxrs]

section Innermost

variable {scope : Scope Nat Row} {outer : List (Scope Nat Row)}

section

variable (settled : Settled nest ule) (scopes : nest.scopes = scope :: outer)
include settled scopes

/-- A transaction that has not written has no record on top of a settled leaf entry. -/
theorem Settled.absent (untouched : scope.own = none)
    (fresh : ∀ other ∈ outer, other.name ≠ scope.name) :
    Settled nest.abort ule ∧
      ∀ uxr ∈ ule.puxrs.head?, uxr.xid ≠ xidsGetInnermostXid (stackOf nest.scopes) := by
  -- The innermost scope has no record, so that closing it takes none away.
  have closed : Settled nest.abort ule := by
    refine ⟨?_, settled.committed⟩
    rw [settled.provisional, scopes]
    simp [touchedScopes, untouched, Nest.abort, scopes]
  refine ⟨closed, fun uxr member => ?_⟩
  obtain ⟨other, located, same⟩ := closed.head_open uxr member
  rw [scopes, xidsGetInnermostXid_stackOf, same]
  exact fresh other (by simpa [Nest.abort, scopes] using located)

/-- The records of a transaction that has written lie on those of the transactions around it. -/
theorem Settled.own (touched : scope.own ≠ none) :
    ule.puxrs = scopeUxr scope :: outer.map scopeUxr := by
  have visible : touchedScopes (scope :: outer) = scope :: outer :=
    touchedScopes_written outer touched
  rw [settled.provisional, scopes, visible, List.map_cons]

section

variable (named : scope.name ≠ txnidNone) (fresh : ∀ other ∈ outer, other.name ≠ scope.name)
include named fresh

/-- An abort message takes a settled leaf entry to the state around the aborted transaction. -/
theorem Settled.aborted :
    ∃ after retval, uleApplyAbort ule (stackOf nest.scopes) = some (after, retval) ∧
      Settled nest.abort after := by
  have innermost : xidsGetInnermostXid (stackOf nest.scopes) = scope.name := by simp [scopes]
  cases own : scope.own with
  | none =>
    obtain ⟨closed, absent⟩ := settled.absent scopes own fresh
    exact ⟨ule, 0, uleApplyAbort_absent settled.based (by rwa [innermost]) absent, closed⟩
  | some row =>
    -- The record goes, and with it the places kept for transactions that have not written.
    have provisional := settled.own scopes (by simp [own])
    obtain ⟨top, rest, cuxrs, type⟩ := settled.committed
    rcases ule with ⟨puxrs, committed⟩
    simp only at provisional cuxrs
    subst provisional cuxrs
    refine ⟨_, _, uleApplyAbort_own (uxrIsPlaceholder_row type) named innermost.symm, ?_⟩
    exact ⟨by simp [dropWhile_placeholder, Nest.abort, scopes], ⟨top, rest, rfl, type⟩⟩

/-- A commit message takes a settled leaf entry to the state after the commit. -/
theorem Settled.committedMsg (depth : outer.length ≤ maxNestedTransactions) :
    ∃ after, uleApplyCommit ule (stackOf nest.scopes) = some after ∧
      Settled nest.commit after := by
  have innermost : xidsGetInnermostXid (stackOf nest.scopes) = scope.name := by simp [scopes]
  cases own : scope.own with
  | none =>
    obtain ⟨closed, absent⟩ := settled.absent scopes own fresh
    refine ⟨ule, uleApplyCommit_absent (by rwa [innermost]) absent, ?_⟩
    rwa [Nest.commit_untouched scopes own]
  | some row =>
    have provisional := settled.own scopes (by simp [own])
    obtain ⟨top, rest, cuxrs, type⟩ := settled.committed
    rcases ule with ⟨puxrs, committed⟩
    simp only at provisional cuxrs
    subst provisional cuxrs
    have solid : (scopeUxr scope).type ≠ .placeholder := by
      simp only [scopeUxr, own, ownRecord]
      exact rowRecord_solid row
    cases outer with
    | nil =>
      -- A root's value becomes the newest committed one.
      refine ⟨_, uleApplyCommit_root (by simp) solid named innermost.symm, ?_⟩
      exact ⟨by simp [Nest.commit, scopes, touchedScopes], ⟨_, _, rfl, by
        simp [scopeUxr, own, ownRecord, Nest.commit, scopes]⟩⟩
    | cons parent others =>
      -- A child's value becomes its parent's own.
      have room : (others.map scopeUxr).length < maxNestedTransactions := by
        simp at depth ⊢; omega
      refine ⟨_, uleApplyCommit_nested (by simp) solid named innermost.symm room, ?_⟩
      have visible : touchedScopes ({ parent with own := some row } :: others) =
          { parent with own := some row } :: others :=
        touchedScopes_written others (by simp)
      exact ⟨by simp [Nest.commit, scopes, own, visible, scopeUxr],
        ⟨top, rest, rfl, by simpa [Nest.commit, scopes] using type⟩⟩

end

end

end Innermost

variable {scope : Scope Nat Row} {outer : List (Scope Nat Row)}

/-- Closing the innermost scope leaves the names of the others as they were. -/
theorem Nest.names_commit (scopes : nest.scopes = scope :: outer) :
    nest.commit.scopes.map Scope.name = outer.map Scope.name := by
  cases outer <;> simp [Nest.commit, scopes]

/-- Closing the innermost scope leaves the names of the others as they were. -/
theorem Nest.names_abort (scopes : nest.scopes = scope :: outer) :
    nest.abort.scopes.map Scope.name = outer.map Scope.name := by
  simp [Nest.abort, scopes]

/-- A settled leaf entry ignores messages that repeat the end of a transaction. -/
theorem Settled.repeated (settled : Settled nest ule) {msg : FtMsg Key}
    (ending : msg.type = .commitAny ∨ msg.type = .abortAny)
    (names : nest.scopes.map Scope.name = outer.map Scope.name)
    (stack : msg.xids = stackOf (scope :: outer)) (named : scope.name ≠ txnidNone)
    (fresh : ∀ other ∈ outer, other.name ≠ scope.name)
    (depth : outer.length < maxNestedTransactions) :
    msgModifyUle ule msg = some (ule, 0) := by
  have innermost : xidsGetInnermostXid msg.xids = scope.name := by simp [stack]
  have short : msg.xids.length < maxTransactionRecords := by
    simp [stack, stackOf, maxTransactionRecords]; omega
  -- The leaf entry shows only transactions that are still open.
  have absent : ∀ uxr ∈ ule.puxrs.head?, uxr.xid ≠ xidsGetInnermostXid msg.xids := by
    intro uxr member
    obtain ⟨other, located, same⟩ := settled.head_open uxr member
    have known : other.name ∈ outer.map Scope.name := by
      rw [← names]; exact List.mem_map_of_mem located
    obtain ⟨twin, twinOpen, twinName⟩ := List.mem_map.mp known
    rw [innermost, same, ← twinName]
    exact fresh twin twinOpen
  have aligned : uleDoImplicitPromotions ule msg.xids = some ule := by
    obtain ⟨untouched, split, -⟩ := touchedScopes_split nest.scopes
    refine uleDoImplicitPromotions_aligned ⟨stackOf untouched ++ [scope.name], ?_⟩
    have all : outer.map Scope.name =
        untouched.map Scope.name ++ (touchedScopes nest.scopes).map Scope.name := by
      rw [← names]
      conv_lhs => rw [split]
      rw [List.map_append]
    rw [stack, settled.provisional, map_xid_scopeUxr]
    simp [stackOf, all]
  rcases ending with type | type
  · simp [msgModifyUle, type, short, aligned,
      uleApplyCommit_absent (by rwa [innermost]) absent]
  · simp [msgModifyUle, type, short, aligned,
      uleApplyAbort_absent settled.based (by rwa [innermost]) absent]

/-- Messages that each leave a leaf entry alone leave it alone together. -/
theorem applyMsgs_still {msgs : List (FtMsg Key)}
    (still : ∀ msg ∈ msgs, msgModifyUle ule msg = some (ule, 0)) :
    applyMsgs ule msgs = some ule := by
  induction msgs with
  | nil => rfl
  | cons msg rest ih =>
    have remaining := ih fun other member => still other (by simp [member])
    simpa [applyMsgs, still msg (by simp)] using remaining

/-- Messages of two batches are applied one batch after the other. -/
theorem applyMsgs_append (ule : Ule) (earlier later : List (FtMsg Key)) :
    applyMsgs ule (earlier ++ later) = (applyMsgs ule earlier).bind (applyMsgs · later) := by
  simp [applyMsgs, List.foldlM_append]

section Message

variable {history : KeyHistory Key}

/-- Whether the source reports an insert agrees with the row that the record shows. -/
theorem uxrIsInsert_row {uxr : Uxr} {row : Row} (type : uxr.type = rowRecord row) :
    uxrIsInsert uxr = row.isSome := by
  cases row <;> simp [uxrIsInsert, type, rowRecord]

section

variable (rep : Represents history ule) (ok : ScopesOk history)
include rep ok

/-- A write message takes the leaf entry to the state after the write. -/
theorem Represents.write (scopes : history.nest.scopes = scope :: outer) {msg : FtMsg Key}
    {row : Row} (stack : msg.xids = stackOf history.nest.scopes)
    (writes : (msg.type = .insert ∧ row = some msg.val ∧ isValidLen msg.val.length) ∨
      (msg.type = .insertNoOverwrite ∧ row = some msg.val ∧ isValidLen msg.val.length ∧
        history.nest.view = none) ∨
      (msg.type = .deleteAny ∧ row = none)) :
    ∃ after, applyMsgs ule [msg] = some after ∧ Settled (history.nest.write row) after ∧
      SameBelow history.nest ule (history.nest.write row) after := by
  obtain ⟨settled, promoted, isSettled⟩ := rep.promote ok (by simp [scopes])
  obtain ⟨innermost, found, shown⟩ := isSettled.innermost
  have named : scope.name ≠ txnidNone := ok.named scope.name (by simp [scopes])
  have distinct : ∀ other ∈ outer, other.name ≠ scope.name := by
    intro other member same
    have nodup := ok.distinct
    rw [scopes, List.map_cons, List.nodup_cons] at nodup
    exact nodup.1 (same ▸ List.mem_map_of_mem member)
  have depth := ok.depth
  rw [scopes, List.map_cons, List.length_cons, List.length_map] at depth
  have short : msg.xids.length < maxTransactionRecords := by
    simp [stack, stackOf, scopes, maxTransactionRecords]; omega
  have this : xidsGetInnermostXid msg.xids = scope.name := by rw [stack, scopes]; simp
  have prepared := isSettled.prepare scopes named distinct (by omega)
  have pushed (type : Xr) : ulePushUxr { puxrs := outer.map scopeUxr, cuxrs := settled.cuxrs }
      (scope.name == txnidNone) { type, xid := scope.name } =
      some { puxrs := { type, xid := scope.name } :: outer.map scopeUxr,
             cuxrs := settled.cuxrs } := by
    rw [beq_eq_false_iff_ne.mpr named]
    exact ulePushUxr_provisional (by simp; omega)
  have written := isSettled.written scopes row
  refine ⟨_, ?_, written, (isSettled.sameBelow written rfl).promoted promoted⟩
  rw [← stack] at promoted prepared
  -- The three kinds of write differ in what they check, not in what they leave behind.
  rcases writes with ⟨type, rfl, valid⟩ | ⟨type, rfl, valid, absent⟩ | ⟨type, rfl⟩
  · simp [applyMsgs, msgModifyUle, short, type, promoted, uleApplyInsert, valid, found, prepared,
      this, ulePushInsertUxr, pushed, rowRecord]
  · have missing : uxrIsInsert innermost = false := by rw [uxrIsInsert_row shown, absent]; rfl
    simp [applyMsgs, msgModifyUle, short, type, promoted, uleApplyInsertNoOverwrite, valid, found,
      missing, prepared, this, ulePushInsertUxr, pushed, rowRecord]
  · simp [applyMsgs, msgModifyUle, short, type, promoted, uleApplyDelete, found, prepared, this,
      ulePushDeleteUxr, pushed, rowRecord]

/-- An insert that must not overwrite leaves a row that has a value as it is. -/
theorem Represents.keep (opened : history.nest.scopes ≠ []) (msg : FtMsg Key)
    (stack : msg.xids = stackOf history.nest.scopes) (type : msg.type = .insertNoOverwrite)
    (valid : isValidLen msg.val.length) (present : history.nest.view ≠ none) :
    ∃ after, applyMsgs ule [msg] = some after ∧ Settled history.nest after ∧
      SameBelow history.nest ule history.nest after := by
  -- The innermost record is an insert, which the message leaves alone.
  obtain ⟨settled, promoted, isSettled⟩ := rep.promote ok opened
  obtain ⟨innermost, found, shown⟩ := isSettled.innermost
  have inserted : uxrIsInsert innermost = true := by
    rw [uxrIsInsert_row shown]; exact Option.isSome_iff_ne_none.mpr present
  have short : msg.xids.length < maxTransactionRecords := by
    have depth := ok.depth
    simp only [stack, stackOf, List.length_reverse, maxTransactionRecords]
    omega
  have same := (isSettled.sameBelow isSettled rfl).promoted promoted
  rw [← stack] at promoted
  exact ⟨settled, by simp [applyMsgs, msgModifyUle, short, type, promoted,
    uleApplyInsertNoOverwrite, valid, found, inserted], isSettled, same⟩

/-- The first end message settles the leaf entry, and any further ones change nothing. -/
theorem Represents.ended (scopes : history.nest.scopes = scope :: outer) {key : Key}
    {msns : List Nat} (sent : msns ≠ []) :
    (∃ after, applyMsgs ule (msns.map (history.message key .commitAny [])) = some after ∧
      Settled history.nest.commit after ∧ interestingXrs after = interestingXrs ule) ∧
    (∃ after, applyMsgs ule (msns.map (history.message key .abortAny [])) = some after ∧
      Settled history.nest.abort after ∧
      SameBelow history.nest ule history.nest.abort after) := by
  -- After the first message the transaction has no record, and so the others find nothing to do.
  obtain ⟨settled, promoted, isSettled⟩ := rep.promote ok (by simp [scopes])
  have named : scope.name ≠ txnidNone := ok.named scope.name (by simp [scopes])
  have distinct : ∀ other ∈ outer, other.name ≠ scope.name := by
    intro other member same
    have nodup := ok.distinct
    rw [scopes, List.map_cons, List.nodup_cons] at nodup
    exact nodup.1 (same ▸ List.mem_map_of_mem member)
  have depth := ok.depth
  rw [scopes, List.map_cons, List.length_cons, List.length_map] at depth
  have short : (stackOf history.nest.scopes).length < maxTransactionRecords := by
    simp [stackOf, scopes, maxTransactionRecords]; omega
  obtain ⟨first, rest, rfl⟩ := List.exists_cons_of_ne_nil sent
  have batch (type : FtMsgType) : (first :: rest).map (history.message key type []) =
      [history.message key type [] first] ++ rest.map (history.message key type []) := rfl
  constructor
  · obtain ⟨after, applied, isAfter⟩ :=
      isSettled.committedMsg scopes named distinct (by omega)
    refine ⟨after, ?_, isAfter, (uleApplyCommit_interesting applied).trans
      (uleDoImplicitPromotions_interesting promoted)⟩
    have head : applyMsgs ule [history.message key .commitAny [] first] = some after := by
      simp [applyMsgs, msgModifyUle, KeyHistory.message, short, promoted, applied]
    rw [batch, applyMsgs_append, head, Option.bind_some]
    refine applyMsgs_still fun msg member => ?_
    obtain ⟨msn, -, rfl⟩ := List.mem_map.mp member
    exact isAfter.repeated (Or.inl rfl) (Nest.names_commit scopes)
      (by simp [KeyHistory.message, scopes]) named distinct (by omega)
  · obtain ⟨after, retval, applied, isAfter⟩ := isSettled.aborted scopes named distinct
    refine ⟨after, ?_, isAfter,
      (isSettled.sameBelow isAfter (uleApplyAbort_cuxrs applied)).promoted promoted⟩
    have head : applyMsgs ule [history.message key .abortAny [] first] = some after := by
      simp [applyMsgs, msgModifyUle, KeyHistory.message, short, promoted, applied]
    rw [batch, applyMsgs_append, head, Option.bind_some]
    refine applyMsgs_still fun msg member => ?_
    obtain ⟨msn, -, rfl⟩ := List.mem_map.mp member
    exact isAfter.repeated (Or.inr rfl) (Nest.names_abort scopes)
      (by simp [KeyHistory.message, scopes]) named distinct (by omega)

end

end Message

variable {history : KeyHistory Key} {rootIds childIds : List Nat}

/-- The names of the transactions that stay open are still in order. -/
theorem NamesOk.tail {name : Nat} {names : List Nat}
    (ok : NamesOk (name :: names) rootIds childIds) : NamesOk names rootIds childIds := by
  -- What is asked of each name is still asked of the others.
  refine ⟨?_, fun other member => ok.named other (by simp [member]),
    (List.nodup_cons.mp ok.distinct).2, fun other member => ok.known other (by simp [member]),
    fun other last => ?_⟩
  · have depth := ok.depth
    simp only [List.length_cons] at depth
    omega
  · refine ok.rooted other ?_
    cases names with
    | nil => simp at last
    | cons next rest => simpa [List.getLast?_cons] using last

/-- The innermost open transaction shares its name with no other. -/
theorem NamesOk.apart {scope : Scope Nat Row} {outer : List (Scope Nat Row)}
    (ok : NamesOk (scope.name :: outer.map Scope.name) rootIds childIds) :
    ∀ other ∈ outer, other.name ≠ scope.name := by
  intro other member same
  exact (List.nodup_cons.mp ok.distinct).1 (same ▸ List.mem_map_of_mem member)

section

variable (rep : Represents history ule)
include rep

/-- A silent start of a transaction leaves the leaf entry in step. -/
theorem Represents.enter {xid : Nat} (rootsKept : ∀ id ∈ history.rootIds, id ∈ rootIds)
    (childrenKept : history.nest.scopes ≠ [] → ∀ id ∈ history.childIds, id ∈ childIds)
    (fresh : (history.nest.scopes = [] → xid ∉ history.rootIds) ∧
      (history.nest.scopes ≠ [] → xid ∉ history.childIds)) :
    Represents { history with nest := history.nest.enter xid, rootIds, childIds } ule := by
  cases rep with
  | settled settled =>
    refine .settled ⟨?_, settled.committed⟩
    simpa [Nest.enter, touchedScopes] using settled.provisional
  | stale untouched live dead deads shared scopes bare provisional value names outer touched
      based base apart known =>
    refine .stale ({ name := xid, own := none } :: untouched) live dead deads shared
      (by simp [Nest.enter, scopes]) ?_ provisional value names outer touched based base ?_ ?_
    · intro other member
      rcases List.mem_cons.mp member with rfl | member
      · rfl
      · exact bare other member
    · -- The new transaction meets the silent commits only when nothing lies between them.
      intro other last uxr outermost
      cases untouched with
      | cons next rest =>
        exact apart other (by simpa [List.getLast?_cons] using last) uxr outermost
      | nil =>
        simp only [List.getLast?_singleton, Option.mem_def, Option.some.injEq] at last
        subst last
        have located := known uxr outermost
        intro same
        rw [← same] at located
        by_cases empty : live = []
        · exact fresh.1 (by simp [scopes, empty]) (by simpa [empty] using located)
        · exact fresh.2 (by simp [scopes, empty]) (by simpa [empty] using located)
    · intro uxr outermost
      have located := known uxr outermost
      by_cases empty : live = []
      · rw [if_pos empty] at located ⊢
        exact rootsKept _ located
      · rw [if_neg empty] at located ⊢
        exact childrenKept (by simp [scopes, empty]) _ located

/-- A transaction that has not written closes without a trace. -/
theorem Represents.closed (scopes : history.nest.scopes = scope :: outer)
    (untouched : scope.own = none) (fresh : ∀ other ∈ outer, other.name ≠ scope.name) :
    Represents { history with nest := history.nest.abort } ule := by
  cases rep with
  | settled settled => exact .settled (settled.absent scopes untouched fresh).1
  | stale bare live dead deads shared split bareOwn provisional value names outerRecords touched
      based base apart known =>
    cases bare with
    | nil =>
      -- The innermost scope that shares the stack has written, so it is not this one.
      rw [List.nil_append] at split
      exact absurd untouched (touched scope (by simp [← split, scopes]))
    | cons first rest =>
      rw [scopes, List.cons_append, List.cons.injEq] at split
      refine .stale rest live dead deads shared (by simp [Nest.abort, scopes, split.2])
        (fun other member => bareOwn other (by simp [member])) provisional value names
        outerRecords touched based base (fun other last => apart other ?_) known
      cases rest with
      | nil => simp at last
      | cons next others => simpa [List.getLast?_cons] using last

/-- Records left by silent commits stay correct when one more transaction commits silently. -/
theorem Represents.silentCommit (ok : ScopesOk history)
    (scopes : history.nest.scopes = scope :: outer)
    (fresh : ∀ other ∈ outer, other.name ≠ scope.name) :
    Represents { history with nest := history.nest.commit } ule := by
  cases own : scope.own with
  | none =>
    rw [Nest.commit_untouched scopes own]
    exact rep.closed scopes own fresh
  | some row =>
    -- What the transaction wrote is on top, over records of the transactions around it.
    have shape : ∃ dead deads, ule.puxrs = dead :: deads ++ outer.map scopeUxr ∧
        dead.type = rowRecord history.nest.view ∧
        (∀ uxr ∈ (dead :: deads).getLast?, uxr.xid = scope.name) ∧ ule.cuxrs ≠ [] ∧
        ∃ top rest, ule.cuxrs = top :: rest ∧ top.type = rowRecord history.nest.base := by
      cases rep with
      | settled settled =>
        refine ⟨scopeUxr scope, [], settled.own scopes (by simp [own]), ?_, ?_, settled.based,
          settled.committed⟩
        · simp [scopeUxr, own, ownRecord, Nest.view, scopes, viewOf]
        · simp [scopeUxr]
      | stale bare live dead deads shared split bareOwn provisional value names outerRecords touched
          based base apart known =>
        have none : bare = [] := by
          cases bare with
          | nil => rfl
          | cons first rest =>
            rw [scopes, List.cons_append, List.cons.injEq] at split
            have written := bareOwn first (by simp)
            rw [← split.1, own] at written
            cases written
        subst none
        rw [List.nil_append] at split
        rw [scopes] at split
        subst split
        cases shared with
        | nil => simp at names
        | cons target others =>
          simp only [List.map_cons, List.cons.injEq, List.tail_cons] at names outerRecords
          refine ⟨dead, deads ++ [target], by simp [provisional, outerRecords], ?_, ?_, based,
            base (by simp)⟩
          · rw [value, Nest.view, scopes]
          · simp [List.getLast?_cons, names.1]
    obtain ⟨dead, deads, provisional, value, last, based, committed⟩ := shape
    refine .stale [] history.nest.commit.scopes dead deads (outer.map scopeUxr) rfl (by simp)
      provisional ?_ ?_ ?_ ?_ based ?_ (by simp) ?_
    · -- The parent sees what the transaction saw.
      rw [value, ← Nest.view_commit history.nest, Nest.view]
    · rw [map_xid_scopeUxr, Nest.names_commit scopes]
    · cases outer <;> simp [Nest.commit, scopes]
    · cases outer <;> simp [Nest.commit, scopes, own]
    · intro opened
      cases outer with
      | nil => simp [Nest.commit, scopes] at opened
      | cons parent others => simpa [Nest.commit, scopes] using committed
    · intro uxr outermost
      rw [last uxr outermost]
      cases outer with
      | nil => simpa [Nest.commit, scopes] using ok.rooted scope.name (by simp [scopes])
      | cons parent others =>
        simpa [Nest.commit, scopes] using ok.known scope.name (by simp [scopes])

end

/-- What an event does to the records that readers see. -/
def ReadersSee (event : KeyEvent) (nest : Nest Nat Row) (ule : Ule) (nextNest : Nest Nat Row)
    (next : Ule) : Prop :=
  match event with
  | .commit _ => interestingXrs next = interestingXrs ule
  | _ => SameBelow nest ule nextNest next

/-- An event takes the history and its leaf entry to the next, through messages that apply. -/
structure Advances (history : KeyHistory Key) (ule : Ule) (event : KeyEvent)
    (after : KeyHistory Key) (next : Ule) : Prop where
  scopes : ScopesOk after
  represents : Represents after next
  readers : ReadersSee event history.nest ule after.nest next

section

variable (rep : Represents history ule)
include rep

/-- A leaf entry that represents a history rests on a committed record. -/
theorem Represents.based : ule.cuxrs ≠ [] := by
  cases rep with
  | settled settled => exact settled.based
  | stale untouched live dead deads shared scopes bare provisional value names outer touched
      based base apart known => exact based

/-- The records below those of the open transactions are always there to be compared. -/
theorem Represents.below (ok : ScopesOk history) :
    ∃ below, below ≠ [] ∧ interestingXrs ule = ownXrs history.nest ++ below := by
  by_cases closed : history.nest.scopes = []
  · refine ⟨interestingXrs ule, ?_, by simp [ownXrs, closed, touchedScopes]⟩
    exact List.append_ne_nil_of_right_ne_nil _ rep.based
  · obtain ⟨settled, promoted, isSettled⟩ := rep.promote ok closed
    refine ⟨settled.cuxrs, isSettled.based, ?_⟩
    rw [← uleDoImplicitPromotions_interesting promoted, isSettled.interesting]

/-- A leaf entry that no message reaches is compared with itself. -/
theorem Represents.unsent (ok : ScopesOk history) {nest : Nest Nat Row}
    (same : ownXrs nest = ownXrs history.nest) :
    SameBelow history.nest ule nest ule := by
  obtain ⟨below, more, shape⟩ := rep.below ok
  exact ⟨below, more, shape, same ▸ shape⟩

end

/-- A write leaves the names of the open transactions as they are. -/
theorem Nest.names_write (nest : Nest Nat Row) (row : Row) :
    (nest.write row).scopes.map Scope.name = nest.scopes.map Scope.name := by
  rcases nest with ⟨base, _ | ⟨scope, outer⟩⟩ <;> rfl

/-- The messages of an event, applied to a leaf entry that represents the history before it. -/
def Steps (history : KeyHistory Key) (ule : Ule) (event : KeyEvent)
    (after : KeyHistory Key) : Prop :=
  ∃ msgs next, after.delivered = history.delivered ++ msgs ∧ applyMsgs ule msgs = some next ∧
    Advances history ule event after next

/-- Every write of the innermost transaction keeps the leaf entry in step. -/
theorem Represents.writes (rep : Represents history ule) (ok : ScopesOk history)
    (opened : history.nest.scopes ≠ []) {msg : FtMsg Key} {row : Row}
    (stack : msg.xids = stackOf history.nest.scopes)
    (kinds : (msg.type = .insert ∧ row = some msg.val ∧ isValidLen msg.val.length) ∨
      (msg.type = .insertNoOverwrite ∧ row = some msg.val ∧ isValidLen msg.val.length ∧
        history.nest.view = none) ∨
      (msg.type = .deleteAny ∧ row = none)) :
    ∃ next, applyMsgs ule [msg] = some next ∧
      ScopesOk { history with nest := history.nest.write row } ∧
      Settled (history.nest.write row) next ∧
      SameBelow history.nest ule (history.nest.write row) next := by
  obtain ⟨scope, outer, scopes⟩ := List.exists_cons_of_ne_nil opened
  obtain ⟨next, result, settled, same⟩ := rep.write ok scopes stack kinds
  refine ⟨next, result, ?_, settled, same⟩
  unfold ScopesOk
  rw [Nest.names_write]
  exact ok

/-- A transaction that has not written opens and closes behind what readers see. -/
theorem ownXrs_untouched {base : Row} {scope : Scope Nat Row} {outer : List (Scope Nat Row)}
    (untouched : scope.own = none) :
    ownXrs { base, scopes := scope :: outer } = ownXrs { base, scopes := outer } := by
  simp [ownXrs, touchedScopes, untouched, Nest.view, viewOf]

/-- Closing a transaction that has not written changes nothing for readers. -/
theorem ownXrs_abort {nest : Nest Nat Row} (scopes : nest.scopes = scope :: outer)
    (untouched : scope.own = none) : ownXrs nest.abort = ownXrs nest := by
  rcases nest with ⟨base, opens⟩
  cases scopes
  exact (ownXrs_untouched untouched).symm

/-- Every event of a nested history keeps the leaf entry in step. -/
theorem Represents.step (rep : Represents history ule) (ok : ScopesOk history) {key : Key}
    {event : KeyEvent} {after : KeyHistory Key} (taken : history.step key event = some after) :
    Steps history ule event after := by
  have names := ok
  unfold ScopesOk at names
  cases event with
  | beginRoot xid =>
    simp only [KeyHistory.step, bind_inv, invariant_eq_some] at taken
    obtain ⟨-, ⟨none, named, fresh⟩, rfl⟩ := taken
    refine ⟨[], ule, (List.append_nil _).symm, rfl,
      ⟨by simp [Nest.enter, none, maxNestedTransactions], ?_, ?_, ?_, ?_⟩,
      rep.enter (fun id member => by simp [member]) (fun opened => absurd none opened)
        ⟨fun _ => fresh, fun opened => absurd none opened⟩,
      rep.unsent ok (ownXrs_untouched rfl)⟩
    all_goals simp [Nest.enter, none, named]
  | beginChild xid =>
    simp only [KeyHistory.step, bind_inv, invariant_eq_some] at taken
    obtain ⟨-, ⟨opened, deep⟩, -, ⟨named, fresh⟩, rfl⟩ := taken
    refine ⟨[], ule, (List.append_nil _).symm, rfl, ⟨?_, ?_, ?_, ?_, ?_⟩,
      rep.enter (fun id member => member) (fun _ id member => by simp [member])
        ⟨fun none => absurd none opened, fun _ => fresh⟩,
      rep.unsent ok (ownXrs_untouched rfl)⟩
    · simp only [Nest.enter, List.map_cons, List.length_cons, List.length_map]; omega
    · intro name member
      rcases List.mem_cons.mp member with rfl | member
      · exact named
      · exact names.named name member
    · exact List.nodup_cons.mpr ⟨fun member => fresh (names.known xid member), names.distinct⟩
    · intro name member
      rcases List.mem_cons.mp member with rfl | member
      · simp
      · exact List.mem_cons_of_mem _ (names.known name member)
    · intro name last
      refine names.rooted name ?_
      obtain ⟨scope, outer, scopes⟩ := List.exists_cons_of_ne_nil opened
      simpa [Nest.enter, scopes, List.getLast?_cons] using last
  | insert msn val =>
    simp only [KeyHistory.step, bind_inv, invariant_eq_some] at taken
    obtain ⟨-, ⟨opened, valid⟩, rfl⟩ := taken
    obtain ⟨next, result, namesOk, settled, same⟩ :=
      rep.writes ok opened (rfl : (history.message key .insert val msn).xids = _)
        (Or.inl ⟨rfl, rfl, valid⟩)
    exact ⟨_, next, rfl, result, namesOk, .settled settled, same⟩
  | insertNoOverwrite msn val =>
    simp only [KeyHistory.step, bind_inv, invariant_eq_some] at taken
    obtain ⟨-, ⟨opened, valid⟩, rfl⟩ := taken
    by_cases absent : history.nest.view = none
    · rw [if_pos absent]
      obtain ⟨next, result, namesOk, settled, same⟩ :=
        rep.writes ok opened (rfl : (history.message key .insertNoOverwrite val msn).xids = _)
          (Or.inr (Or.inl ⟨rfl, rfl, valid, absent⟩))
      exact ⟨_, next, rfl, result, namesOk, .settled settled, same⟩
    · -- The row has a value, so neither side writes.
      rw [if_neg absent]
      obtain ⟨next, result, settled, same⟩ := rep.keep ok opened
        (history.message key .insertNoOverwrite val msn) rfl rfl valid absent
      exact ⟨_, next, rfl, result, names, .settled settled, same⟩
  | delete msn =>
    simp only [KeyHistory.step, bind_inv, invariant_eq_some] at taken
    obtain ⟨-, opened, rfl⟩ := taken
    obtain ⟨next, result, namesOk, settled, same⟩ :=
      rep.writes ok opened (rfl : (history.message key .deleteAny [] msn).xids = _)
        (Or.inr (Or.inr ⟨rfl, rfl⟩))
    exact ⟨_, next, rfl, result, namesOk, .settled settled, same⟩
  | commit msns =>
    simp only [KeyHistory.step, bind_inv, invariant_eq_some] at taken
    obtain ⟨-, opened, rfl⟩ := taken
    obtain ⟨scope, outer, scopes⟩ := List.exists_cons_of_ne_nil opened
    rw [scopes, List.map_cons] at names
    have fresh := names.apart
    have namesOk : NamesOk (history.nest.commit.scopes.map Scope.name) history.rootIds
        history.childIds := by rw [Nest.names_commit scopes]; exact names.tail
    by_cases silent : msns = []
    · subst silent
      have kept := rep.silentCommit ok scopes fresh
      exact ⟨[], ule, rfl, rfl, namesOk, by simpa using kept, rfl⟩
    · obtain ⟨next, result, settled, same⟩ := (rep.ended ok scopes silent).1
      exact ⟨_, next, rfl, result, namesOk, .settled settled, same⟩
  | abort msns =>
    simp only [KeyHistory.step, bind_inv, invariant_eq_some] at taken
    obtain ⟨-, ⟨scope, head, sent⟩, rfl⟩ := taken
    obtain ⟨outer, scopes⟩ : ∃ outer, history.nest.scopes = scope :: outer :=
      ⟨_, (List.head?_eq_some_iff.mp head).choose_spec⟩
    rw [scopes, List.map_cons] at names
    have fresh := names.apart
    have namesOk : NamesOk (history.nest.abort.scopes.map Scope.name) history.rootIds
        history.childIds := by rw [Nest.names_abort scopes]; exact names.tail
    by_cases silent : msns = []
    · -- Only a transaction that wrote nothing may abort without a message.
      have untouched : scope.own = none := sent.resolve_right (not_not.mpr silent)
      subst silent
      have kept := rep.closed scopes untouched fresh
      exact ⟨[], ule, rfl, rfl, namesOk, by simpa using kept,
        rep.unsent ok (ownXrs_abort scopes untouched)⟩
    · obtain ⟨next, result, settled, same⟩ := (rep.ended ok scopes silent).2
      exact ⟨_, next, rfl, result, namesOk, .settled settled, same⟩

/-- The delivered messages so far give a leaf entry that represents the history. -/
structure InStep (history : KeyHistory Key) : Prop where
  scopes : ScopesOk history
  entry : ∃ ule, applyMsgs uleInitEmptyUle history.delivered = some ule ∧ Represents history ule

/-- Every event of a nested history keeps the messages delivered so far in step. -/
theorem InStep.step {key : Key} {event : KeyEvent} {after : KeyHistory Key}
    (step : InStep history) (taken : history.step key event = some after) : InStep after := by
  obtain ⟨ule, reached, represents⟩ := step.entry
  obtain ⟨msgs, next, delivered, result, advances⟩ := represents.step step.scopes taken
  refine ⟨advances.scopes, next, ?_, advances.represents⟩
  rw [delivered, applyMsgs_append, reached, Option.bind_some, result]

/-- Nothing is represented by the leaf entry of a row that was never written. -/
theorem InStep.init : InStep (KeyHistory.init : KeyHistory Key) where
  scopes := ⟨by simp [KeyHistory.init], by simp [KeyHistory.init], by simp [KeyHistory.init],
    by simp [KeyHistory.init], by simp [KeyHistory.init]⟩
  entry := ⟨uleInitEmptyUle, rfl, .settled ⟨by simp [KeyHistory.init, touchedScopes,
    uleInitEmptyUle], ⟨committedDelete, [], rfl, rfl⟩⟩⟩

/--
A leaf entry refines nested copy-on-write transactions.

No check fails, and the innermost record is what the innermost transaction sees.
-/
theorem nestedHistory_refines {key : Key} {events : List KeyEvent} {history : KeyHistory Key}
    (run : KeyHistory.Reaches key events history) :
    ∃ ule innermost, applyMsgs uleInitEmptyUle history.delivered = some ule ∧
      uleGetInnermostUxr ule = some innermost ∧
      innermost.type = rowRecord history.nest.view := by
  have inStep : InStep history := run.invariant InStep.init fun before taken => before.step taken
  obtain ⟨ule, reached, represents⟩ := inStep.entry
  obtain ⟨innermost, found, shown⟩ := represents.innermost
  exact ⟨ule, innermost, reached, found, shown⟩

/-- A child commits silently, its sibling deletes and aborts, and the value of the child shows. -/
theorem nestedHistory_refines_silentChild :
    ∃ history : KeyHistory Nat, history.nest.view = some [7] ∧
      ∃ ule innermost, applyMsgs uleInitEmptyUle history.delivered = some ule ∧
        uleGetInnermostUxr ule = some innermost ∧
        innermost.type = rowRecord history.nest.view := by
  have run : KeyHistory.Reaches (0 : Nat) [.beginRoot 5, .beginChild 1, .insert 1 [7],
      .commit [], .beginChild 2, .delete 2, .abort [3]] _ := Runs.of_foldlM rfl
  exact ⟨_, rfl, nestedHistory_refines run⟩

end Tokuft
