import Tokuft.Mvcc.RowOk

/-! Writes, ends, promotions, and collections keep a row in order. -/

namespace Tokuft

variable {Key : Type} {world after : TxnWorld} {stack : List Nat} {row next : DbRow Key} {key : Key}

/-- What an event of a row's history does to the stack of its open transactions. -/
def KeyEvent.stackAfter (names : List Nat) : KeyEvent → List Nat
  | .beginRoot xid => xid :: names
  | .beginChild xid => xid :: names
  | .commit _ => names.tail
  | .abort _ => names.tail
  | _ => names

variable {event : KeyEvent}

/-- An event of a row's history changes the stack as its kind says. -/
theorem KeyHistory.step_stack {history later : KeyHistory Key}
    (taken : history.step key event = some later) :
    later.nest.scopes.map Scope.name = event.stackAfter (history.nest.scopes.map Scope.name) := by
  -- One case for each event.
  have closes {scope : Scope Nat Row} (first : scope ∈ history.nest.scopes.head?) :
      history.nest.commit.scopes.map Scope.name =
          (history.nest.scopes.map Scope.name).tail ∧
        history.nest.abort.scopes.map Scope.name =
          (history.nest.scopes.map Scope.name).tail := by
    obtain ⟨outer, scopes⟩ := List.head?_eq_some_iff.mp first
    rw [Nest.names_commit scopes, Nest.names_abort scopes, scopes]
    exact ⟨rfl, rfl⟩
  cases event with
  | beginRoot xid =>
    simp only [KeyHistory.step, bind_inv] at taken
    obtain ⟨-, -, rfl⟩ := taken
    rfl
  | beginChild xid =>
    simp only [KeyHistory.step, bind_inv] at taken
    obtain ⟨-, -, -, -, rfl⟩ := taken
    rfl
  | insert msn val =>
    simp only [KeyHistory.step, bind_inv] at taken
    obtain ⟨-, -, rfl⟩ := taken
    exact Nest.names_write _ _
  | insertNoOverwrite msn val =>
    simp only [KeyHistory.step, bind_inv] at taken
    obtain ⟨-, -, rfl⟩ := taken
    split
    · exact Nest.names_write _ _
    · rfl
  | delete msn =>
    simp only [KeyHistory.step, bind_inv] at taken
    obtain ⟨-, -, rfl⟩ := taken
    exact Nest.names_write _ _
  | commit msns =>
    simp only [KeyHistory.step, bind_inv, invariant_eq_some] at taken
    obtain ⟨-, opened, rfl⟩ := taken
    obtain ⟨scope, outer, scopes⟩ := List.exists_cons_of_ne_nil opened
    exact (@closes scope (by rw [scopes]; rfl)).1
  | abort msns =>
    simp only [KeyHistory.step, bind_inv, invariant_eq_some] at taken
    obtain ⟨-, ⟨scope, first, -⟩, rfl⟩ := taken
    exact (closes first).2

/-- An event of the history, and its messages, take a row to the next. -/
theorem DbRow.act_advances (namesOk : ScopesOk row.history)
    (represents : Represents row.history row.row) (acted : row.act key event = some next) :
    ∃ history ule, row.history.step key event = some history ∧
      next = { row with row := ule, history } ∧
      Advances row.history row.row event history ule := by
  simp only [DbRow.act, bind_inv] at acted
  obtain ⟨history, taken, ule, applied, rfl⟩ := acted
  obtain ⟨msgs, reached, delivered, result, advances⟩ := represents.step namesOk taken
  -- The messages that are new are those of the event.
  rw [delivered, List.drop_left, result] at applied
  cases applied
  exact ⟨history, ule, taken, rfl, advances⟩

/-- A row that the open transactions of a root have written. -/
theorem DbRow.heldBy_iff {root : Nat} :
    row.heldBy root = true ↔ row.lock = root ∧ row.history.nest.scopes ≠ [] := by
  simp [DbRow.heldBy]

/-- The lock of a row with open transactions is held by somebody. -/
theorem RowOk.lock_ne (rowOk : RowOk world stack row) (opened : row.history.nest.scopes ≠ []) :
    row.lock ≠ txnidNone := by
  have more : row.history.nest.scopes.map Scope.name ≠ [] := by simpa using opened
  obtain ⟨name, last⟩ := Option.isSome_iff_exists.mp (List.getLast?_isSome.mpr more)
  have named := rowOk.scopes.named name (List.mem_of_getLast? last)
  rwa [rowOk.rooted name last] at named

/-- A child that commits hands its value to its parent, and readers see no difference. -/
theorem ownXrs_commit {nest : Nest Nat Row} {scope parent : Scope Nat Row}
    {outer : List (Scope Nat Row)} (scopes : nest.scopes = scope :: parent :: outer) :
    ownXrs nest.commit = ownXrs nest := by
  -- A child that wrote nothing hands on nothing.
  cases own : scope.own with
  | none => rw [Nest.commit_untouched scopes own, ownXrs_abort scopes own]
  | some value =>
    have written : scope.own ≠ none := by rw [own]; exact Option.some_ne_none value
    have before : touchedScopes nest.scopes = scope :: parent :: outer := by
      rw [scopes]; exact touchedScopes_written _ written
    have shape : nest.commit.scopes = { parent with own := scope.own.or parent.own } :: outer := by
      simp only [Nest.commit, scopes]
    have after : touchedScopes nest.commit.scopes =
        { parent with own := scope.own.or parent.own } :: outer := by
      rw [shape]
      exact touchedScopes_written _ (by simp [own])
    rw [ownXrs, ownXrs, Nest.view_commit, before, after]
    cases outer <;> rfl

/-- A copy that could judge a row can judge it after its writer shows no more than before. -/
theorem CloneOk.sameBelow {clone : TxnWorld} {nest nextNest : Nest Nat Row} {ule nextUle : Ule}
    (cloneOk : CloneOk clone world (interestingXrs ule))
    (same : SameBelow nest ule nextNest nextUle)
    (fewer : ownXrs nextNest = [] ∨
      (ownXrs nextNest).map Uxr.xid = (ownXrs nest).map Uxr.xid) (one : (ownXrs nest).length ≤ 1) :
    CloneOk clone world (interestingXrs nextUle) := by
  -- What lies below the writer is judged as before.
  obtain ⟨below, more, before, shape⟩ := same
  rw [before] at cloneOk
  rw [shape]
  match own : ownXrs nest, nextOwn : ownXrs nextNest with
  | [], [] => rwa [own] at cloneOk
  | [], first :: rest => simp [own, nextOwn] at fewer
  | [top], [] =>
    rw [own] at cloneOk
    refine cloneOk.congr (fun uxr member => ⟨uxr, ?_, rfl⟩) fun uxr member => ⟨uxr, ?_, rfl⟩
    · exact (List.dropLast_cons_of_ne_nil more) ▸ List.mem_cons_of_mem top member
    · exact mem_dropLast_of_tail member
  | [top], first :: rest =>
    simp only [own, nextOwn, reduceCtorEq, List.map_cons, List.map_nil, List.cons.injEq,
      List.map_eq_nil_iff, false_or] at fewer
    obtain ⟨same, rfl⟩ := fewer
    rw [own] at cloneOk
    refine cloneOk.congr (fun uxr member => ?_) fun uxr member => ⟨uxr, member, rfl⟩
    simp only [List.cons_append, List.nil_append, List.dropLast_cons_of_ne_nil more,
      List.mem_cons] at member ⊢
    rcases member with rfl | member
    · exact ⟨top, Or.inl rfl, same.symm⟩
    · exact ⟨uxr, Or.inr member, rfl⟩
  | first :: second :: rest, _ => simp [own] at one

/-- An event that opens a child, or closes one or the root without leaving a value. -/
inductive KeyEvent.Inner (stack : List Nat) : KeyEvent → Prop where
  | beginChild (xid : Nat) : KeyEvent.Inner stack (.beginChild xid)
  | commitChild (msns : List Nat) (child : stack.tail ≠ []) : KeyEvent.Inner stack (.commit msns)
  | abort (msns : List Nat) : KeyEvent.Inner stack (.abort msns)

/-- Such an event changes nothing below the writer's record, and keeps its identifier. -/
theorem RowOk.inner_shows (rowOk : RowOk world stack row) {history : KeyHistory Key} {ule : Ule}
    (inner : event.Inner stack) (opened : row.history.nest.scopes ≠ [])
    (taken : row.history.step key event = some history)
    (advances : Advances row.history row.row event history ule) :
    SameBelow row.history.nest row.row history.nest ule ∧
      (ownXrs history.nest = [] ∨
        (ownXrs history.nest).map Uxr.xid = (ownXrs row.history.nest).map Uxr.xid) := by
  have names := rowOk.held opened
  cases inner with
  | beginChild xid =>
    refine ⟨advances.readers, Or.inr ?_⟩
    simp only [KeyHistory.step, bind_inv] at taken
    obtain ⟨-, -, -, -, rfl⟩ := taken
    exact congrArg _ (ownXrs_untouched rfl)
  | commitChild msns child =>
    simp only [KeyHistory.step, bind_inv] at taken
    obtain ⟨-, -, rfl⟩ := taken
    have two : ∃ scope parent outer, row.history.nest.scopes = scope :: parent :: outer := by
      rw [← names] at child
      rcases scopes : row.history.nest.scopes with _ | ⟨scope, _ | ⟨parent, outer⟩⟩
      · exact absurd scopes opened
      · rw [scopes] at child
        exact absurd rfl child
      · exact ⟨scope, parent, outer, rfl⟩
    obtain ⟨scope, parent, outer, scopes⟩ := two
    have same := ownXrs_commit scopes
    obtain ⟨below, more, shape⟩ := rowOk.represents.below rowOk.scopes
    have readers : interestingXrs ule = interestingXrs row.row := advances.readers
    exact ⟨⟨below, more, shape, by rw [readers, shape, same]⟩, Or.inr (congrArg _ same)⟩
  | abort msns =>
    refine ⟨advances.readers, ?_⟩
    simp only [KeyHistory.step, bind_inv] at taken
    obtain ⟨-, -, rfl⟩ := taken
    -- What is left shows the writer only if the writer was shown before.
    cases touched : row.history.nest.abort.scopes.any (·.own.isSome) with
    | false => exact Or.inl (ownXrs_bare touched)
    | true =>
      have before : row.history.nest.scopes.any (·.own.isSome) = true := by
        obtain ⟨scope, member, wrote⟩ := List.any_eq_true.mp touched
        exact List.any_eq_true.mpr ⟨scope, List.mem_of_mem_tail member, wrote⟩
      have rooted : ∀ name ∈ (row.history.nest.abort.scopes.map Scope.name).getLast?,
          name = row.lock := by
        intro name last
        refine rowOk.rooted name ?_
        have tail : row.history.nest.abort.scopes = row.history.nest.scopes.tail := rfl
        rw [tail] at last
        cases scopes : row.history.nest.scopes with
        | nil => exact absurd scopes opened
        | cons scope outer =>
          rw [scopes] at last
          cases outer with
          | nil => cases last
          | cons parent others => simpa [List.getLast?_cons_cons] using last
      rw [ownXrs_touched rooted touched, ownXrs_touched rowOk.rooted before]
      exact Or.inr rfl

/-- Such an event keeps a row in order. -/
theorem RowOk.act_inner (rowOk : RowOk world stack row) (ok : world.Ok) (inner : event.Inner stack)
    (opened : row.history.nest.scopes ≠ []) (acted : row.act key event = some next) :
    RowOk world (event.stackAfter stack) next ∧ next.lock = row.lock := by
  -- The event is about scopes above the committed part.
  obtain ⟨history, ule, taken, rfl, advances⟩ :=
    DbRow.act_advances rowOk.scopes rowOk.represents acted
  obtain ⟨same, fewer⟩ := rowOk.inner_shows inner opened taken advances
  have names := KeyHistory.step_stack taken
  rw [rowOk.held opened] at names
  have last : ∀ name ∈ (event.stackAfter stack).getLast?, name ∈ stack.getLast? := by
    have some : stack ≠ [] := by rw [← rowOk.held opened]; simpa using opened
    obtain ⟨first, rest, rfl⟩ := List.exists_cons_of_ne_nil some
    intro name last
    cases inner with
    | beginChild xid => simpa [KeyEvent.stackAfter, List.getLast?_cons_cons] using last
    | commitChild msns child | abort msns =>
      cases rest with
      | nil => cases last
      | cons second others => simpa [KeyEvent.stackAfter, List.getLast?_cons_cons] using last
  have one : (ownXrs row.history.nest).length ≤ 1 := by
    rcases rowOk.ownXrs_cases with ⟨-, bare⟩ | ⟨-, own⟩
    · rw [bare]; exact Nat.zero_le 1
    · rw [own]; exact Nat.le_refl 1
  refine ⟨rowOk.sameBelow ok (rowOk.lock_ne opened) opened advances.scopes advances.represents
    (fun _ => names) (fun name final => ?_) same
    fun clone member => (rowOk.clones clone member).sameBelow same fewer one, rfl⟩
  rw [names] at final
  refine rowOk.rooted name ?_
  rw [rowOk.held opened]
  exact last name final

variable {root : Nat}

/-- An event that opens a transaction. -/
inductive KeyEvent.Begins : KeyEvent → Prop where
  | root (xid : Nat) : KeyEvent.Begins (.beginRoot xid)
  | child (xid : Nat) : KeyEvent.Begins (.beginChild xid)

/-- A row whose history follows some transactions that have not written it. -/
structure Entered (row : DbRow Key) (names : List Nat) (opened : DbRow Key) : Prop where
  shape : opened = { row with history := opened.history }
  scopes : ScopesOk opened.history
  represents : Represents opened.history row.row
  names : opened.history.nest.scopes.map Scope.name = names
  bare : opened.history.nest.scopes.any (·.own.isSome) = false

/-- Opening one more transaction sends nothing to the row. -/
theorem Entered.begins {names : List Nat} {opened : DbRow Key} (entered : Entered row names opened)
    {event : KeyEvent} (begins : event.Begins) (acted : opened.act key event = some next) :
    Entered row (event.stackAfter names) next := by
  have sameRow : opened.row = row.row := by rw [entered.shape]
  obtain ⟨history, ule, taken, rfl, advances⟩ :=
    DbRow.act_advances entered.scopes (sameRow.symm ▸ entered.represents) acted
  -- The event delivers no message, so the row is what it was.
  have silent : history.delivered = opened.history.delivered ∧
      history.nest.scopes.any (·.own.isSome) = false := by
    have bare := entered.bare
    cases begins with
    | root xid =>
      simp only [KeyHistory.step, bind_inv] at taken
      obtain ⟨-, -, rfl⟩ := taken
      exact ⟨rfl, bare⟩
    | child xid =>
      simp only [KeyHistory.step, bind_inv] at taken
      obtain ⟨-, -, -, -, rfl⟩ := taken
      exact ⟨rfl, bare⟩
  have same : ule = row.row := by
    simp only [DbRow.act, taken, silent.1, List.drop_length, bind_runs, applyMsgs, List.foldlM_nil,
      Option.some.injEq] at acted
    have rows := congrArg DbRow.row acted
    exact rows.symm.trans sameRow
  refine ⟨?_, advances.scopes, same ▸ advances.represents, ?_, silent.2⟩
  · rw [entered.shape, same]
  · rw [KeyHistory.step_stack taken, entered.names]

/-- Opening transactions one after the other stacks them. -/
theorem Entered.all {events : List KeyEvent} (begins : ∀ event ∈ events, event.Begins)
    {names : List Nat} {opened : DbRow Key} (entered : Entered row names opened)
    (acted : events.foldlM (fun row event => row.act key event) opened = some next) :
    Entered row (events.foldl KeyEvent.stackAfter names) next := by
  induction events generalizing names opened with
  | nil => cases acted; exact entered
  | cons event rest ih =>
    simp only [List.foldlM_cons, bind_inv] at acted
    obtain ⟨middle, first, others⟩ := acted
    rw [List.foldl_cons]
    exact ih (fun other member => begins other (List.mem_cons_of_mem _ member))
      (entered.begins (begins event List.mem_cons_self) first) others

/-- Entering the open transactions of a root gives the root's stack. -/
theorem openingEvents_stack {lastChildXid : Nat} {chain : List TokuTxn}
    (ok : ChainOk root lastChildXid chain) (some : chain ≠ []) :
    (openingEvents root chain).foldl KeyEvent.stackAfter [] = chain.map TokuTxn.scopeName := by
  obtain ⟨last, outwards, shape⟩ := List.exists_cons_of_ne_nil
    (List.reverse_ne_nil_iff.mpr some)
  have final : chain = outwards.reverse ++ [last] := by
    rw [← List.reverse_reverse chain, shape, List.reverse_cons]
  have isRoot : last.childId64 = txnidNone := ok.rootLast last (by rw [final]; simp)
  have named : last.scopeName = root := by
    rw [TokuTxn.scopeName, if_pos isRoot]
    exact ok.own last (by rw [final]; simp)
  -- Every other transaction of the chain is a child.
  have children : ∀ child ∈ outwards, child.scopeName = child.childId64 := by
    intro child member
    refine if_neg fun none => ?_
    have distinct := ok.distinct
    rw [final, List.map_append] at distinct
    exact (List.nodup_append.mp distinct).2.2 child.childId64
      (List.mem_map_of_mem (List.mem_reverse.mpr member)) last.childId64 (by simp)
      (none.trans isRoot.symm)
  have stacked (names : List Nat) (txns : List TokuTxn) :
      (txns.map fun child => KeyEvent.beginChild child.childId64).foldl KeyEvent.stackAfter names =
        (txns.map TokuTxn.childId64).reverse ++ names := by
    induction txns generalizing names with
    | nil => rfl
    | cons child rest ih =>
      rw [List.map_cons, List.foldl_cons, ih, List.map_cons, List.reverse_cons, List.append_assoc]
      rfl
  rw [openingEvents, shape, List.tail_cons, List.foldl_cons, stacked, final, List.map_append,
    List.map_reverse, List.map_congr_left children, List.map_singleton, named]
  rfl

/-- A row that a root has locked, its open transactions entered if they were not before. -/
theorem RowOk.acquired (rowOk : RowOk world (world.stack row.lock) row) (ok : world.Ok)
    (writing : WritingRoot (world.txns root))
    (acquired : row.acquire key root (world.txns root) = some next) :
    RowOk world (world.stack root) next ∧ next.lock = root := by
  simp only [DbRow.acquire, bind_inv, invariant_eq_some] at acquired
  obtain ⟨-, free, acquired⟩ := acquired
  split at acquired
  · rename_i held
    cases acquired
    exact ⟨held ▸ rowOk, held⟩
  · rename_i other
    have none : row.lock = txnidNone := free.resolve_right other
    simp only [Option.bind_eq_some_iff, Option.some.injEq] at acquired
    obtain ⟨opened, acted, rfl⟩ := acquired
    have closed : row.history.nest.scopes = [] := by
      by_contra open_
      exact rowOk.lock_ne open_ none
    have start : Entered row [] row :=
      ⟨rfl, rowOk.scopes, rowOk.represents, by rw [closed]; rfl, by rw [closed]; rfl⟩
    have begins : ∀ event ∈ openingEvents root (world.txns root), event.Begins := by
      refine List.forall_mem_cons.mpr ⟨.root root, fun event member => ?_⟩
      obtain ⟨child, -, rfl⟩ := List.mem_map.mp member
      exact .child _
    have entered := start.all begins acted
    have some : world.txns root ≠ [] := by
      obtain ⟨last, final, -⟩ := writing
      exact List.ne_nil_of_mem (List.mem_of_getLast? final)
    rw [openingEvents_stack (ok.chains root) some] at entered
    obtain ⟨shape, namesOk, represents, names, bare⟩ := entered
    generalize opened.history = history at shape namesOk represents names bare
    subst shape
    refine ⟨?_, rfl⟩
    -- Without a lock every record is that of a root that has finished.
    have wrote : ∀ uxr ∈ (interestingXrs row.row).dropLast, world.Wrote uxr.xid :=
      fun uxr member => (rowOk.named uxr member).resolve_left fun held => held.1 none
    have fresh : ∀ txn ∈ world.finished, txn.xid ≠ root := fun txn done =>
      ok.finished_ne done rfl writing
    have absent : row.versions.lookup root = Option.none :=
      rowOk.lookup_none (fun same => other same.symm) fresh
    have own : DbRow.ownWrite { row with history, lock := root } root = Option.none := by
      rw [DbRow.ownWrite, if_neg (by simp [bare]), absent]
    have last : ∀ name ∈ ((world.txns root).map TokuTxn.scopeName).getLast?, name = root := by
      intro name last
      rw [List.getLast?_map] at last
      obtain ⟨txn, final, rfl⟩ := Option.map_eq_some_iff.mp last
      have isRoot := (ok.chains root).rootLast txn final
      rw [TokuTxn.scopeName, if_pos isRoot]
      exact (ok.chains root).own txn (List.mem_of_getLast? final)
    refine ⟨namesOk, represents, fun _ => names, fun name final => last name (names ▸ final),
      fun _ => writing, fun uxr member => Or.inr (wrote uxr member), rowOk.below,
      fun _ _ => wrote, fun _ => absent, fun _ left => ?_, fun version member => Or.inr ?_,
      rowOk.reads, fun _ snapshotXid mayRead => ?_, rowOk.clones⟩
    · rw [absent] at left
      cases left
    · exact (rowOk.versions version member).resolve_left fun held => held.1 none
    · rw [own, Option.getD_none, ← rowOk.reads snapshotXid mayRead]
      refine xrRead_congr fun uxr member => ?_
      obtain ⟨txn, done, same, -⟩ := wrote uxr member
      rw [beq_eq_false_iff_ne.mpr (same ▸ fresh txn done), Bool.false_or]

/-- A world may be copied for the collection of its own rows. -/
theorem RowOk.cloneNow (rowOk : RowOk world stack row) (ok : world.Ok) :
    CloneOk world world (interestingXrs row.row) where
  ok := ok
  later := .refl world
  known uxr member := (rowOk.named uxr member).imp_left fun ⟨held, same⟩ =>
    same ▸ ok.writing_live (rowOk.locked held)
  below := rowOk.below

/-- A write reaches the row and leaves no older copy in use. -/
theorem RowOk.write (rowOk : RowOk world (world.stack row.lock) row) (ok : world.Ok) {msn : Nat}
    {write : RowWrite} (written : row.write key world root msn write = some next) :
    RowOk world (world.stack root) next ∧ next.lock = root := by
  unfold DbRow.write at written
  split at written
  · cases written
  · rename_i txn outer found
    simp only [bind_inv, invariant_eq_some] at written
    obtain ⟨-, ⟨-, writes⟩, -, logged, locked, acquired, done, acted, rfl⟩ := written
    have writing : WritingRoot (world.txns root) := by
      obtain ⟨last, final⟩ : ∃ last, (txn :: outer).getLast? = some last :=
        Option.isSome_iff_exists.mp (by simp)
      have member := List.mem_of_getLast? final
      have kind := ((ok.chains root).sameKind last (found ▸ member) txn (by rw [found]; simp)).1
      exact ⟨last, by rw [found]; exact final, kind.trans writes, logged last member⟩
    obtain ⟨lockedOk, held⟩ := rowOk.acquired ok writing (by rw [found]; exact acquired)
    obtain ⟨history, ule, taken, rfl, advances⟩ :=
      DbRow.act_advances lockedOk.scopes lockedOk.represents acted
    -- Every kind of write needs an open transaction, and keeps the stack.
    have effect : locked.history.nest.scopes ≠ [] ∧
        SameBelow locked.history.nest locked.row history.nest ule ∧
        history.nest.scopes.map Scope.name = locked.history.nest.scopes.map Scope.name := by
      have names := KeyHistory.step_stack taken
      have readers := advances.readers
      cases write with
      | insert val | insertNoOverwrite val | delete =>
        simp only [RowWrite.keyEvent, KeyHistory.step, bind_inv, invariant_eq_some] at taken
        obtain ⟨-, opened, -⟩ := taken
        first
          | exact ⟨opened.1, readers, names⟩
          | exact ⟨opened, readers, names⟩
    obtain ⟨opened, same, names⟩ := effect
    have lock : locked.lock ≠ txnidNone := lockedOk.lock_ne opened
    have writtenOk := lockedOk.sameBelow ok lock opened advances.scopes advances.represents
      (fun _ => names.trans (lockedOk.held opened)) (fun name final => by
        rw [names] at final
        exact lockedOk.rooted name final) same (List.forall_mem_nil _)
    exact ⟨writtenOk, held⟩

end Tokuft
