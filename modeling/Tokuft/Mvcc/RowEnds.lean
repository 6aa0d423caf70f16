import Mathlib.Data.List.Find
import Tokuft.Mvcc.RowWrites

/-! A root that ends leaves what it wrote, or takes it back, and unlocks its rows. -/

namespace Tokuft

variable {Key : Type} {world after : TxnWorld} {stack : List Nat} {row next : DbRow Key} {key : Key}
  {root : Nat} {txn : TokuTxn}

/-- The stack of a row matters only while its writer has open transactions. -/
theorem RowOk.restack (rowOk : RowOk world stack row) {other : List Nat}
    (same : row.history.nest.scopes ≠ [] → other = stack) : RowOk world other row :=
  { rowOk with held := fun opened => (rowOk.held opened).trans (same opened).symm }

/-- A version of a root that has not finished is not yet to be read. -/
theorem versionBefore_pending {finished : List FinishedTxn} {versions : List (Nat × Row)}
    {value : Row} (pending : ∀ txn ∈ finished, txn.xid ≠ root) (snapshotXid : Nat) :
    versionBefore finished ((root, value) :: versions) snapshotXid =
      versionBefore finished versions snapshotXid := by
  -- No finished root has the name of the pending one.
  have same : ∀ txn ∈ finished, ((root, value) :: versions).lookup txn.xid =
      versions.lookup txn.xid := by
    intro txn done
    rw [List.lookup_cons, beq_eq_false_iff_ne.mpr (pending txn done)]
  have found : (finished.find? fun txn => txn.committed && decide (txn.lastXid < snapshotXid) &&
        (((root, value) :: versions).lookup txn.xid).isSome) =
      finished.find? fun txn => txn.committed && decide (txn.lastXid < snapshotXid) &&
        (versions.lookup txn.xid).isSome :=
    List.find?_congr fun txn done => by rw [same txn done]
  rw [versionBefore, versionBefore, found]
  cases given : finished.find? fun txn => txn.committed && decide (txn.lastXid < snapshotXid) &&
        (versions.lookup txn.xid).isSome with
  | none => rfl
  | some txn =>
    rw [Option.bind_some, Option.bind_some, same txn (List.mem_of_find?_eq_some given)]

section

variable (rowOk : RowOk world (world.stack root) row)
include rowOk

/-- A root that is ending has no child, so its stack is its own identifier. -/
theorem RowOk.only_root (opened : row.history.nest.scopes ≠ []) (found : world.txns root = [txn]) :
    ∃ scope, row.history.nest.scopes = [scope] := by
  have names := rowOk.held opened
  rw [TxnWorld.stack, found] at names
  have one := congrArg List.length names
  rw [List.length_map, List.map_singleton] at one
  exact List.length_eq_one_iff.mp one

/-- A root that commits leaves its value, and readers are shown the same records. -/
theorem RowOk.commitRoot (ok : world.Ok) (held : row.lock = root)
    (opened : row.history.nest.scopes ≠ []) (found : world.txns root = [txn])
    (commits : txn.state = .committing) {msns : List Nat}
    (finished : row.finish key root .committing msns = some next) :
    RowOk world (world.stack root) next ∧ next.lock = root ∧ next.history.nest.scopes = [] := by
  subst held
  simp only [DbRow.finish, bind_inv] at finished
  obtain ⟨done, acted, rfl⟩ := finished
  obtain ⟨history, ule, taken, rfl, advances⟩ :=
    DbRow.act_advances rowOk.scopes rowOk.represents acted
  obtain ⟨scope, scopes⟩ := rowOk.only_root opened found
  have readers : interestingXrs ule = interestingXrs row.row := advances.readers
  have closed : history.nest.scopes = [] := by
    have names := KeyHistory.step_stack taken
    rw [scopes] at names
    exact List.map_eq_nil_iff.mp names
  have lock := rowOk.lock_ne opened
  have writing := rowOk.locked lock
  have pending : ∀ other ∈ world.finished, other.xid ≠ row.lock := fun other done =>
    ok.finished_ne done rfl writing
  have absent := rowOk.unfinished opened
  refine ⟨?_, rfl, closed⟩
  -- The value that the root leaves is the one that it saw.
  have left : (row.history.nest.scopes.head?.bind Scope.own).map (fun value => (row.lock, value)) =
      (row.ownWrite row.lock).map fun value => (row.lock, value) := by
    rw [DbRow.ownWrite, absent, scopes]
    cases own : scope.own with
    | none => simp [own]
    | some value => simp [own, Nest.view, scopes, viewOf]
  rw [left]
  generalize saw : row.ownWrite row.lock = ownWrite
  have looked : (((ownWrite.map fun value => (row.lock, value)).toList ++
    row.versions).lookup row.lock) =
      ownWrite := by
    cases ownWrite with
    | none => exact absent
    | some value => exact List.lookup_cons_self
  have nobody (snapshotXid : Nat) : versionBefore world.finished
      ((ownWrite.map fun value => (row.lock, value)).toList ++ row.versions) snapshotXid =
      versionBefore world.finished row.versions snapshotXid := by
    cases ownWrite with
    | none => rfl
    | some value => exact versionBefore_pending pending snapshotXid
  refine ⟨advances.scopes, advances.represents, fun more => absurd closed more, ?_, rowOk.locked,
    ?_, ?_, fun more => absurd closed more, fun more => absurd closed more, fun _ _ => ?_, ?_, ?_,
    ?_, ?_⟩
  · rw [closed]
    intro name last
    cases last
  · exact readers ▸ rowOk.named
  · exact readers ▸ rowOk.below
  · show CommittingRoot (world.txns row.lock)
    rw [found]
    exact ⟨txn, rfl, commits⟩
  · intro version member
    rcases List.mem_append.mp member with own | old
    · obtain ⟨value, -, rfl⟩ := Option.map_eq_some_iff.mp (Option.mem_toList.mp own)
      exact Or.inl ⟨lock, rfl⟩
    · exact rowOk.versions version old
  · intro snapshotXid mayRead
    show xrRead _ (interestingXrs ule) = _
    rw [readers, nobody]
    exact rowOk.reads snapshotXid mayRead
  · intro _ snapshotXid mayRead
    show xrRead _ (interestingXrs ule) = _
    have own := rowOk.own lock snapshotXid mayRead
    rw [saw] at own
    have now : ({ row with
        row := ule, history
        versions := (ownWrite.map fun value => (row.lock, value)).toList ++ row.versions } :
          DbRow Key).ownWrite row.lock = ownWrite := by
      rw [DbRow.ownWrite, if_neg (by simp [closed]), looked]
    rw [readers, nobody, now]
    exact own
  · exact readers ▸ rowOk.clones

/-- A root that ends finishes a row, which then follows no open transactions. -/
theorem RowOk.finish (ok : world.Ok) (holds : row.heldBy root = true)
    (found : world.txns root = [txn]) {msns : List Nat}
    (finished : row.finish key root txn.state msns = some next) :
    RowOk world (world.stack root) next ∧ next.lock = root ∧ next.history.nest.scopes = [] := by
  obtain ⟨held, opened⟩ := DbRow.heldBy_iff.mp holds
  cases state : txn.state with
  | live => rw [state] at finished; cases finished
  | committing =>
    rw [state] at finished
    exact rowOk.commitRoot ok held opened found state finished
  | aborting =>
    rw [state] at finished
    obtain ⟨nextOk, lock⟩ := rowOk.act_inner ok (.abort msns) opened finished
    -- The root was the only open transaction, so none is left.
    have alone : KeyEvent.stackAfter (world.stack root) (.abort msns) = [] := by
      rw [TxnWorld.stack, found]
      rfl
    have closed : next.history.nest.scopes = [] := by
      by_contra more
      have names := nextOk.held more
      rw [alone, List.map_eq_nil_iff] at names
      exact more names
    exact ⟨nextOk.restack fun more => absurd closed more, lock.trans held, closed⟩

end

/-- A root that ends unlocks a row that it has finished. -/
theorem RowOk.unlock (rowOk : RowOk world stack row) (ok : world.Ok)
    (lock : row.lock = root) (closed : row.history.nest.scopes = []) (writes : root ≠ txnidNone)
    (taken : world.completeRoot root = some after) (other : List Nat) :
    RowOk after other { row with lock := txnidNone } := by
  subst lock
  have later := ok.completeRoot_later taken
  have afterOk := @TxnWorld.Ok.step _ _ ok (.completeRoot row.lock) taken
  have writing := rowOk.locked writes
  obtain ⟨txn, found, -, -, -, -, -, -, shape⟩ := completeRoot_shape ok taken
  obtain ⟨last, final, kind, logged⟩ := writing
  have alone : last = txn := by
    rw [found] at final
    exact (Option.some.inj final).symm
  subst alone
  have wroteBefore : txnIsReadOnly last = false := by rw [txnIsReadOnly, logged]; rfl
  rw [kind, if_neg Bool.false_ne_true, wroteBefore] at shape
  have done := @List.mem_cons_self _ (FinishedTxn.mk row.lock false (last.state == .committing)
    world.mgr.lastXid) world.finished
  rw [← shape] at done
  have wrote {xid : Nat} (named : (row.lock ≠ txnidNone ∧ xid = row.lock) ∨ world.Wrote xid) :
      after.Wrote xid := by
    rcases named with ⟨-, rfl⟩ | before
    · exact ⟨_, done, rfl, rfl⟩
    · exact later.wrote before
  have left : row.ownWrite row.lock = row.versions.lookup row.lock :=
    if_neg (by simp [closed])
  -- What the root left it left by committing.
  have committed {value : Row} (given : row.versions.lookup row.lock = some value) :
      last.state = .committing := by
    obtain ⟨other, final, commits⟩ := rowOk.ending writes (by rw [given]; rfl)
    have same : other = last := by
      rw [found] at final
      exact (Option.some.inj final).symm
    exact same ▸ commits
  have decided (snapshotXid : Nat) : ∀ uxr ∈ (interestingXrs row.row).dropLast,
      after.finishedBefore snapshotXid uxr.xid =
        ((uxr.xid == row.lock && decide (world.mgr.lastXid < snapshotXid)) ||
          world.finishedBefore snapshotXid uxr.xid) := by
    intro uxr member
    rcases rowOk.named uxr member with ⟨-, same⟩ | before
    · rw [same, afterOk.finishedBefore_finished done,
        ok.finishedBefore_live (ok.writing_live (rowOk.locked writes)), beq_self_eq_true,
        Bool.true_and, Bool.or_false]
    · obtain ⟨other, finished, same, -⟩ := id before
      have apart := ok.finished_ne finished same (rowOk.locked writes)
      rw [later.finishedBefore_eq ok afterOk before, beq_eq_false_iff_ne.mpr apart,
        Bool.false_and, Bool.false_or]
  refine ⟨rowOk.scopes, rowOk.represents, fun more => absurd closed more, ?_,
    fun held => absurd rfl held, fun uxr member => Or.inr (wrote (rowOk.named uxr member)),
    fun uxr member => later.wrote (rowOk.below uxr member), fun more => absurd closed more,
    fun more => absurd closed more, fun held => absurd rfl held, fun version member => Or.inr ?_,
    fun snapshotXid mayRead => ?_, fun held => absurd rfl held, fun clone member => ?_⟩
  · rw [closed]
    intro name last
    cases last
  · rcases rowOk.versions version member with ⟨-, same⟩ | ⟨other, finished, same⟩
    · exact ⟨_, done, same.symm⟩
    · exact ⟨other, later.remembers finished, same⟩
  · show xrRead (after.finishedBefore snapshotXid) (interestingXrs row.row) =
      some (rowRecord (versionBefore after.finished row.versions snapshotXid))
    have before := later.mayRead mayRead
    by_cases early : world.mgr.lastXid < snapshotXid
    · -- A snapshot that came after the end sees what the root saw.
      have same : xrRead (after.finishedBefore snapshotXid) (interestingXrs row.row) =
          xrRead (fun xid => xid == row.lock || world.finishedBefore snapshotXid xid)
            (interestingXrs row.row) :=
        xrRead_congr fun uxr member => by
          rw [decided snapshotXid uxr member, decide_eq_true early, Bool.and_true]
      rw [same, rowOk.own writes snapshotXid before, left, shape]
      congr 2
      cases given : row.versions.lookup row.lock with
      | none => rw [versionBefore, versionBefore, List.find?_cons_of_neg (by simp [given])]; rfl
      | some value =>
        rw [Option.getD_some, versionBefore,
          List.find?_cons_of_pos (by simp [given, committed given, early])]
        simp [given]
    · have same : xrRead (after.finishedBefore snapshotXid) (interestingXrs row.row) =
          xrRead (world.finishedBefore snapshotXid) (interestingXrs row.row) :=
        xrRead_congr fun uxr member => by
          rw [decided snapshotXid uxr member, decide_eq_false early, Bool.and_false,
            Bool.false_or]
      rw [same, rowOk.reads snapshotXid before, shape, versionBefore, versionBefore,
        List.find?_cons_of_neg (by simp [early])]
  · have old := rowOk.clones clone member
    exact ⟨old.ok, old.later.trans later, old.known, old.below⟩

section

variable (rowOk : RowOk world (world.stack row.lock) row) (ok : world.Ok) {event : TxnEvent}
  (taken : world.next event = some after) (stays : event ≠ .completeRoot row.lock)
include rowOk ok taken stays

/-- A row waits while the transactions take a step that does not concern those it follows. -/
theorem RowOk.waits
    (same : row.history.nest.scopes ≠ [] → event.stackAfter world row.lock = world.stack row.lock) :
    RowOk after (after.stack row.lock) row := by
  refine (rowOk.later ok (ok.step taken) (ok.next_later taken)
    (ok.next_root taken stays)).restack fun opened => ?_
  obtain ⟨last, final, -⟩ := rowOk.locked (rowOk.lock_ne opened)
  have live : world.txns row.lock ≠ [] := List.ne_nil_of_mem (List.mem_of_getLast? final)
  exact (ok.next_stack taken live).trans (same opened)

/-- A row whose writer opens or closes a child follows it. -/
theorem RowOk.follows (opened : row.history.nest.scopes ≠ []) {act : KeyEvent}
    (inner : act.Inner (world.stack row.lock))
    (same : event.stackAfter world row.lock = act.stackAfter (world.stack row.lock))
    (acted : row.act key act = some next) : RowOk after (after.stack next.lock) next := by
  obtain ⟨nextOk, lock⟩ := rowOk.act_inner ok inner opened acted
  rw [← lock] at stays same nextOk
  obtain ⟨last, final, -⟩ := rowOk.locked (rowOk.lock_ne opened)
  have live : world.txns next.lock ≠ [] := by
    rw [lock]
    exact List.ne_nil_of_mem (List.mem_of_getLast? final)
  refine (nextOk.later ok (ok.step taken) (ok.next_later taken)
    (ok.next_root taken stays)).restack fun _ => ?_
  exact (ok.next_stack taken live).trans same

end

/-- A root has a child when one of them can end. -/
theorem completeChild_tail (taken : world.completeChild root = some after) :
    (world.stack root).tail ≠ [] := by
  obtain ⟨child, parent, outer, mgr, chain, found, -⟩ := TxnWorld.completeChild_inv taken
  rw [TxnWorld.stack, found]
  exact List.cons_ne_nil _ _

section

variable (rowOk : RowOk world (world.stack row.lock) row) (ok : world.Ok)
include rowOk ok

/-- The end of a child closes it on the rows that its root has written. -/
theorem RowOk.completeChild (taken : world.completeChild root = some after) {act : KeyEvent}
    (inner : (world.stack root).tail ≠ [] → act.Inner (world.stack root))
    (pops : act.stackAfter (world.stack root) = (world.stack root).tail)
    (acted : (if row.heldBy root then row.act key act else pure row) = some next) :
    RowOk after (after.stack next.lock) next := by
  -- Rows of other roots are left alone.
  have step : world.next (.completeChild root) = some after := taken
  by_cases holds : row.heldBy root = true
  · rw [if_pos holds] at acted
    obtain ⟨rfl, opened⟩ := DbRow.heldBy_iff.mp holds
    refine rowOk.follows ok step nofun opened (inner (completeChild_tail taken)) ?_ acted
    exact (if_pos rfl).trans pops.symm
  · rw [if_neg holds] at acted
    cases acted
    refine rowOk.waits ok step nofun fun opened => if_neg fun same => ?_
    exact holds (DbRow.heldBy_iff.mpr ⟨same.symm, opened⟩)

/-- The end of a root finishes and unlocks the rows that it has locked. -/
theorem RowOk.completeRoot (taken : world.completeRoot root = some after)
    (completed : row.completeRoot key world root = some next) :
    RowOk after (after.stack next.lock) next := by
  have step : world.next (.completeRoot root) = some after := taken
  unfold DbRow.completeRoot at completed
  split at completed
  case h_2 => cases completed
  rename_i txn found
  have finish : ∃ finished,
      (if row.heldBy root then row.finish key root txn.state [] else pure row) = some finished ∧
        next = if row.lock = root then { finished with lock := txnidNone } else finished := by
    by_cases holds : row.heldBy root = true
    · simp only [if_pos holds, bind_inv] at completed ⊢
      obtain ⟨finished, finish, rfl⟩ := completed
      exact ⟨finished, finish, rfl⟩
    · simp only [if_neg holds, bind_runs, Option.some.injEq] at completed ⊢
      exact ⟨row, rfl, completed.symm⟩
  obtain ⟨finished, finish, rfl⟩ := finish
  have writes : root ≠ txnidNone := by
    have some : world.txns root ≠ [] := by rw [found]; exact List.cons_ne_nil _ _
    exact Nat.ne_of_gt (ok.rootBound root some).1
  by_cases lock : row.lock = root
  · rw [if_pos lock]
    by_cases holds : row.heldBy root = true
    · rw [if_pos holds] at finish
      obtain ⟨nextOk, held, closed⟩ := (lock ▸ rowOk).finish ok holds found finish
      exact nextOk.unlock ok held closed writes taken _
    · -- The root finished this row before.
      rw [if_neg holds] at finish
      cases finish
      have closed : row.history.nest.scopes = [] := by
        by_contra opened
        exact holds (DbRow.heldBy_iff.mpr ⟨lock, opened⟩)
      exact rowOk.unlock ok lock closed writes taken _
  · have other : ¬row.heldBy root = true := fun holds => lock (DbRow.heldBy_iff.mp holds).1
    rw [if_neg other] at finish
    cases finish
    rw [if_neg lock]
    refine rowOk.waits ok step (fun same => lock ?_) fun _ => if_neg (Ne.symm lock)
    cases same
    rfl

/-- Every step of the transactions keeps a row in order that takes it with them. -/
theorem RowOk.afterTxn {event : TxnEvent} (taken : world.next event = some after)
    (acted : row.afterTxn key world event = some next) :
    RowOk after (after.stack next.lock) next := by
  -- One case for each event.
  cases event with
  | beginRoot | logBegin | noteCommit | noteAbort =>
    cases acted
    exact rowOk.waits ok taken nofun fun _ => rfl
  | beginChild root =>
    simp only [DbRow.afterTxn] at acted
    by_cases holds : row.heldBy root = true
    · rw [if_pos holds] at acted
      obtain ⟨rfl, opened⟩ := DbRow.heldBy_iff.mp holds
      exact rowOk.follows ok taken nofun opened (.beginChild _) (if_pos rfl) acted
    · rw [if_neg holds] at acted
      cases acted
      refine rowOk.waits ok taken nofun fun opened => if_neg fun same => ?_
      exact holds (DbRow.heldBy_iff.mpr ⟨same.symm, opened⟩)
  | completeChild root => exact rowOk.completeChild ok taken (.commitChild []) rfl acted
  | completeRoot root => exact rowOk.completeRoot ok taken acted

end

end Tokuft
