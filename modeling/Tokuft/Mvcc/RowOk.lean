import Tokuft.Mvcc.Db
import Tokuft.Mvcc.GcReads
import Tokuft.Txn.OldestReferenced

/-! What holds of a row and its transactions after every run, and that every event keeps it. -/

namespace Tokuft

/-- Whether the root of some open transactions has begun to write. -/
def WritingRoot (chain : List TokuTxn) : Prop :=
  ∃ last ∈ chain.getLast?, last.declaredReadOnly = false ∧ last.beginWasLogged = true

variable {world after : TxnWorld} {root : Nat}

/-- How the root of some open transactions may change before it is completed. -/
structure GoesOn (before after : TokuTxn) : Prop where
  kind : after.declaredReadOnly = before.declaredReadOnly
  logged : before.beginWasLogged = true → after.beginWasLogged = true
  ending : before.state ≠ .live → after.state = before.state

/-- The root of one list of open transactions goes on as that of another. -/
def RootGoesOn (chain next : List TokuTxn) : Prop :=
  ∀ before ∈ chain.getLast?, ∃ after ∈ next.getLast?, GoesOn before after

/-- A transaction that stays the same goes on. -/
theorem GoesOn.refl (txn : TokuTxn) : GoesOn txn txn := ⟨rfl, id, fun _ => rfl⟩

/-- Without a change the root goes on. -/
theorem RootGoesOn.refl (chain : List TokuTxn) : RootGoesOn chain chain :=
  fun before last => ⟨before, last, .refl before⟩

/-- A change of every open transaction is a change of the root. -/
theorem RootGoesOn.map (chain : List TokuTxn) {change : TokuTxn → TokuTxn}
    (goesOn : ∀ txn, GoesOn txn (change txn)) : RootGoesOn chain (chain.map change) := by
  intro before last
  refine ⟨change before, ?_, goesOn before⟩
  rw [List.getLast?_map, Option.mem_def.mp last]
  rfl

/-- A child on top of a stack does not change who the root is. -/
theorem rootGoesOn_cons {child parent : TokuTxn} {outer next : List TokuTxn} :
    RootGoesOn (child :: parent :: outer) next ↔ RootGoesOn (parent :: outer) next := by
  simp only [RootGoesOn, List.getLast?_cons_cons]

/-- A child on top of a stack does not change who the root is. -/
theorem rootGoesOn_cons_next {chain outer : List TokuTxn} {child parent : TokuTxn} :
    RootGoesOn chain (child :: parent :: outer) ↔ RootGoesOn chain (parent :: outer) := by
  simp only [RootGoesOn, List.getLast?_cons_cons]

/-- A root goes on until it is completed. -/
theorem TxnWorld.Ok.next_root (ok : world.Ok) {event : TxnEvent}
    (taken : world.next event = some after) (stays : event ≠ .completeRoot root) :
    RootGoesOn (world.txns root) (after.txns root) := by
  -- A step on another root does not concern this one.
  have away {other : Nat} {chain : List TokuTxn}
      (changed : other = root → RootGoesOn (world.txns root) chain) :
      RootGoesOn (world.txns root) (Function.update world.txns other chain root) := by
    by_cases here : root = other
    · rw [here, Function.update_self, ← here]
      exact changed here.symm
    · rw [Function.update_of_ne here]
      exact .refl _
  cases event with
  | beginRoot snapshotType readOnly =>
    cases taken
    refine away fun same before last => ?_
    -- The identifier of the new root was not in use.
    have opened := List.ne_nil_of_mem (List.mem_of_getLast? last)
    have bound := (ok.rootBound root opened).2
    have named : world.mgr.lastXid + 1 = root :=
      (startTxn_started ok.manager snapshotType readOnly).named.1.symm.trans same
    omega
  | beginChild other =>
    obtain ⟨parent, outer, mgr, chain, found, -, -, create, rfl⟩ := TxnWorld.beginChild_inv taken
    refine away fun same => ?_
    rw [← same, found]
    rcases TxnManager.createForChild_cases create with
      ⟨-, -, rfl⟩ | ⟨-, -, -, rfl⟩ | ⟨-, -, -, rfl⟩
    · exact rootGoesOn_cons_next.mpr (.refl _)
    · have mapped := @RootGoesOn.map (parent :: outer)
        (fun txn => { txn with liveRootTxnList := some world.mgr.liveRootIds })
        fun _ => ⟨rfl, id, fun _ => rfl⟩
      exact rootGoesOn_cons_next.mpr mapped
    · exact rootGoesOn_cons_next.mpr (.refl _)
  | logBegin other =>
    obtain ⟨txn, outer, found, -, -, rfl⟩ := TxnWorld.logBegin_inv taken
    refine away fun same => ?_
    rw [← same, found]
    exact .map (txn :: outer) fun _ => ⟨rfl, fun _ => rfl, fun _ => rfl⟩
  | noteCommit other | noteAbort other =>
    obtain ⟨txn, found, live, rfl⟩ := TxnWorld.note_inv taken
    refine away fun same before last => ?_
    rw [← same, found] at last
    cases last
    exact ⟨_, rfl, rfl, id, fun ended => absurd live ended⟩
  | completeChild other =>
    obtain ⟨child, parent, outer, mgr, chain, found, destroy, rfl⟩ :=
      TxnWorld.completeChild_inv taken
    refine away fun same => ?_
    rw [← same, found, rootGoesOn_cons]
    rcases TxnManager.destroyForChild_cases destroy with
      ⟨-, -, rfl⟩ | ⟨-, -, -, rfl⟩ | ⟨-, -, -, rfl⟩
    · exact .refl _
    · exact .map _ fun _ => ⟨rfl, id, fun _ => rfl⟩
    · exact .refl _
  | completeRoot other =>
    obtain ⟨txn, -, -, -, -, -, -, txns, -⟩ := completeRoot_shape ok taken
    rw [txns]
    exact away fun same => absurd (congrArg TxnEvent.completeRoot same) stays

/-- A root that goes on keeps writing. -/
theorem RootGoesOn.writing {chain next : List TokuTxn} (goesOn : RootGoesOn chain next)
    (writing : WritingRoot chain) : WritingRoot next := by
  obtain ⟨before, last, writes, logged⟩ := writing
  obtain ⟨after, final, same⟩ := goesOn before last
  exact ⟨after, final, same.kind.trans writes, same.logged logged⟩

/-- A root that is writing is among the live ones. -/
theorem TxnWorld.Ok.writing_live (ok : world.Ok) (writing : WritingRoot (world.txns root)) :
    root ∈ world.mgr.liveRootIds := by
  obtain ⟨last, final, writes, -⟩ := writing
  exact (ok.live root).mpr ⟨last, List.mem_of_getLast? final, writes⟩

/-- Whether the root of some open transactions is committing. -/
def CommittingRoot (chain : List TokuTxn) : Prop :=
  ∃ last ∈ chain.getLast?, last.state = .committing

/-- A root that goes on keeps committing. -/
theorem RootGoesOn.committing {chain next : List TokuTxn} (goesOn : RootGoesOn chain next)
    (committing : CommittingRoot chain) : CommittingRoot next := by
  obtain ⟨before, last, commits⟩ := committing
  obtain ⟨after, final, same⟩ := goesOn before last
  exact ⟨after, final, (same.ending (by rw [commits]; exact nofun)).trans commits⟩

/-- The identifier by which an open transaction is known in a stack. -/
def TokuTxn.scopeName (txn : TokuTxn) : Nat :=
  if txn.childId64 = txnidNone then txn.parentId64 else txn.childId64

/-- The stack of a root's open transactions, the innermost first. -/
def TxnWorld.stack (world : TxnWorld) (root : Nat) : List Nat :=
  (world.txns root).map TokuTxn.scopeName

/-- What an event does to the stack of a root. -/
def TxnEvent.stackAfter (event : TxnEvent) (world : TxnWorld) (root : Nat) : List Nat :=
  match event with
  | .beginChild other =>
    if other = root then startChildTxn root (world.lastChildXid root) :: world.stack root
    else world.stack root
  | .completeChild other => if other = root then (world.stack root).tail else world.stack root
  | .completeRoot other => if other = root then [] else world.stack root
  | _ => world.stack root

/-- An event changes the stack of an open root as its kind says. -/
theorem TxnWorld.Ok.next_stack (ok : world.Ok) {event : TxnEvent}
    (taken : world.next event = some after) (opened : world.txns root ≠ []) :
    after.stack root = event.stackAfter world root := by
  -- Each event changes the chain of one root at most.
  have changed {other : Nat} {chain : List TokuTxn} {names : List Nat}
      (same : other = root → chain.map TokuTxn.scopeName = names) :
      (Function.update world.txns other chain root).map TokuTxn.scopeName =
        if other = root then names else world.stack root := by
    by_cases here : other = root
    · rw [if_pos here, ← here, Function.update_self]
      exact same here
    · rw [if_neg here, Function.update_of_ne (Ne.symm here)]
      rfl
  cases event with
  | beginRoot snapshotType readOnly =>
    cases taken
    have fresh : (world.mgr.startTxn (.create snapshotType readOnly) snapshotType
        readOnly).2.parentId64 ≠ root := by
      intro same
      have bound := (ok.rootBound root opened).2
      have named : world.mgr.lastXid + 1 = root :=
        (startTxn_started ok.manager snapshotType readOnly).named.1.symm.trans same
      omega
    exact (@changed _ _ [] fun same => absurd same fresh).trans (if_neg fresh)
  | beginChild other =>
    obtain ⟨parent, outer, mgr, chain, found, -, -, create, rfl⟩ := TxnWorld.beginChild_inv taken
    refine changed fun same => ?_
    subst same
    have named : ¬startChildTxn other (world.lastChildXid other) = txnidNone :=
      Nat.ne_of_gt (Nat.zero_lt_of_lt (startChildTxn_above other (world.lastChildXid other)))
    rw [TxnWorld.stack, found]
    rcases TxnManager.createForChild_cases create with
      ⟨-, -, rfl⟩ | ⟨-, -, -, rfl⟩ | ⟨-, -, -, rfl⟩
    · exact congrArg₂ _ (if_neg named) rfl
    · rw [List.map_map]
      exact congrArg₂ _ (if_neg named) rfl
    · exact congrArg₂ _ (if_neg named) rfl
  | logBegin other =>
    obtain ⟨txn, outer, found, -, -, rfl⟩ := TxnWorld.logBegin_inv taken
    refine (changed fun same => ?_).trans (ite_self _)
    subst same
    rw [TxnWorld.stack, found, List.map_map]
    rfl
  | noteCommit other | noteAbort other =>
    obtain ⟨txn, found, -, rfl⟩ := TxnWorld.note_inv taken
    refine (changed fun same => ?_).trans (ite_self _)
    subst same
    rw [TxnWorld.stack, found]
    rfl
  | completeChild other =>
    obtain ⟨child, parent, outer, mgr, chain, found, destroy, rfl⟩ :=
      TxnWorld.completeChild_inv taken
    refine changed fun same => ?_
    subst same
    rw [TxnWorld.stack, found]
    rcases TxnManager.destroyForChild_cases destroy with
      ⟨-, -, rfl⟩ | ⟨-, -, -, rfl⟩ | ⟨-, -, -, rfl⟩
    · rfl
    · rw [List.map_map]
      rfl
    · rfl
  | completeRoot other =>
    obtain ⟨txn, -, -, -, -, -, -, txns, -⟩ := completeRoot_shape ok taken
    rw [TxnWorld.stack, txns]
    exact changed fun _ => rfl

/-- A copy of the manager's state that collection may use on a row with these records. -/
structure CloneOk (clone world : TxnWorld) (xrs : List Uxr) : Prop where
  ok : clone.Ok
  later : clone.Later world
  known : ∀ uxr ∈ xrs.dropLast, uxr.xid ∈ clone.mgr.liveRootIds ∨ clone.Wrote uxr.xid
  below : ∀ uxr ∈ xrs.tail.dropLast, clone.Wrote uxr.xid

variable {Key : Type}

/-- What holds of a row, given the transactions and the stack of the row's writer. -/
structure RowOk (world : TxnWorld) (stack : List Nat) (row : DbRow Key) : Prop where
  scopes : ScopesOk row.history
  represents : Represents row.history row.row
  /-- The open transactions that the row's history follows are those of the lock's holder. -/
  held : row.history.nest.scopes ≠ [] → row.history.nest.scopes.map Scope.name = stack
  rooted : ∀ name ∈ (row.history.nest.scopes.map Scope.name).getLast?, name = row.lock
  locked : row.lock ≠ txnidNone → WritingRoot (world.txns row.lock)
  /-- Only the newest record may be that of the writer, and the others have finished. -/
  named : ∀ uxr ∈ (interestingXrs row.row).dropLast,
    (row.lock ≠ txnidNone ∧ uxr.xid = row.lock) ∨ world.Wrote uxr.xid
  below : ∀ uxr ∈ (interestingXrs row.row).tail.dropLast, world.Wrote uxr.xid
  /-- While its transactions are open, the writer has a record only after it wrote. -/
  untouched : row.history.nest.scopes ≠ [] → ownXrs row.history.nest = [] →
    ∀ uxr ∈ (interestingXrs row.row).dropLast, world.Wrote uxr.xid
  unfinished : row.history.nest.scopes ≠ [] → row.versions.lookup row.lock = none
  ending : row.lock ≠ txnidNone → (row.versions.lookup row.lock).isSome →
    CommittingRoot (world.txns row.lock)
  versions : ∀ version ∈ row.versions,
    (row.lock ≠ txnidNone ∧ version.1 = row.lock) ∨
      ∃ txn ∈ world.finished, txn.xid = version.1
  /-- A reader that does not see the writer is given what was committed before its snapshot. -/
  reads : ∀ snapshotXid, world.MayRead snapshotXid →
    xrRead (world.finishedBefore snapshotXid) (interestingXrs row.row) =
      some (rowRecord (versionBefore world.finished row.versions snapshotXid))
  /-- A reader that sees the writer is given what the writer wrote. -/
  own : row.lock ≠ txnidNone → ∀ snapshotXid, world.MayRead snapshotXid →
    xrRead (fun xid => xid == row.lock || world.finishedBefore snapshotXid xid)
      (interestingXrs row.row) =
      some (rowRecord ((row.ownWrite row.lock).getD
        (versionBefore world.finished row.versions snapshotXid)))
  clones : ∀ clone ∈ row.clones, CloneOk clone world (interestingXrs row.row)

variable {stack : List Nat} {row : DbRow Key} {accepts others : Nat → Bool} {xrs : List Uxr}

/-- What is neither first nor last of a list is not last of it. -/
theorem mem_dropLast_of_tail {Item : Type} {item : Item} {items : List Item}
    (member : item ∈ items.tail.dropLast) : item ∈ items.dropLast := by
  cases items with
  | nil => exact member
  | cons first rest =>
    cases rest with
    | nil => cases member
    | cons second others => exact List.mem_cons_of_mem first member

/-- Readers that agree on all records but the last are given the same. -/
theorem xrRead_congr (agree : ∀ uxr ∈ xrs.dropLast, accepts uxr.xid = others uxr.xid) :
    xrRead accepts xrs = xrRead others xrs :=
  congrArg (Option.map Uxr.type) (firstOrLast_congr agree)

/-- A reader that refuses the newest record is given what lies below. -/
theorem xrRead_refused {uxr : Uxr} (refused : accepts uxr.xid = false) (more : xrs ≠ []) :
    xrRead accepts (uxr :: xrs) = xrRead accepts xrs := by
  rw [xrRead, firstOrLast_cons uxr more, refused]
  rfl

/-- A reader that accepts the newest record is given it. -/
theorem xrRead_accepted {uxr : Uxr} (taken : accepts uxr.xid = true) (older : List Uxr) :
    xrRead accepts (uxr :: older) = some uxr.type := by
  rw [xrRead, firstOrLast_accepted taken]
  rfl

section

variable (step : world.Later after)
include step

/-- Whether a writer had finished before a snapshot does not change later. -/
theorem TxnWorld.Later.finishedBefore_eq (ok : world.Ok) (afterOk : after.Ok) {xid : Nat}
    (wrote : world.Wrote xid) (snapshotXid : Nat) :
    after.finishedBefore snapshotXid xid = world.finishedBefore snapshotXid xid := by
  obtain ⟨txn, done, rfl, -⟩ := wrote
  rw [afterOk.finishedBefore_finished (step.remembers done), ok.finishedBefore_finished done]

/-- A snapshot that may be read later may be read now. -/
theorem TxnWorld.Later.mayRead {snapshotXid : Nat} (mayRead : after.MayRead snapshotXid) :
    world.MayRead snapshotXid := by
  rcases mayRead with recorded | younger
  · exact step.snapshots snapshotXid recorded
  · exact Or.inr (Nat.lt_of_le_of_lt step.counted younger)

/-- A writer stays known as one. -/
theorem TxnWorld.Later.wrote {xid : Nat} (wrote : world.Wrote xid) :
    after.Wrote xid := by
  obtain ⟨txn, done, same, writes⟩ := wrote
  exact ⟨txn, step.remembers done, same, writes⟩

end

/-- A root that has finished is not writing. -/
theorem TxnWorld.Ok.finished_ne (ok : world.Ok) {xid root : Nat} {txn : FinishedTxn}
    (done : txn ∈ world.finished) (same : txn.xid = xid)
    (writing : WritingRoot (world.txns root)) : xid ≠ root := by
  rintro rfl
  exact (ok.manager.finishedBound txn done).2.2.2 (same ▸ ok.writing_live writing)

/-- Roots that wrote no version do not matter for what a snapshot should read. -/
theorem versionBefore_more {more finished : List FinishedTxn} {versions : List (Nat × Row)}
    (none : ∀ txn ∈ more, versions.lookup txn.xid = none) (snapshotXid : Nat) :
    versionBefore (more ++ finished) versions snapshotXid =
      versionBefore finished versions snapshotXid := by
  have unfound : more.find? (fun txn => txn.committed && decide (txn.lastXid < snapshotXid) &&
      (versions.lookup txn.xid).isSome) = Option.none :=
    List.find?_eq_none.mpr fun txn member found => by simp [none txn member] at found
  rw [versionBefore, versionBefore, List.find?_append, unfound, Option.none_or]

/-- A root without a version is looked up in vain. -/
theorem lookup_none {versions : List (Nat × Row)} {xid : Nat}
    (absent : ∀ version ∈ versions, version.1 ≠ xid) : versions.lookup xid = none := by
  refine List.lookup_eq_none_iff.mpr fun version member => ?_
  exact bne_iff_ne.mpr (Ne.symm (absent version member))

/-- The versions of a row belong to its writer and to roots that have finished. -/
theorem RowOk.lookup_none (rowOk : RowOk world stack row) {xid : Nat} (other : xid ≠ row.lock)
    (unfinished : ∀ txn ∈ world.finished, txn.xid ≠ xid) : row.versions.lookup xid = none := by
  refine Tokuft.lookup_none fun version member same => ?_
  rcases rowOk.versions version member with ⟨-, writer⟩ | ⟨txn, done, known⟩
  · exact other (same.symm.trans writer)
  · exact unfinished txn done (known.trans same)

/-- A root that has finished since is none of those that had finished before. -/
theorem TxnWorld.Ok.finished_apart (afterOk : after.Ok) {more finished : List FinishedTxn}
    (shape : after.finished = more ++ finished) {txn : FinishedTxn} (new : txn ∈ more) :
    ∀ other ∈ finished, other.xid ≠ txn.xid := by
  intro other old same
  have once := afterOk.manager.finishedOnce
  rw [shape, List.map_append] at once
  exact (List.nodup_append.mp once).2.2 _ (List.mem_map_of_mem new) _
    (List.mem_map_of_mem old) same.symm

section

variable (rowOk : RowOk world stack row)
include rowOk

/-- While the writer goes on, readers decide about the records of a row as they did before. -/
theorem RowOk.finishedBefore_later (ok : world.Ok) (afterOk : after.Ok) (step : world.Later after)
    (writing : row.lock ≠ txnidNone → WritingRoot (after.txns row.lock)) (snapshotXid : Nat) :
    ∀ uxr ∈ (interestingXrs row.row).dropLast,
      after.finishedBefore snapshotXid uxr.xid = world.finishedBefore snapshotXid uxr.xid := by
  intro uxr member
  rcases rowOk.named uxr member with ⟨held, same⟩ | wrote
  · rw [same, afterOk.finishedBefore_live (afterOk.writing_live (writing held)),
      ok.finishedBefore_live (ok.writing_live (rowOk.locked held))]
  · exact step.finishedBefore_eq ok afterOk wrote snapshotXid

/-- While the writer goes on, a snapshot should read what it should have read before. -/
theorem RowOk.versionBefore_later (afterOk : after.Ok) (step : world.Later after)
    (writing : row.lock ≠ txnidNone → WritingRoot (after.txns row.lock)) (snapshotXid : Nat) :
    versionBefore after.finished row.versions snapshotXid =
      versionBefore world.finished row.versions snapshotXid := by
  -- No root that finishes in between has written a version of the row.
  obtain ⟨more, shape, -⟩ := step.finished
  rw [shape]
  refine versionBefore_more (fun txn new => ?_) snapshotXid
  have done : txn ∈ after.finished := by rw [shape]; exact List.mem_append_left _ new
  refine rowOk.lookup_none ?_ (afterOk.finished_apart shape new)
  by_cases held : row.lock = txnidNone
  · rw [held]
    exact Nat.ne_of_gt (afterOk.manager.finishedBound txn done).1
  · exact afterOk.finished_ne done rfl (writing held)

/-- While the writer goes on, a row stays in order as other transactions take their steps. -/
theorem RowOk.later (ok : world.Ok) (afterOk : after.Ok) (step : world.Later after)
    (goesOn : RootGoesOn (world.txns row.lock) (after.txns row.lock)) :
    RowOk after stack row where
  scopes := rowOk.scopes
  represents := rowOk.represents
  held := rowOk.held
  rooted := rowOk.rooted
  locked held := goesOn.writing (rowOk.locked held)
  named uxr member := (rowOk.named uxr member).imp_right step.wrote
  below uxr member := step.wrote (rowOk.below uxr member)
  untouched opened bare uxr member := step.wrote (rowOk.untouched opened bare uxr member)
  unfinished := rowOk.unfinished
  ending held left := goesOn.committing (rowOk.ending held left)
  versions version member :=
    (rowOk.versions version member).imp_right fun ⟨txn, done, same⟩ =>
      ⟨txn, step.remembers done, same⟩
  reads snapshotXid mayRead := by
    have writing := fun held => goesOn.writing (rowOk.locked held)
    rw [xrRead_congr (rowOk.finishedBefore_later ok afterOk step writing snapshotXid),
      rowOk.versionBefore_later afterOk step writing]
    exact rowOk.reads snapshotXid (step.mayRead mayRead)
  own held snapshotXid mayRead := by
    have writing := fun held => goesOn.writing (rowOk.locked held)
    have decided := rowOk.finishedBefore_later ok afterOk step writing snapshotXid
    rw [rowOk.versionBefore_later afterOk step writing]
    refine (xrRead_congr fun uxr member => ?_).trans
      (rowOk.own held snapshotXid (step.mayRead mayRead))
    rw [decided uxr member]
  clones clone member :=
    have old := rowOk.clones clone member
    ⟨old.ok, old.later.trans step, old.known, old.below⟩

end

/-- The stack of a writer that wrote ends with the root, whose record readers see. -/
theorem ownXrs_touched {nest : Nest Nat Row} {lock : Nat}
    (rooted : ∀ name ∈ (nest.scopes.map Scope.name).getLast?, name = lock)
    (touched : nest.scopes.any (·.own.isSome) = true) :
    ownXrs nest = [{ type := rowRecord nest.view, xid := lock }] := by
  -- The scopes down to the first one that was written to have no record.
  obtain ⟨untouched, split, bare⟩ := touchedScopes_split nest.scopes
  have some : touchedScopes nest.scopes ≠ [] := by
    intro none
    obtain ⟨scope, member, wrote⟩ := List.any_eq_true.mp touched
    rw [split, none, List.append_nil] at member
    rw [bare scope member] at wrote
    cases wrote
  obtain ⟨root, last⟩ := Option.isSome_iff_exists.mp (List.getLast?_isSome.mpr some)
  have final : nest.scopes.getLast? = Option.some root := by
    rw [split, List.getLast?_append, last]
    rfl
  have named : root.name = lock := rooted root.name (by rw [List.getLast?_map, final]; rfl)
  rw [ownXrs, last]
  simp only [named]

/-- A writer that wrote nothing has no record. -/
theorem ownXrs_bare {nest : Nest Nat Row} (bare : nest.scopes.any (·.own.isSome) = false) :
    ownXrs nest = [] := by
  have none : touchedScopes nest.scopes = [] := by
    refine List.dropWhile_eq_nil_iff.mpr fun scope member => ?_
    have unwritten := List.any_eq_false.mp bare scope member
    simpa using unwritten
  rw [ownXrs, none]
  rfl

section

variable (rowOk : RowOk world stack row)
include rowOk

/-- What the writer shows is nothing, or one record under the lock holder's identifier. -/
theorem RowOk.ownXrs_cases :
    (row.history.nest.scopes.any (·.own.isSome) = false ∧ ownXrs row.history.nest = []) ∨
    (row.history.nest.scopes.any (·.own.isSome) = true ∧ ownXrs row.history.nest =
      [{ type := rowRecord row.history.nest.view, xid := row.lock }]) := by
  cases touched : row.history.nest.scopes.any (·.own.isSome) with
  | false => exact Or.inl ⟨rfl, ownXrs_bare touched⟩
  | true => exact Or.inr ⟨rfl, ownXrs_touched rowOk.rooted touched⟩

/-- Below what the writer shows there are only records of roots that have finished. -/
theorem RowOk.below_wrote (opened : row.history.nest.scopes ≠ []) {below : List Uxr}
    (shape : interestingXrs row.row = ownXrs row.history.nest ++ below) :
    ∀ uxr ∈ below.dropLast, world.Wrote uxr.xid := by
  -- The writer has one record or none, and all others are below it.
  rcases rowOk.ownXrs_cases with ⟨-, bare⟩ | ⟨-, own⟩
  · rw [bare, List.nil_append] at shape
    exact shape ▸ rowOk.untouched opened bare
  · have wrote := rowOk.below
    rw [shape, own] at wrote
    exact wrote

/-- What lies below the writer's record is what a reader gets that does not see the writer. -/
theorem RowOk.reads_below (ok : world.Ok) (held : row.lock ≠ txnidNone) {below : List Uxr}
    (more : below ≠ []) (shape : interestingXrs row.row = ownXrs row.history.nest ++ below)
    {snapshotXid : Nat} (mayRead : world.MayRead snapshotXid) :
    xrRead (world.finishedBefore snapshotXid) below =
      some (rowRecord (versionBefore world.finished row.versions snapshotXid)) := by
  rw [← rowOk.reads snapshotXid mayRead, shape]
  rcases rowOk.ownXrs_cases with ⟨-, bare⟩ | ⟨-, own⟩
  · rw [bare, List.nil_append]
  · -- The writer is live, so nobody sees it but itself.
    rw [own]
    exact (xrRead_refused (ok.finishedBefore_live (ok.writing_live (rowOk.locked held)) _)
      more).symm

end

/-- Records that a copy knows under the same identifiers may be judged by it. -/
theorem CloneOk.congr {clone : TxnWorld} {others : List Uxr} (cloneOk : CloneOk clone world xrs)
    (known : ∀ uxr ∈ others.dropLast, ∃ old ∈ xrs.dropLast, old.xid = uxr.xid)
    (below : ∀ uxr ∈ others.tail.dropLast, ∃ old ∈ xrs.tail.dropLast, old.xid = uxr.xid) :
    CloneOk clone world others where
  ok := cloneOk.ok
  later := cloneOk.later
  known uxr member := by
    obtain ⟨old, inside, same⟩ := known uxr member
    exact same ▸ cloneOk.known old inside
  below uxr member := by
    obtain ⟨old, inside, same⟩ := below uxr member
    exact same ▸ cloneOk.below old inside

/-- A message that changes only what the writer shows keeps the row in order. -/
theorem RowOk.sameBelow (rowOk : RowOk world stack row) (ok : world.Ok)
    (held : row.lock ≠ txnidNone) (opened : row.history.nest.scopes ≠ []) {next : Ule}
    {history : KeyHistory Key} {nextStack : List Nat} {clones : List TxnWorld}
    (namesOk : ScopesOk history) (represents : Represents history next)
    (heldNext : history.nest.scopes ≠ [] → history.nest.scopes.map Scope.name = nextStack)
    (rooted : ∀ name ∈ (history.nest.scopes.map Scope.name).getLast?, name = row.lock)
    (same : SameBelow row.history.nest row.row history.nest next)
    (copied : ∀ clone ∈ clones, CloneOk clone world (interestingXrs next)) :
    RowOk world nextStack { row with row := next, history, clones } := by
  obtain ⟨below, more, before, shape⟩ := same
  have wrote := rowOk.below_wrote opened before
  have reads := fun {snapshotXid} =>
    @RowOk.reads_below _ _ _ _ rowOk ok held _ more before snapshotXid
  have live := ok.writing_live (rowOk.locked held)
  have absent := rowOk.unfinished opened
  -- The writer shows nothing, or one record that only itself accepts.
  have shows : (history.nest.scopes.any (·.own.isSome) = false ∧ interestingXrs next = below ∧
        ownXrs history.nest = []) ∨
      (history.nest.scopes.any (·.own.isSome) = true ∧ interestingXrs next =
        { type := rowRecord history.nest.view, xid := row.lock } :: below ∧
        ownXrs history.nest ≠ []) := by
    cases touched : history.nest.scopes.any (·.own.isSome) with
    | false =>
      have bare := ownXrs_bare touched
      exact Or.inl ⟨rfl, by rw [shape, bare, List.nil_append], bare⟩
    | true =>
      have own := ownXrs_touched rooted touched
      exact Or.inr ⟨rfl, by rw [shape, own]; rfl, by rw [own]; exact List.cons_ne_nil _ _⟩
  refine ⟨namesOk, represents, heldNext, rooted, rowOk.locked, ?_, ?_, ?_, fun _ => absent,
    rowOk.ending, rowOk.versions, ?_, ?_, copied⟩
  · show ∀ uxr ∈ (interestingXrs next).dropLast, _
    rcases shows with ⟨-, bare, -⟩ | ⟨-, own, -⟩
    · rw [bare]
      exact fun uxr member => Or.inr (wrote uxr member)
    · rw [own, List.dropLast_cons_of_ne_nil more]
      exact List.forall_mem_cons.mpr
        ⟨Or.inl ⟨held, rfl⟩, fun uxr member => Or.inr (wrote uxr member)⟩
  · show ∀ uxr ∈ (interestingXrs next).tail.dropLast, _
    rcases shows with ⟨-, bare, -⟩ | ⟨-, own, -⟩
    · rw [bare]
      exact fun uxr member => wrote uxr (mem_dropLast_of_tail member)
    · rw [own]
      exact wrote
  · intro _ bare
    show ∀ uxr ∈ (interestingXrs next).dropLast, _
    rcases shows with ⟨-, same, -⟩ | ⟨-, -, some⟩
    · rw [same]
      exact wrote
    · exact absurd bare some
  · intro snapshotXid mayRead
    show xrRead _ (interestingXrs next) = _
    rcases shows with ⟨-, bare, -⟩ | ⟨-, own, -⟩
    · rw [bare]
      exact reads mayRead
    · rw [own, xrRead_refused (ok.finishedBefore_live live _) more]
      exact reads mayRead
  · intro _ snapshotXid mayRead
    show xrRead _ (interestingXrs next) = _
    rcases shows with ⟨untouched, bare, -⟩ | ⟨touched, own, -⟩
    · -- Nothing below is the writer's.
      have none : DbRow.ownWrite { row with row := next, history, clones } row.lock =
          none := by
        rw [DbRow.ownWrite, if_neg (by simp [untouched]), absent]
      rw [bare, none, Option.getD_none]
      refine (xrRead_congr fun uxr member => ?_).trans (reads mayRead)
      obtain ⟨txn, done, same, -⟩ := wrote uxr member
      rw [beq_eq_false_iff_ne.mpr (ok.finished_ne done same (rowOk.locked held)), Bool.false_or]
    · have some : DbRow.ownWrite { row with row := next, history, clones } row.lock =
          some history.nest.view := by
        rw [DbRow.ownWrite, if_pos ⟨rfl, touched⟩]
      rw [own, some, Option.getD_some]
      exact xrRead_accepted (by simp) below

end Tokuft
