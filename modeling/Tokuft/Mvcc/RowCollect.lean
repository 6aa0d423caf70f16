import Tokuft.Mvcc.RowEnds

/-! Promotion by age and garbage collection keep a row in order. -/

namespace Tokuft

variable {Key : Type} {world : TxnWorld} {stack published : List Nat} {row next : DbRow Key}
  {history : KeyHistory Key} {ule after : Ule} {cuxrs kept : List Uxr}

/-- Readers choose from what is provisional and then from what is committed. -/
theorem interestingXrs_split (ule : Ule) (cuxrs : List Uxr) :
    interestingXrs { ule with cuxrs } = interestingXrs { ule with cuxrs := [] } ++ cuxrs := by
  simp [interestingXrs]

/-- Collection leaves the oldest record, cleared or not, where it was. -/
@[simp] theorem clearBottom_dropLast (cuxrs : List Uxr) :
    (clearBottom cuxrs).dropLast = cuxrs.dropLast := by
  -- By induction on the records, of which only the oldest may change.
  induction cuxrs with
  | nil => rfl
  | cons uxr older ih =>
    cases older with
    | nil => rfl
    | cons next rest =>
      have more : clearBottom (next :: rest) ≠ [] := by cases rest <;> simp [clearBottom]
      rw [show clearBottom (uxr :: next :: rest) = uxr :: clearBottom (next :: rest) from rfl,
        List.dropLast_cons_of_ne_nil more, ih, List.dropLast_cons_cons]

/-- Clearing the oldest record does not concern the newer ones. -/
theorem clearBottom_tail_dropLast (cuxrs : List Uxr) :
    (clearBottom cuxrs).tail.dropLast = cuxrs.tail.dropLast := by
  match cuxrs with
  | [] => rfl
  | [bottom] => rfl
  | uxr :: next :: rest => exact clearBottom_dropLast (next :: rest)

/-- Something is left of something. -/
theorem clearBottom_ne_nil (more : cuxrs ≠ []) : clearBottom cuxrs ≠ [] := by
  match cuxrs with
  | [] => exact absurd rfl more
  | [bottom] => exact List.cons_ne_nil _ _
  | uxr :: next :: rest => exact List.cons_ne_nil _ _

/-- What is left of a list ends no later than the list. -/
theorem sublist_dropLast (fewer : kept.Sublist cuxrs) :
    kept.dropLast.Sublist cuxrs.dropLast := by
  have reversed := fewer.reverse.tail
  rw [List.tail_reverse, List.tail_reverse] at reversed
  exact List.reverse_sublist.mp reversed

/-- Simple collection only leaves records out. -/
theorem keepThrough_sublist (oldest : Nat) (cuxrs : List Uxr) :
    (keepThrough oldest cuxrs).Sublist cuxrs := by
  induction cuxrs with
  | nil => exact List.Sublist.refl []
  | cons uxr older ih =>
    rw [keepThrough]
    split
    · exact (List.nil_sublist older).cons_cons uxr
    · exact ih.cons_cons uxr

/-- Full collection only leaves records out. -/
theorem markNecessary_sublist {state : TxnManagerState} {skipping : Option Nat}
    (marked : markNecessary state skipping cuxrs = some kept) :
    kept.Sublist cuxrs := by
  -- By induction on the records, each of which is kept or left out.
  induction cuxrs generalizing skipping kept with
  | nil => cases marked; exact List.Sublist.refl []
  | cons uxr older ih =>
    cases older with
    | nil => cases marked; exact List.Sublist.refl _
    | cons next rest =>
      simp only [markNecessary] at marked
      split at marked
      · split at marked
        · obtain ⟨others, found, rfl⟩ := Option.map_eq_some_iff.mp marked
          exact (ih found).cons_cons uxr
        · simp only [bind_inv] at marked
          obtain ⟨-, -, marked⟩ := marked
          generalize (if getYoungestLiveListTxnidFor uxr.xid state.snapshotXids
            state.referencedXids = txnidNone then _ else _) = tl1 at marked
          split at marked
          · cases marked
            exact (List.nil_sublist _).cons_cons uxr
          · obtain ⟨others, found, rfl⟩ := Option.map_eq_some_iff.mp marked
            exact (ih found).cons_cons uxr
      · exact (ih marked).cons uxr

/-- Only what the newest committed record says matters to the open transactions. -/
theorem Represents.recommitted (rep : Represents history ule)
    (same : cuxrs.head?.map Uxr.type = ule.cuxrs.head?.map Uxr.type) :
    Represents history { ule with cuxrs } := by
  -- Of the committed records only the first is looked at.
  have top {value : Row} (before : ∃ top rest, ule.cuxrs = top :: rest ∧
      top.type = rowRecord value) :
      ∃ top rest, cuxrs = top :: rest ∧ top.type = rowRecord value := by
    obtain ⟨old, rest, shape, value⟩ := before
    rw [shape, List.head?_cons, Option.map_some] at same
    obtain ⟨new, first, alike⟩ := Option.map_eq_some_iff.mp same
    obtain ⟨others, front⟩ := List.head?_eq_some_iff.mp first
    exact ⟨new, others, front, alike.trans value⟩
  cases rep with
  | settled settled => exact .settled ⟨settled.provisional, top settled.committed⟩
  | stale untouched live dead deads shared scopes bare provisional value names outer touched
      based base apart known =>
    refine .stale untouched live dead deads shared scopes bare provisional value names outer
      touched (fun none => ?_) (fun more => top (base more)) apart known
    obtain ⟨old, rest, shape⟩ := List.exists_cons_of_ne_nil based
    simp only at none
    rw [none, shape] at same
    cases same

/-- A reader that judges the roots that have finished by a snapshot. -/
structure TxnWorld.Judges (world : TxnWorld) (accepts : Nat → Bool) (snapshotXid : Nat) :
    Prop where
  mayRead : world.MayRead snapshotXid
  judged : ∀ txn ∈ world.finished, accepts txn.xid = decide (txn.lastXid < snapshotXid)

/-- What every reader of a snapshot is given stays the same. -/
def TxnWorld.KeepsReads (world : TxnWorld) (ule after : Ule) : Prop :=
  ∀ (accepts : Nat → Bool) (snapshotXid : Nat), world.Judges accepts snapshotXid →
    xrRead accepts (interestingXrs after) = xrRead accepts (interestingXrs ule)

/-- A collected row is in order, and what its readers are given and its newest value stay. -/
structure Collected (world : TxnWorld) (stack : List Nat) (row : DbRow Key) (ule : Ule) :
    Prop where
  ok : RowOk world stack { row with row := ule }
  reads : world.KeepsReads row.row ule
  newest : ule.cuxrs.head?.map Uxr.type = row.row.cuxrs.head?.map Uxr.type

/-- Collection that finds nothing to do. -/
theorem RowOk.uncollected (rowOk : RowOk world stack row) :
    Collected world stack row row.row where
  ok := rowOk
  reads _ _ _ := rfl
  newest := rfl

/-- Records that collection leaves show every reader what it was shown before. -/
theorem RowOk.collected (rowOk : RowOk world stack row) (ok : world.Ok)
    (newest : kept.head? = row.row.cuxrs.head?) (fewer : kept.Sublist row.row.cuxrs)
    (same : ∀ (accepts : Nat → Bool) (snapshotXid : Nat), world.Judges accepts snapshotXid →
      firstOrLast (fun uxr => accepts uxr.xid) kept =
        firstOrLast (fun uxr => accepts uxr.xid) row.row.cuxrs) :
    Collected world stack row { row.row with cuxrs := clearBottom kept } := by
  have based := rowOk.represents.based
  have some : kept ≠ [] := by
    rintro rfl
    exact based (List.head?_eq_none_iff.mp newest.symm)
  have left := clearBottom_ne_nil some
  have before := interestingXrs_split row.row row.row.cuxrs
  have now := interestingXrs_split row.row (clearBottom kept)
  generalize interestingXrs { row.row with cuxrs := [] } = front at before now
  have known : ∀ uxr ∈ (front ++ clearBottom kept).dropLast,
      uxr ∈ (interestingXrs row.row).dropLast := by
    intro uxr member
    rw [List.dropLast_append_of_ne_nil left, clearBottom_dropLast] at member
    rw [before, List.dropLast_append_of_ne_nil based]
    exact List.mem_append.mpr ((List.mem_append.mp member).imp_right
      fun rest => (sublist_dropLast fewer).subset rest)
  have below : ∀ uxr ∈ (front ++ clearBottom kept).tail.dropLast,
      uxr ∈ (interestingXrs row.row).tail.dropLast := by
    rw [before]
    cases front with
    | nil =>
      rw [List.nil_append, List.nil_append, clearBottom_tail_dropLast]
      exact (sublist_dropLast fewer.tail).subset
    | cons own others =>
      intro uxr member
      rw [List.cons_append, List.tail_cons, List.dropLast_append_of_ne_nil left,
        clearBottom_dropLast] at member
      rw [List.cons_append, List.tail_cons, List.dropLast_append_of_ne_nil based]
      exact List.mem_append.mpr ((List.mem_append.mp member).imp_right
        fun rest => (sublist_dropLast fewer).subset rest)
  have reads : world.KeepsReads row.row { row.row with cuxrs := clearBottom kept } := by
    intro accepts snapshotXid judges
    rw [before, now]
    refine firstOrLast_append_congr left based ?_
    rw [← same accepts snapshotXid judges]
    exact xrRead_clearBottom kept
  have judged (snapshotXid : Nat) : ∀ txn ∈ world.finished,
      world.finishedBefore snapshotXid txn.xid = decide (txn.lastXid < snapshotXid) :=
    fun txn done => ok.finishedBefore_finished done snapshotXid
  refine ⟨⟨rowOk.scopes, rowOk.represents.recommitted (clearBottom_head newest), rowOk.held,
    rowOk.rooted, rowOk.locked, ?_, ?_, ?_, rowOk.unfinished, rowOk.ending, rowOk.versions,
    ?_, ?_, ?_⟩, reads, clearBottom_head newest⟩
  · rw [now]
    exact fun uxr member => rowOk.named uxr (known uxr member)
  · rw [now]
    exact fun uxr member => rowOk.below uxr (below uxr member)
  · intro opened bare
    rw [now]
    exact fun uxr member => rowOk.untouched opened bare uxr (known uxr member)
  · intro snapshotXid mayRead
    rw [reads _ snapshotXid ⟨mayRead, judged snapshotXid⟩]
    exact rowOk.reads snapshotXid mayRead
  · intro held snapshotXid mayRead
    rw [reads _ snapshotXid ⟨mayRead, fun txn done => ?_⟩]
    · exact rowOk.own held snapshotXid mayRead
    · -- The writer has not finished.
      have apart := ok.finished_ne done rfl (rowOk.locked held)
      rw [beq_eq_false_iff_ne.mpr apart, Bool.false_or, judged snapshotXid txn done]
  · intro clone member
    rw [now]
    exact (rowOk.clones clone member).congr (fun uxr member => ⟨uxr, known uxr member, rfl⟩)
      fun uxr member => ⟨uxr, below uxr member, rfl⟩

/-- What is committed is among what readers choose from. -/
theorem mem_interestingXrs_of_committed (based : ule.cuxrs ≠ []) :
    (∀ uxr ∈ ule.cuxrs.dropLast, uxr ∈ (interestingXrs ule).dropLast) ∧
      ∀ uxr ∈ ule.cuxrs.tail.dropLast, uxr ∈ (interestingXrs ule).tail.dropLast := by
  -- The committed records come behind the one for all provisional ones.
  have split := interestingXrs_split ule ule.cuxrs
  generalize interestingXrs { ule with cuxrs := [] } = front at split
  rw [split]
  cases front with
  | nil => exact ⟨fun _ member => member, fun _ member => member⟩
  | cons own others =>
    rw [List.cons_append, List.tail_cons, List.dropLast_cons_of_ne_nil (by simp [based]),
      List.dropLast_append_of_ne_nil based]
    exact ⟨fun uxr member => List.mem_cons_of_mem own (List.mem_append_right others member),
      fun uxr member => List.mem_append_right others (mem_dropLast_of_tail member)⟩

section

variable (rowOk : RowOk world stack row) (ok : world.Ok)
include rowOk ok

/-- A bound that was published hides no record that a reader needs. -/
theorem RowOk.keepThrough_reads {estimate : Nat} (estimates : world.Estimates estimate)
    {accepts : Nat → Bool} {snapshotXid : Nat} (judges : world.Judges accepts snapshotXid) :
    firstOrLast (fun uxr => accepts uxr.xid) (keepThrough estimate row.row.cuxrs) =
      firstOrLast (fun uxr => accepts uxr.xid) row.row.cuxrs := by
  refine Tokuft.keepThrough_reads fun uxr member early => ?_
  have inside := (mem_interestingXrs_of_committed rowOk.represents.based).1 uxr member
  rcases rowOk.named uxr inside with ⟨held, same⟩ | ⟨txn, done, same, wrote⟩
  · -- The writer is live, so the bound is not above it.
    have low := estimates.live row.lock (ok.writing_live (rowOk.locked held))
    omega
  · rw [← same, judges.judged txn done, decide_eq_true_eq]
    rcases judges.mayRead with recorded | younger
    · exact estimates.seen txn done wrote (same ▸ early) snapshotXid recorded
    · exact Nat.lt_of_le_of_lt (ok.manager.finishedBound txn done).2.2.1 younger

/-- Simple collection by a published bound keeps a row in order. -/
theorem RowOk.simpleGc {gcInfo : TxnGcInfo} (needed : gcInfo.mvccNeeded = true)
    (estimates : world.Estimates gcInfo.oldestReferencedXidForSimpleGc) :
    Collected world stack row (uleSimpleGarbageCollection row.row gcInfo) := by
  -- A record is dropped when a newer one is below the bound, which every reader accepts.
  have keeps : keptBySimpleGc gcInfo row.row.cuxrs =
      keepThrough gcInfo.oldestReferencedXidForSimpleGc row.row.cuxrs := if_pos needed
  unfold uleSimpleGarbageCollection
  rw [keeps]
  split
  · exact rowOk.uncollected
  · split
    · exact rowOk.uncollected
    · exact rowOk.collected ok (keepThrough_head _ _) (keepThrough_sublist _ _)
        fun accepts snapshotXid judges => rowOk.keepThrough_reads ok estimates judges

/-- Full collection by a copy that was taken since the last write keeps a row in order. -/
theorem RowOk.fullGc {clone : TxnWorld} (copied : clone ∈ row.clones)
    (collected : uleGarbageCollect row.row clone.mgr.cloneStateForGc = some ule) :
    Collected world stack row ule := by
  -- No root has written since the copy, so that it knows all writers of the records.
  unfold uleGarbageCollect at collected
  split at collected
  · cases collected
    exact rowOk.uncollected
  · simp only [bind_inv] at collected
    obtain ⟨kept, marked, -, -, rfl⟩ := collected
    have cloneOk := rowOk.clones clone copied
    have inside := mem_interestingXrs_of_committed rowOk.represents.based
    refine rowOk.collected ok (markNecessary_head marked) (markNecessary_sublist marked)
      fun accepts snapshotXid judges => ?_
    exact cloneOk.ok.markNecessary_reads (cloneOk.later.mayRead judges.mayRead)
      rowOk.represents.based marked
      (fun uxr member txn done same => same ▸ judges.judged txn (cloneOk.later.remembers done))
      (fun uxr member => cloneOk.known uxr (inside.1 uxr member))
      (fun uxr member => cloneOk.below uxr (inside.2 uxr member))
      fun _ absent => by cases absent

/-- Collection, of either kind, keeps a row in order. -/
theorem RowOk.collect (estimates : ∀ estimate ∈ published, world.Estimates estimate)
    {collection : Collection} (collected : row.collect published collection = some ule) :
    Collected world stack row ule := by
  -- One case for each kind of collection.
  cases collection with
  | simple gcInfo =>
    simp only [DbRow.collect, bind_inv, invariant_eq_some] at collected
    obtain ⟨-, ⟨needed, member⟩, rfl⟩ := collected
    exact rowOk.simpleGc ok needed (estimates _ member)
  | full clone =>
    simp only [DbRow.collect, bind_inv] at collected
    obtain ⟨copied, found, collected⟩ := collected
    exact rowOk.fullGc ok (List.mem_of_getElem? found) collected

end

/-- Promotion by age makes nothing committed that an open transaction wrote. -/
theorem Represents.promotedByAge (rep : Represents history ule) {oldest : Nat}
    (young : ∀ name ∈ (history.nest.scopes.map Scope.name).getLast?, oldest ≤ name)
    (promoted : uleTryPromoteProvisionalOutermost ule oldest = some after) :
    Represents history after := by
  unfold uleTryPromoteProvisionalOutermost at promoted
  split at promoted
  · cases promoted
    exact rep
  · rename_i outermost found
    split at promoted
    case isFalse => cases promoted; exact rep
    rename_i old
    have last : ule.puxrs.getLast? = some outermost := found
    -- The outermost record is too old to be that of an open root.
    have closed {live : List (Scope Nat Row)} (more : live ≠ [])
        (same : ule.puxrs.getLast?.map Uxr.xid = live.getLast?.map Scope.name)
        (ends : history.nest.scopes.getLast? = live.getLast?) : False := by
      obtain ⟨root, final⟩ := Option.isSome_iff_exists.mp (List.getLast?_isSome.mpr more)
      rw [last, final] at same
      have bound := young root.name (by rw [List.getLast?_map, ends, final]; rfl)
      have named : outermost.xid = root.name := Option.some.inj same
      omega
    cases rep with
    | settled settled =>
      exfalso
      obtain ⟨untouched, split, -⟩ := touchedScopes_split history.nest.scopes
      have more : touchedScopes history.nest.scopes ≠ [] := by
        intro none
        rw [settled.provisional, none] at last
        cases last
      refine closed more ?_ ?_
      · rw [settled.provisional, ← List.getLast?_map, map_xid_scopeUxr, List.getLast?_map]
      · conv_lhs => rw [split]
        exact List.getLast?_append_of_ne_nil _ more
    | stale untouched live dead deads shared scopes bare provisional value names outer touched
        based base apart known =>
      by_cases more : live = []
      · -- Only transactions that committed silently are promoted.
        subst more
        have none : shared = [] := by simpa using names
        subst none
        have solid : dead.type ≠ .placeholder := by rw [value]; exact rowRecord_solid _
        rcases ule with ⟨puxrs, cuxrs⟩
        simp only [List.append_nil] at provisional
        subst provisional
        rw [ulePromoteProvisionalInnermostToCommitted_eq based solid] at promoted
        cases promoted
        have untouched : touchedScopes history.nest.scopes = [] := by
          rw [scopes, List.append_nil]
          exact List.dropWhile_eq_nil_iff.mpr fun scope member => by simp [bare scope member]
        exact .settled ⟨by rw [untouched]; rfl, ⟨_, _, rfl, value⟩⟩
      · exfalso
        have some : shared ≠ [] := by
          rintro rfl
          exact more (List.map_eq_nil_iff.mp names.symm)
        refine closed more ?_ ?_
        · rw [provisional, List.getLast?_append_of_ne_nil _ some, ← List.getLast?_map, names,
            List.getLast?_map]
        · rw [scopes, List.getLast?_append_of_ne_nil _ more]

/-- Promotion by a bound no higher than a published one keeps a row in order. -/
theorem RowOk.promote (rowOk : RowOk world stack row) (ok : world.Ok) {estimate oldest : Nat}
    (estimates : world.Estimates estimate) (low : oldest ≤ estimate)
    (promoted : uleTryPromoteProvisionalOutermost row.row oldest = some ule) :
    RowOk world stack { row with row := ule } := by
  -- The writer has not ended, so that the bound is not above it.
  have same := uleTryPromoteProvisionalOutermost_interesting promoted
  have young : ∀ name ∈ (row.history.nest.scopes.map Scope.name).getLast?, oldest ≤ name := by
    intro name last
    have opened : row.history.nest.scopes ≠ [] := by
      intro none
      rw [none] at last
      cases last
    rw [rowOk.rooted name last]
    have live := ok.writing_live (rowOk.locked (rowOk.lock_ne opened))
    exact Nat.le_trans low (estimates.live row.lock live)
  exact ⟨rowOk.scopes, rowOk.represents.promotedByAge young promoted, rowOk.held, rowOk.rooted,
    rowOk.locked, same ▸ rowOk.named, same ▸ rowOk.below, same ▸ rowOk.untouched,
    rowOk.unfinished, rowOk.ending, rowOk.versions, same ▸ rowOk.reads, same ▸ rowOk.own,
    same ▸ rowOk.clones⟩

end Tokuft
