import Tokuft.Mvcc.RowCollect

/-! What a transaction with a snapshot reads, after any run of a database and any collections. -/

namespace Tokuft

variable {Key : Type} {world : TxnWorld} {stack : List Nat} {row next : DbRow Key} {key : Key}
  {root : Nat} {reader : TokuTxn}

section

variable {f : LeIterateCallback} {accepts : Nat → Bool}

/-- A reader that is told about every record but the last finds the one that it is given. -/
theorem leIterateGetAcceptedIndex_eq {xrs : List Uxr} (some : xrs ≠ [])
    (told : ∀ uxr ∈ xrs.dropLast, ∀ provisional,
      f uxr.xid provisional = Option.some (accepts uxr.xid))
    (topIsProvisional : Bool) :
    ∃ index, leIterateGetAcceptedIndex f topIsProvisional (xrs.map Uxr.xid) = Option.some index ∧
      xrs[index]? = firstOrLast (fun uxr => accepts uxr.xid) xrs := by
  -- By induction on the records: the last one is taken without asking.
  induction xrs generalizing topIsProvisional with
  | nil => exact absurd rfl some
  | cons uxr older ih =>
    cases older with
    | nil => exact ⟨0, rfl, rfl⟩
    | cons next rest =>
      simp only [List.dropLast_cons_cons, List.forall_mem_cons] at told
      have more : next :: rest ≠ [] := List.cons_ne_nil next rest
      rw [firstOrLast_cons uxr more]
      simp only [List.map_cons, leIterateGetAcceptedIndex, told.1, bind_runs]
      cases taken : accepts uxr.xid with
      | true => exact ⟨0, rfl, rfl⟩
      | false =>
        obtain ⟨index, found, given⟩ := ih more told.2 false
        refine ⟨index + 1, ?_, given⟩
        simp only [List.map_cons] at found
        rw [if_neg Bool.false_ne_true, found]
        rfl

/-- Iterating over the records of a row reads the first that the reader accepts. -/
theorem leIterateXr_eq {ule : Ule} (based : ule.cuxrs ≠ [])
    (told : ∀ uxr ∈ (interestingXrs ule).dropLast, ∀ provisional,
      f uxr.xid provisional = some (accepts uxr.xid)) :
    leIterateXr f ule = xrRead accepts (interestingXrs ule) := by
  have more : interestingXrs ule ≠ [] := by
    rw [interestingXrs]
    exact List.append_ne_nil_of_right_ne_nil _ based
  obtain ⟨index, found, given⟩ := leIterateGetAcceptedIndex_eq more told (0 < ule.numPuxrs)
  simp only [leIterateXr, found, bind_runs, given]
  exact Option.map_eq_bind.symm

end

/-- What holds of a database after every run. -/
structure Db.Ok (db : Db Key) : Prop where
  txns : db.txns.Ok
  shares : db.txns.Shares
  calculated : db.txns.mgr.lastCalculatedOldestReferencedXid ∈ db.published
  estimates : ∀ estimate ∈ db.published, db.txns.Estimates estimate
  rows : ∀ key, RowOk db.txns (db.txns.stack (db.rows key).lock) (db.rows key)

/-- A row that was never written is in order. -/
theorem RowOk.init : RowOk TxnWorld.init stack (DbRow.init : DbRow Key) where
  scopes := InStep.init.scopes
  represents := .settled ⟨rfl, _, _, rfl, rfl⟩
  held opened := absurd rfl opened
  rooted _ last := nomatch last
  locked held := absurd rfl held
  named := List.forall_mem_nil _
  below := List.forall_mem_nil _
  untouched _ _ := List.forall_mem_nil _
  unfinished opened := absurd rfl opened
  ending held := absurd rfl held
  versions := List.forall_mem_nil _
  reads _ _ := rfl
  own held := absurd rfl held
  clones := List.forall_mem_singleton.mpr
    ⟨.init, .refl _, List.forall_mem_nil _, List.forall_mem_nil _⟩

/-- Before anything happens the database is in order. -/
theorem Db.Ok.init : (Db.init : Db Key).Ok where
  txns := .init
  shares _ _ member := nomatch member
  calculated := List.mem_singleton_self _
  estimates := List.forall_mem_singleton.mpr
    ⟨Nat.le_refl _, List.forall_mem_nil _, List.forall_mem_nil _⟩
  rows _ := .init

/-- A copy of the manager's state that is taken now may be used on the row. -/
theorem RowOk.withClone (rowOk : RowOk world stack row) (ok : world.Ok) :
    RowOk world stack { row with clones := world :: row.clones } :=
  { rowOk with clones := List.forall_mem_cons.mpr ⟨rowOk.cloneNow ok, rowOk.clones⟩ }

section Steps

variable [DecidableEq Key] {db after : Db Key}

section

variable (ok : db.Ok) {event : DbEvent Key}
include ok

/-- Whatever happens, the transactions stay in order and only grow older. -/
theorem Db.Ok.txnsStep (step : db.Step event after) :
    after.txns.Ok ∧ after.txns.Shares ∧
      ∀ estimate ∈ after.published, after.txns.Estimates estimate := by
  -- Only some events are events of transactions, and others leave them alone.
  have taken := step.txns
  rw [step.published]
  cases kind : event.txnEvent with
  | none =>
    rw [kind] at taken
    have same : db.txns = after.txns := Option.some.inj taken
    rw [← same]
    exact ⟨ok.txns, ok.shares, List.forall_mem_cons.mpr
      ⟨ok.estimates _ ok.calculated, ok.estimates⟩⟩
  | some txnEvent =>
    rw [kind] at taken
    exact ⟨ok.txns.step taken, ok.shares.step ok.txns taken,
      ok.txns.next_estimates taken ok.calculated ok.estimates⟩

/-- Whatever happens, a row stays in order. -/
theorem Db.Ok.rowStep (taken : event.txnEvent.elim (some db.txns) db.txns.next = some world)
    (acted : (db.rows key).next key db.txns db.published event = some next) :
    RowOk world (world.stack next.lock) next := by
  -- One case for each event, by the law of what it does to a row.
  have rowOk := ok.rows key
  cases event with
  | txn event => exact rowOk.afterTxn ok.txns taken acted
  | abortChild root msns => exact rowOk.completeChild ok.txns taken (fun _ => .abort _) rfl acted
  | write root target msn write =>
    cases taken
    simp only [DbRow.next] at acted
    split at acted
    · obtain ⟨nextOk, lock⟩ := rowOk.write ok.txns acted
      exact lock ▸ nextOk
    · cases acted
      exact rowOk
  | finishRow root target msns =>
    cases taken
    simp only [DbRow.next] at acted
    split at acted
    · unfold DbRow.finishRow at acted
      split at acted
      case h_2 => cases acted
      rename_i txn found
      simp only [bind_inv, invariant_eq_some] at acted
      obtain ⟨-, holds, finished⟩ := acted
      have held := (DbRow.heldBy_iff.mp holds).1
      obtain ⟨nextOk, lock, -⟩ := (held ▸ rowOk).finish ok.txns holds found finished
      exact lock ▸ nextOk
    · cases acted
      exact rowOk
  | promote target oldest =>
    cases taken
    simp only [DbRow.next] at acted
    split at acted
    · simp only [bind_inv, invariant_eq_some] at acted
      obtain ⟨-, ⟨estimate, member, low⟩, promoted, promotes, rfl⟩ := acted
      exact rowOk.promote ok.txns (ok.estimates estimate member) low promotes
    · cases acted
      exact rowOk
  | collect target collection =>
    cases taken
    simp only [DbRow.next] at acted
    split at acted
    · simp only [bind_inv] at acted
      obtain ⟨collected, collects, rfl⟩ := acted
      exact (rowOk.collect ok.txns ok.estimates collects).ok
    · cases acted
      exact rowOk

/-- One step keeps a database in order. -/
theorem Db.Ok.step (step : db.Step event after) :
    after.Ok := by
  obtain ⟨txns, shares, estimates⟩ := ok.txnsStep step
  refine ⟨txns, shares, by rw [step.published]; exact List.mem_cons_self, estimates,
    fun key => ?_⟩
  obtain ⟨next, acted, reached⟩ := Option.map_eq_some_iff.mp (step.rows key)
  rw [← reached]
  exact (ok.rowStep step.txns acted).withClone txns

end

/-- Every database that a run leads to is in order. -/
theorem Db.Reaches.ok {events : List (DbEvent Key)} (run : Db.Reaches events db) : db.Ok :=
  Runs.invariant run .init fun ok step => ok.step step

end Steps

/-- A reader of a snapshot judges the roots that have finished by its snapshot. -/
theorem TxnWorld.Ok.reader_judges (ok : world.Ok) (shares : world.Shares)
    (opened : reader ∈ world.txns root) (reads : reader.readsSnapshot = true) :
    world.Judges (fun xid => xid == root || world.finishedBefore reader.snapshotTxnid64 xid)
      reader.snapshotTxnid64 where
  mayRead := by
    -- The root of the reader itself has not finished.
    obtain ⟨snapshot, member, stamp, -⟩ := ok.snapshotOf shares opened reads
    exact Or.inl (stamp ▸ List.mem_map_of_mem member)
  judged txn done := by
    have apart : txn.xid ≠ root := by
      rintro rfl
      rw [ok.closed txn done] at opened
      cases opened
    rw [beq_eq_false_iff_ne.mpr apart, Bool.false_or, ok.finishedBefore_finished done]

/-- A transaction with a snapshot is given its own value, or that of its snapshot. -/
theorem RowOk.snapshotRead (rowOk : RowOk world stack row) (ok : world.Ok)
    (shares : world.Shares) (opened : reader ∈ world.txns root)
    (reads : reader.readsSnapshot = true) :
    leReadXr false row.row .snapshot reader =
      some (rowRecord ((row.ownWrite root).getD
        (versionBefore world.finished row.versions reader.snapshotTxnid64))) := by
  have judges := ok.reader_judges shares opened reads
  have known : ∀ uxr ∈ (interestingXrs row.row).dropLast, world.Known uxr.xid := by
    intro uxr member
    rcases rowOk.named uxr member with ⟨held, same⟩ | ⟨txn, done, same, -⟩
    · exact Or.inr (Or.inl (same ▸ ok.writing_live (rowOk.locked held)))
    · exact Or.inr (Or.inr ⟨txn, done, same⟩)
  have given : leReadXr false row.row .snapshot reader =
      xrRead (fun xid => xid == root || world.finishedBefore reader.snapshotTxnid64 xid)
        (interestingXrs row.row) :=
    leIterateXr_eq rowOk.represents.based fun uxr member _ =>
      ok.reads_eq shares opened reads (known uxr member)
  rw [given]
  by_cases lock : row.lock = root
  · have some : world.txns root ≠ [] := List.ne_nil_of_mem opened
    have held : row.lock ≠ txnidNone := by
      rw [lock]
      exact Nat.ne_of_gt (ok.rootBound root some).1
    rw [← lock]
    exact rowOk.own held _ judges.mayRead
  · -- The reader has written nothing here, and no record is its own.
    have apart : ∀ txn ∈ world.finished, txn.xid ≠ root := by
      rintro txn done rfl
      rw [ok.closed txn done] at opened
      cases opened
    have none : row.ownWrite root = none := by
      rw [DbRow.ownWrite, if_neg fun both => lock both.1]
      exact rowOk.lookup_none (Ne.symm lock) apart
    rw [none, Option.getD_none, ← rowOk.reads _ judges.mayRead]
    refine xrRead_congr fun uxr member => ?_
    have other : uxr.xid ≠ root := by
      rcases rowOk.named uxr member with ⟨-, same⟩ | ⟨txn, done, same, -⟩
      · exact same ▸ lock
      · exact same ▸ apart txn done
    rw [beq_eq_false_iff_ne.mpr other, Bool.false_or]

variable [DecidableEq Key]

/-- A transaction reads its own latest write, or else what its snapshot holds. -/
theorem snapshotIsolation {events : List (DbEvent Key)} {db : Db Key}
    (run : Db.Reaches events db) {root : Nat} {reader : TokuTxn}
    (opened : reader ∈ db.txns.txns root) (reads : reader.readsSnapshot = true) (key : Key) :
    leExtractVal false (db.rows key).row .snapshot reader =
        some (db.shouldRead key root reader.snapshotTxnid64) ∧
      leValIsDel false (db.rows key).row .snapshot reader =
        some (db.shouldRead key root reader.snapshotTxnid64).isNone := by
  have ok := run.ok
  have given := (ok.rows key).snapshotRead ok.txns ok.shares opened reads
  rw [leExtractVal, leValIsDel, given]
  show _ = some (((db.rows key).ownWrite root).getD _) ∧
    _ = some (((db.rows key).ownWrite root).getD _).isNone
  generalize ((db.rows key).ownWrite root).getD _ = value
  cases value <;> exact ⟨rfl, rfl⟩

/-- A step of a database that has one row. -/
def Db.nextOneRow (db : Db Unit) (event : DbEvent Unit) : Option (Db Unit) := do
  let txns ← event.txnEvent.elim (some db.txns) db.txns.next
  let row ← (db.rows ()).next () db.txns db.published event
  pure { txns
         published := txns.mgr.lastCalculatedOldestReferencedXid :: db.published
         rows := fun _ => { row with clones := txns :: row.clones } }

/-- The runs of a database that has one row. -/
theorem Db.reachesOneRow {events : List (DbEvent Unit)} {db : Db Unit}
    (folded : events.foldlM Db.nextOneRow .init = some db) : Db.Reaches events db := by
  refine (Runs.of_foldlM folded).mono fun {before after event} taken => ?_
  simp only [Db.nextOneRow, bind_inv] at taken
  obtain ⟨txns, stepped, row, acted, rfl⟩ := taken
  exact ⟨stepped, rfl, fun key => by rw [acted]; rfl⟩

/-- A reader keeps reading what was committed before it, and a writer reads its own value. -/
theorem snapshotIsolation_overwritten :
    ∃ (db : Db Unit) (reader writer : TokuTxn), reader ∈ db.txns.txns 2 ∧
      writer ∈ db.txns.txns 4 ∧
      leExtractVal false (db.rows ()).row .snapshot reader = some (some [7]) ∧
      leExtractVal false (db.rows ()).row .snapshot writer = some (some [9]) := by
  have run := @Db.reachesOneRow [.txn (.beginRoot .none false), .txn (.logBegin 1),
    .write 1 () 1 (.insert [7]), .txn (.noteCommit 1), .txn (.completeRoot 1),
    .txn (.beginRoot .root true), .txn (.beginRoot .root false), .txn (.logBegin 4),
    .write 4 () 2 (.insert [9])] _ rfl
  exact ⟨_, _, _, List.mem_cons_self, List.mem_cons_self,
    (@snapshotIsolation _ _ _ _ run 2 _ List.mem_cons_self rfl ()).1.trans rfl,
    (@snapshotIsolation _ _ _ _ run 4 _ List.mem_cons_self rfl ()).1.trans rfl⟩

variable {later : TxnWorld} {published : List Nat} {ule : Ule}

/-- Which collections a row allows: by a published bound, or by a copy since its last write. -/
def DbRow.Allows (row : DbRow Key) (published : List Nat) : Collection → Prop
  | .simple gcInfo =>
    gcInfo.mvccNeeded = true ∧ gcInfo.oldestReferencedXidForSimpleGc ∈ published
  | .full clone => clone < row.clones.length

/-- Collect the garbage of a row several times. -/
def DbRow.collectAll (row : DbRow Key) (published : List Nat) (collections : List Collection) :
    Option (DbRow Key) :=
  collections.foldlM (fun row collection =>
    (row.collect published collection).map fun ule => { row with row := ule }) row

omit [DecidableEq Key] in
/-- A collection that a row allows passes all checks. -/
theorem RowOk.collect_exists (rowOk : RowOk world stack row) (ok : world.Ok)
    {collection : Collection} (allowed : row.Allows published collection) :
    ∃ ule, row.collect published collection = some ule := by
  cases collection with
  | simple gcInfo =>
    have both : gcInfo.mvccNeeded = true ∧
      gcInfo.oldestReferencedXidForSimpleGc ∈ published := allowed
    exact ⟨_, by rw [DbRow.collect, invariant_of both]; rfl⟩
  | full clone =>
    obtain ⟨copied, found⟩ : ∃ copied, row.clones[clone]? = some copied :=
      ⟨_, List.getElem?_eq_getElem allowed⟩
    simp only [DbRow.collect, found, bind_runs, uleGarbageCollect]
    split
    · exact ⟨row.row, rfl⟩
    · -- Every record but the last names a root.
      have inside := (mem_interestingXrs_of_committed rowOk.represents.based).1
      have named : ∀ uxr ∈ row.row.cuxrs.dropLast, 0 < uxr.xid := by
        intro uxr member
        rcases rowOk.named uxr (inside uxr member) with ⟨held, same⟩ | ⟨txn, done, same, -⟩
        · exact same ▸ Nat.pos_of_ne_zero held
        · exact same ▸ (ok.manager.finishedBound txn done).1
      obtain ⟨kept, marked⟩ := @markNecessary_exists _ copied.mgr.cloneStateForGc none named
      have first := markNecessary_head marked
      have some : 1 ≤ kept.length := by
        refine List.length_pos_iff.mpr fun none => ?_
        rw [none] at first
        exact rowOk.represents.based (List.head?_eq_none_iff.mp first.symm)
      exact ⟨_, by rw [marked, Option.bind_some, invariant_of some]; rfl⟩

omit [DecidableEq Key] in
/-- Collecting several times keeps what readers are given as well. -/
theorem RowOk.collectAll (rowOk : RowOk world stack row) (ok : world.Ok)
    (estimates : ∀ estimate ∈ published, world.Estimates estimate)
    {collections : List Collection}
    (allowed : ∀ collection ∈ collections, row.Allows published collection) :
    ∃ ule, row.collectAll published collections = some { row with row := ule } ∧
      Collected world stack row ule := by
  -- By induction on the collections, each of which keeps what the next one needs.
  induction collections generalizing row with
  | nil => exact ⟨row.row, rfl, rowOk.uncollected⟩
  | cons collection others ih =>
    obtain ⟨first, rest⟩ := List.forall_mem_cons.mp allowed
    obtain ⟨ule, collects⟩ := rowOk.collect_exists ok first
    have once := rowOk.collect ok estimates collects
    obtain ⟨last, folded, again⟩ := ih once.ok fun other member => by
      have before := rest other member
      cases other <;> exact before
    refine ⟨last, ?_, again.ok, fun accepts snapshotXid judges => ?_,
      again.newest.trans once.newest⟩
    · rw [DbRow.collectAll, List.foldlM_cons, collects]
      exact folded
    · exact (again.reads accepts snapshotXid judges).trans (once.reads accepts snapshotXid judges)

/-- A run of the transactions keeps their snapshots shared. -/
theorem TxnWorld.Ok.run_shares (ok : world.Ok) (shares : world.Shares) {events : List TxnEvent}
    (run : Runs (fun before event after => before.next event = some after) world events later) :
    later.Ok ∧ world.Later later ∧ later.Shares := by
  let inOrder (later : TxnWorld) : Prop := later.Ok ∧ world.Later later ∧ later.Shares
  refine @Runs.invariant _ _ _ _ inOrder _ _ run ⟨ok, .refl world, shares⟩ ?_
  rintro before event after ⟨ok, since, shares⟩ taken
  exact ⟨ok.step taken, since.trans (ok.next_later taken), shares.step ok taken⟩

/-- A reader that opens later judges the roots that have finished by now by its snapshot. -/
theorem TxnWorld.Later.reader_judges (since : world.Later later)
    (laterOk : later.Ok) (shares : later.Shares) (opened : reader ∈ later.txns root)
    (reads : reader.readsSnapshot = true) :
    world.Judges (fun xid => (tokuTxnReadsTxnid false xid reader).getD false)
      reader.snapshotTxnid64 where
  mayRead := since.mayRead (laterOk.reader_judges shares opened reads).mayRead
  judged txn done := by
    -- Such a root has finished in the reader's world as well.
    have known : later.Known txn.xid := Or.inr (Or.inr ⟨txn, since.remembers done, rfl⟩)
    rw [laterOk.reads_eq shares opened reads known, Option.getD_some]
    exact (laterOk.reader_judges shares opened reads).judged txn (since.remembers done)

/-- A reader of a snapshot is told about every record. -/
theorem TxnWorld.Shares.leReadXr_eq (shares : world.Shares) (opened : reader ∈ world.txns root)
    (reads : reader.readsSnapshot = true) (based : ule.cuxrs ≠ []) :
    leReadXr false ule .snapshot reader =
      xrRead (fun xid => (tokuTxnReadsTxnid false xid reader).getD false) (interestingXrs ule) := by
  -- A reader of a snapshot has a list of live roots, so that it can judge each of them.
  obtain ⟨list, copied⟩ := Option.isSome_iff_exists.mp ((shares root) reader opened reads).1
  refine leIterateXr_eq based fun uxr _ _ => ?_
  have told : (tokuTxnReadsTxnid false uxr.xid reader).isSome := by
    simp only [tokuTxnReadsTxnid, copied, Bool.false_eq_true, if_false, bind_runs]
    split
    · rfl
    · split
      · rfl
      · split <;> rfl
  obtain ⟨answer, told⟩ := Option.isSome_iff_exists.mp told
  rw [leIterateReadSnapshotCallback, told, Option.getD_some]

/--
Garbage collection never changes what a snapshot reads.

Any collections that are allowed now succeed and keep the newest committed record.
Every reader of a snapshot that exists now or is created later is given the same record.
-/
theorem collections_keepReads {events : List (DbEvent Key)} {db : Db Key}
    (run : Db.Reaches events db) (key : Key) {collections : List Collection}
    (allowed : ∀ collection ∈ collections, (db.rows key).Allows db.published collection) :
    ∃ next, (db.rows key).collectAll db.published collections = some next ∧
      next.row.cuxrs.head?.map Uxr.type = (db.rows key).row.cuxrs.head?.map Uxr.type ∧
      ∀ (more : List TxnEvent) (later : TxnWorld),
        Runs (fun before event after => before.next event = some after) db.txns more later →
        ∀ root, ∀ reader ∈ later.txns root, reader.readsSnapshot = true →
          ∃ xr, leReadXr false (db.rows key).row .snapshot reader = some xr ∧
            leReadXr false next.row .snapshot reader = some xr := by
  -- What holds after any run is enough for collections now and for readers later.
  have ok := run.ok
  have rowOk := ok.rows key
  obtain ⟨ule, folded, collected⟩ := rowOk.collectAll ok.txns ok.estimates allowed
  refine ⟨_, folded, collected.newest, fun more later runs root reader opened reads => ?_⟩
  obtain ⟨laterOk, since, shares⟩ := ok.txns.run_shares ok.shares runs
  have judges := since.reader_judges laterOk shares opened reads
  have based := rowOk.represents.based
  have some : interestingXrs (db.rows key).row ≠ [] := by
    rw [interestingXrs]
    exact List.append_ne_nil_of_right_ne_nil _ based
  obtain ⟨uxr, -, given⟩ := @firstOrLast_exists _
    (fun uxr => (tokuTxnReadsTxnid false uxr.xid reader).getD false) _ some
  refine ⟨uxr.type, ?_, ?_⟩
  · rw [shares.leReadXr_eq opened reads based, xrRead, given]
    rfl
  · rw [shares.leReadXr_eq opened reads collected.ok.represents.based,
      collected.reads _ _ judges, xrRead, given]
    rfl

/-- Full collection drops the record that the only snapshot cannot read, and keeps what it reads. -/
theorem collections_keepReads_overwritten :
    ∃ (db : Db Unit) (reader : TokuTxn) (next : DbRow Unit),
      (db.rows ()).row.cuxrs.map Uxr.type = [.insert [9], .insert [8], .insert [7], .delete] ∧
      next.row.cuxrs.map Uxr.type = [.insert [9], .insert [7]] ∧
      ∃ xr, leReadXr false (db.rows ()).row .snapshot reader = some xr ∧
        leReadXr false next.row .snapshot reader = some xr := by
  have run := @Db.reachesOneRow [.txn (.beginRoot .none false), .txn (.logBegin 1),
    .write 1 () 1 (.insert [7]), .txn (.noteCommit 1), .finishRow 1 () [2],
    .txn (.completeRoot 1), .txn (.beginRoot .root true), .txn (.beginRoot .none false),
    .txn (.logBegin 4), .write 4 () 3 (.insert [8]), .txn (.noteCommit 4),
    .finishRow 4 () [4], .txn (.completeRoot 4), .txn (.beginRoot .none false),
    .txn (.logBegin 5), .write 5 () 5 (.insert [9]), .txn (.noteCommit 5),
    .finishRow 5 () [6], .txn (.completeRoot 5)] _ rfl
  obtain ⟨next, folded, -, same⟩ := @collections_keepReads _ _ _ _ run ()
    [.full 0, .simple ⟨none, 3, 0, true⟩]
    (List.forall_mem_cons.mpr ⟨Nat.zero_lt_succ _, List.forall_mem_singleton.mpr
      ⟨rfl, List.mem_of_elem_eq_true rfl⟩⟩)
  cases Option.some.inj folded
  exact ⟨_, _, _, rfl, rfl, same [] _ .start 2 _ List.mem_cons_self rfl⟩

end Tokuft
