import Tokuft.Leafentry.AccessorsExact
import Tokuft.Mvcc.SnapshotIsolation

/-! What a cursor's transaction reads from the bytes of a leaf entry, also after any run. -/

namespace Tokuft

variable {ule : Ule} {bytes : Bytes}

/-- A leaf entry that may be packed has an innermost record, which is no placeholder. -/
theorem Packable.innermostUxr (ok : Packable ule) : ∃ innermost,
    uleGetInnermostUxr ule = some innermost ∧ uxrIsPlaceholder innermost = false := by
  obtain ⟨root, last, -⟩ := ok.root
  have based := List.ne_nil_of_mem (List.mem_of_getLast? last)
  rw [uleGetInnermostUxr, invariant_of (List.length_pos_of_ne_nil based)]
  cases provisional : ule.puxrs with
  | nil =>
    obtain ⟨uxr, older, committed⟩ := List.exists_cons_of_ne_nil based
    exact ⟨uxr, by simp [committed], ok.committed uxr (by simp [committed])⟩
  | cons uxr outer => exact ⟨uxr, rfl, ok.innermost uxr (by simp [provisional])⟩

/-- A cursor's transaction reads from packed bytes what it reads from the leaf entry. -/
theorem lePack_extractVal (ok : Packable ule) (packed : lePack ule = some (some bytes))
    (trailing : Bytes) (forceRecovery : Bool) (readType : CursorReadType) (txn : TokuTxn) :
    (Packed.leExtractVal forceRecovery (bytes ++ trailing) readType txn).bind
        (Slice.load (bytes ++ trailing)) = leExtractVal forceRecovery ule readType txn ∧
      Packed.leValIsDel forceRecovery (bytes ++ trailing) readType txn =
        leValIsDel forceRecovery ule readType txn := by
  obtain ⟨innermost, found, real⟩ := ok.innermostUxr
  have agree := lePack_agree packed (ok.unpacked packed trailing)
  exact ⟨agree.leExtractVal_eq found forceRecovery readType txn,
    agree.leValIsDel_eq found real forceRecovery readType txn⟩

/-- A snapshot reads the newest record that it accepts from bytes, with other bytes behind them. -/
theorem lePack_extractVal_snapshot : ∃ bytes,
    lePack ⟨[{ type := .insert [6, 6], xid := 9 }], [{ type := .insert [5], xid := 7 },
      { type := .insert [8], xid := 4 }, { type := .insert [7], xid := 0 }]⟩ = some (some bytes) ∧
    (Packed.leExtractVal false (bytes ++ [3, 3]) .snapshot { TokuTxn.create .root true with
      snapshotTxnid64 := 8, liveRootTxnList := some [7] }).bind (Slice.load (bytes ++ [3, 3])) =
      some (some [8]) :=
  ⟨_, rfl, (@lePack_extractVal ⟨[{ type := .insert [6, 6], xid := 9 }],
    [{ type := .insert [5], xid := 7 }, { type := .insert [8], xid := 4 },
      { type := .insert [7], xid := 0 }]⟩ _
    ⟨by decide, by decide, by decide, by decide, by decide, by decide, by decide, by decide⟩ rfl
    [3, 3] false .snapshot _).1.trans (by decide)⟩

variable {Key : Type} [DecidableEq Key]

/-- The bytes of a row give a transaction its own latest write, or else what its snapshot holds. -/
theorem packedRow_snapshotRead {events : List (DbEvent Key)} {db : Db Key}
    (run : Db.Reaches events db) {root : Nat} {reader : TokuTxn}
    (opened : reader ∈ db.txns.txns root) (reads : reader.readsSnapshot = true) (key : Key)
    (ok : Packable (db.rows key).row) (packed : lePack (db.rows key).row = some (some bytes))
    (trailing : Bytes) :
    (Packed.leExtractVal false (bytes ++ trailing) .snapshot reader).bind
        (Slice.load (bytes ++ trailing)) =
          some (db.shouldRead key root reader.snapshotTxnid64) ∧
      Packed.leValIsDel false (bytes ++ trailing) .snapshot reader =
        some (db.shouldRead key root reader.snapshotTxnid64).isNone := by
  -- The packed bytes are read as the row is, and the row is in order.
  obtain ⟨innermost, found, real⟩ := ok.innermostUxr
  have agree := lePack_agree packed (ok.unpacked packed trailing)
  have inOrder := run.ok
  have given := (inOrder.rows key).snapshotRead inOrder.txns inOrder.shares opened reads
  rw [agree.leExtractVal_eq found, agree.leValIsDel_eq found real, leExtractVal, leValIsDel, given]
  show _ = some (((db.rows key).ownWrite root).getD _) ∧
    _ = some (((db.rows key).ownWrite root).getD _).isNone
  generalize ((db.rows key).ownWrite root).getD _ = value
  cases value <;> exact ⟨rfl, rfl⟩

/-- The bytes of a row give a reader what was committed before it. -/
theorem packedRow_snapshotRead_committed :
    ∃ (db : Db Unit) (reader : TokuTxn) (bytes : Bytes), reader ∈ db.txns.txns 2 ∧
      lePack (db.rows ()).row = some (some bytes) ∧
      (Packed.leExtractVal false (bytes ++ []) .snapshot reader).bind
        (Slice.load (bytes ++ [])) = some (some [7]) := by
  have run := @Db.reachesOneRow [.txn (.beginRoot .none false), .txn (.logBegin 1),
    .write 1 () 1 (.insert [7]), .txn (.noteCommit 1), .txn (.completeRoot 1),
    .txn (.beginRoot .root true)] _ rfl
  refine ⟨_, ?reader, ?bytes, ?opened, ?packed,
    (@packedRow_snapshotRead _ _ _ _ _ run 2 ?reader ?opened ?reads () ?ok ?packed []).1.trans
      ?value⟩
  case opened => exact List.mem_cons_self
  case packed => rfl
  case ok => exact ⟨by decide, by decide, by decide, by decide, by decide, by decide, by decide,
    by decide⟩
  all_goals rfl

end Tokuft
