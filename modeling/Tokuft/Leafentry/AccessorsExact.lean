import Tokuft.Leafentry.Accessors

/-! The readers of a packed leaf entry agree with the leaf entry that it unpacks to. -/

namespace Tokuft

open Packed

variable {State : Type}

/-- The value that was found, or the error that was returned. -/
def loadFound (le : Bytes) : Except Int Slice → Option (Except Int (Option Bytes))
  | .error r => some (.error r)
  | .ok slice => (slice.load le).map .ok

/-- Every reader of the bytes gives what the unpacked leaf entry holds. -/
structure AccessorsAgree (le : Bytes) (ule : Ule) : Prop where
  latestIsDel : Packed.leLatestIsDel le = some (leLatestIsDel ule)
  latestValAndLen : (Packed.leLatestValAndLen le).bind (Slice.load le) = some (leLatestVal ule)
  latestVallen : Packed.leLatestVallen le = some ((leLatestVal ule).elim 0 List.length)
  outermostUncommittedXid :
    Packed.leOutermostUncommittedXid le = some (leOutermostUncommittedXid ule)
  iterateIsDel : ∀ {State : Type} (f : IterateCallback State), Packed.leIterateIsDel f le = (do
    let accepted ← firstAccepted f (0 < ule.numPuxrs) (interestingXrs ule)
    pure (accepted.map fun xr => (xrValue xr).isNone))
  iterateVal : ∀ {State : Type} (f : IterateCallback State), (do
    let found ← Packed.leIterateVal f le
    StateT.lift (loadFound le found)) = (do
    let accepted ← firstAccepted f (0 < ule.numPuxrs) (interestingXrs ule)
    pure (accepted.map xrValue))

/-- What is there is returned without touching the state. -/
theorem lift_some {Value : Type} (value : Value) :
    (StateT.lift (some value) : StateT State Option Value) = pure value := rfl

/-- The record at an accepted place, or the error that was returned. -/
def pick (shown : List Uxr) : Except Int Nat → Option (Except Int Xr)
  | .error r => some (.error r)
  | .ok index => shown[index]?.map fun uxr => .ok uxr.type

variable {le : Bytes} {position : Nat} {header : XrHeader}

/-- The place that the loop stops at is that of the first record that is accepted. -/
theorem leIterateGetAcceptedIndex_picks {f : IterateCallback State} {top : Bool} {xids : Nat}
    {shown : List Uxr}
    (xidAt : ∀ index, index + 1 < shown.length →
      readAt uxrUnpackTxnid le (xids + index * 8) = shown[index]?.map Uxr.xid)
    {index remaining : Nat} (reach : index + remaining + 1 = shown.length) :
    (do let accepted ← Packed.leIterateGetAcceptedIndex f top le xids index remaining
        StateT.lift (pick shown accepted)) =
      firstAccepted f (decide (index = 0) && top) (shown.drop index) := by
  induction remaining generalizing index with
  | zero =>
    -- Nobody is asked about the oldest record.
    have last : index < shown.length := by omega
    have none : shown.drop (index + 1) = [] := List.drop_eq_nil_of_le (by omega)
    rw [List.drop_eq_getElem_cons last, none]
    simp only [Packed.leIterateGetAcceptedIndex, firstAccepted, pure_bind, pick,
      List.getElem?_eq_getElem last, Option.map_some, lift_some]
  | succ remaining ih =>
    have here : index < shown.length := by omega
    have more : index + 1 < shown.length := by omega
    have later := @ih (index + 1) (by omega)
    rw [List.drop_eq_getElem_cons here]
    rw [List.drop_eq_getElem_cons more] at later ⊢
    simp only [Packed.leIterateGetAcceptedIndex, firstAccepted, xidAt index more, pure_bind,
      List.getElem?_eq_getElem here, Option.map_some, lift_some, bind_assoc]
    congr 1
    funext r
    split
    · -- The record that is accepted is the one at this place.
      simp only [pure_bind, pick, List.getElem?_eq_getElem here, Option.map_some, lift_some]
    · split
      · simp only [pure_bind, pick, lift_some]
      · have further : decide (index + 1 = 0) = false := by simp
        rw [later, further, Bool.false_and]

/-- A length word announces an insert of some length or a delete, as its insert bit says. -/
theorem readAt_lengthAndBit (read : readAt uxrUnpackLengthAndBit le position = some header) :
    ∃ word, readAt (readUint 4) le position = some word ∧
      header = if isInsert word then .insert (getLength word) else .delete := by
  simp only [readAt, Option.map_eq_some_iff] at read
  obtain ⟨⟨read, rest⟩, run, rfl⟩ := read
  obtain ⟨word, middle, run, done⟩ := run_bind_inv run
  cases done
  exact ⟨word, readAt_of_run run, rfl⟩

/-- The slice that a header announces at a position. -/
def sliceAt (position : Nat) : XrHeader → Slice
  | .insert vallen => { valp := some position, vallen }
  | _ => { valp := none, vallen := 0 }

variable {type : Xr}

/-- The slice that a header announces holds the value that is read behind that header. -/
theorem load_sliceAt (read : readAt (uxrUnpackData header) le position = some type) :
    (sliceAt position header).load le = some (xrValue type) := by
  -- Only an insert has bytes behind its header.
  cases header with
  | insert vallen =>
    simp only [readAt, Option.map_eq_some_iff] at read
    obtain ⟨⟨read, rest⟩, run, rfl⟩ := read
    obtain ⟨val, middle, run, done⟩ := run_bind_inv run
    cases done
    simp only [sliceAt, Slice.load, readAt_of_run run, Option.map_some, xrValue]
  | delete =>
    cases read
    rfl
  | placeholder =>
    cases read
    rfl

/-- What is read behind a header is of the kind that the header announces. -/
theorem kind_of_data (read : readAt (uxrUnpackData header) le position = some type) :
    header = headerOf type ∨ ∃ vallen val, header = .insert vallen ∧ type = .insert val := by
  -- Only an insert takes bytes, as many as its header says.
  cases header with
  | insert vallen =>
    simp only [readAt, Option.map_eq_some_iff] at read
    obtain ⟨⟨read, rest⟩, run, rfl⟩ := read
    obtain ⟨val, middle, run, done⟩ := run_bind_inv run
    cases done
    exact Or.inr ⟨vallen, val, rfl, rfl⟩
  | delete =>
    cases read
    exact Or.inl rfl
  | placeholder =>
    cases read
    exact Or.inl rfl

/-- A length word without the insert bit is that of a record without a value. -/
theorem isInsert_of_data {word : Nat}
    (kind : header = if isInsert word then .insert (getLength word) else .delete)
    (read : readAt (uxrUnpackData header) le position = some type) :
    (!isInsert word) = (xrValue type).isNone ∧ decide (header = .delete) = (!isInsert word) ∧
      type ≠ .placeholder := by
  -- The highest bit of the word tells inserts from all others.
  by_cases inserts : isInsert word = true
  · rw [if_pos inserts] at kind
    subst kind
    rcases kind_of_data read with same | ⟨vallen, val, -, rfl⟩
    · cases type with
      | insert val => simp [inserts, xrValue]
      | delete => cases same
      | placeholder => cases same
    · simp [inserts, xrValue]
  · rw [if_neg inserts] at kind
    subst kind
    cases read
    simp [inserts, xrValue]

section Layout

variable {ule : Ule} {numCuxrs numPuxrs : Nat} {xids : List Nat} {headers : List XrHeader}
  {types : List Xr} (layout : Layout le ule numCuxrs numPuxrs xids headers types)

include layout

variable {index : Nat}

/-- There is one more length word than there are identifiers. -/
theorem Layout.slots : headers.length = xids.length + 1 := by
  rw [layout.xidsLength, layout.headersLength]

/-- Readers choose among as many records as there are length words. -/
theorem Layout.shown_length : (interestingXrs ule).length = headers.length := by
  obtain ⟨rest, values⟩ := layout.values
  have same := (unpackAllData_at values).1
  rw [layout.shown, List.length_zipWith, List.length_append, List.length_singleton, same,
    layout.slots, Nat.min_self]

/-- The identifier of a record lies at its place. -/
theorem Layout.shown_xid (below : index + 1 < (interestingXrs ule).length) :
    readAt uxrUnpackTxnid le (xrs + index * 8) = (interestingXrs ule)[index]?.map Uxr.xid := by
  -- The identifiers come first, eight bytes for each record but the last.
  obtain ⟨rest, values⟩ := layout.values
  have same := (unpackAllData_at values).1
  have slots := layout.slots
  rw [layout.shown_length] at below
  have xid : index < xids.length := by omega
  have type : index < types.length := by omega
  rw [layout.xidAt index xid, layout.shown, List.getElem?_zipWith,
    List.getElem?_append_left xid, List.getElem?_eq_getElem xid, List.getElem?_eq_getElem type]
  rfl

/-- The length word and the value of a record lie at its place. -/
theorem Layout.shown_type (below : index < headers.length) :
    ∃ uxr header, (interestingXrs ule)[index]? = some uxr ∧
      readAt uxrUnpackLengthAndBit le (xrs + xids.length * 8 + index * 4) = some header ∧
      readAt (uxrUnpackData header) le (xrs + xids.length * 8 + headers.length * 4 +
        ((headers.take index).map XrHeader.vallen).sum) = some uxr.type := by
  -- The value lies behind all length words and behind the values before it.
  obtain ⟨rest, values⟩ := layout.values
  obtain ⟨same, each⟩ := unpackAllData_at values
  have type : index < types.length := by omega
  have xid : index < (xids ++ [txnidNone]).length := by
    rw [List.length_append, List.length_singleton, ← layout.slots]
    exact below
  have found : headers[index]? = some headers[index] := List.getElem?_eq_getElem below
  refine ⟨{ type := types[index], xid := (xids ++ [txnidNone])[index] }, headers[index], ?_, ?_, ?_⟩
  · rw [layout.shown, List.getElem?_zipWith, List.getElem?_eq_getElem type,
      List.getElem?_eq_getElem xid]
  · rw [layout.headerAt index below, found]
  · rw [each index headers[index] found, List.getElem?_eq_getElem type]

/-- The first record to choose is what the innermost record says. -/
theorem Layout.innermost : ∃ innermost uxr, uleGetInnermostUxr ule = some innermost ∧
    (interestingXrs ule)[0]? = some uxr ∧ uxr.type = innermost.type := by
  -- The newest record is the innermost provisional one, or else the last committed one.
  have length := layout.shown_length
  have counted := layout.headersLength
  have positive := layout.positive
  rcases ule with ⟨_ | ⟨innermost, outer⟩, cuxrs⟩
  · rw [interestingXrs_committed] at length
    cases cuxrs with
    | nil =>
      rw [List.length_nil] at length
      omega
    | cons top older => exact ⟨top, top, by simp [uleGetInnermostUxr], rfl, rfl⟩
  · have some : provisionalSlot numPuxrs = 1 :=
      if_pos (layout.nested.mpr (List.cons_ne_nil innermost outer))
    rw [interestingXrs_provisional, List.length_cons] at length
    have based : 0 < cuxrs.length := by omega
    rw [interestingXrs_provisional]
    exact ⟨innermost, _, by simp [uleGetInnermostUxr, based], rfl, rfl⟩

/-- The newest length word lies behind the identifiers. -/
theorem Layout.skipTxnids_eq : skipTxnids numCuxrs numPuxrs = xrs + xids.length * 8 := by
  have length := layout.xidsLength
  have positive := layout.positive
  unfold skipTxnids
  omega

/-- The newest length word announces what the innermost record says. -/
theorem Layout.latest : ∃ innermost header, uleGetInnermostUxr ule = some innermost ∧
    readAt uxrUnpackLengthAndBit le (skipTxnids numCuxrs numPuxrs) = some header ∧
    readAt (uxrUnpackData header) le (skipTxnids numCuxrs numPuxrs + headers.length * 4) =
      some innermost.type := by
  -- The word of the newest record comes right behind the identifiers.
  obtain ⟨innermost, uxr, found, first, same⟩ := layout.innermost
  have some : 0 < headers.length := by
    rw [layout.slots]
    exact Nat.succ_pos _
  obtain ⟨shown, header, top, word, data⟩ := layout.shown_type some
  rw [top] at first
  cases first
  refine ⟨innermost, header, found, ?_, ?_⟩
  · rw [layout.skipTxnids_eq]
    simpa using word
  · rw [layout.skipTxnids_eq, ← same]
    simpa using data

/-- The bytes say whether the newest record deletes. -/
theorem Layout.latestIsDel : Packed.leLatestIsDel le = some (leLatestIsDel ule) := by
  -- Only a delete has a word without the insert bit here.
  obtain ⟨innermost, header, found, word, data⟩ := layout.latest
  obtain ⟨raw, -, kind⟩ := readAt_lengthAndBit word
  obtain ⟨absent, deletes, solid⟩ := isInsert_of_data kind data
  have same : decide (header = .delete) = uxrIsDelete innermost := by
    rw [deletes, absent]
    rcases innermost with ⟨_ | _ | _, xid⟩
    · rfl
    · rfl
    · exact absurd rfl solid
  simp only [Packed.leLatestIsDel, layout.type, layout.committed, layout.provisional, word,
    invariant_of layout.positive, bind_runs, same, leLatestIsDel, found]
  rfl

/-- The bytes give the value of the newest record. -/
theorem Layout.latestValAndLen :
    (Packed.leLatestValAndLen le).bind (Slice.load le) = some (leLatestVal ule) := by
  -- The value of the newest record comes right behind the length words.
  obtain ⟨innermost, header, found, word, data⟩ := layout.latest
  have counted : numCuxrs - 1 + provisionalSlot numPuxrs = headers.length - 1 := by
    have length := layout.headersLength
    have positive := layout.positive
    omega
  have slots := layout.slots
  have place : skipTxnids numCuxrs numPuxrs + 4 + (headers.length - 1) * 4 =
      skipTxnids numCuxrs numPuxrs + headers.length * 4 := by omega
  have loaded := load_sliceAt data
  have value : leLatestVal ule = xrValue innermost.type := by
    rcases innermost with ⟨_ | _ | _, xid⟩ <;> simp [leLatestVal, found, xrValue]
  rw [value, ← loaded]
  simp only [Packed.leLatestValAndLen, layout.type, layout.committed, layout.provisional, word,
    invariant_of layout.positive, bind_runs, counted, place]
  cases header <;> rfl

/-- The bytes give the length of the value of the newest record. -/
theorem Layout.latestVallen :
    Packed.leLatestVallen le = some ((leLatestVal ule).elim 0 List.length) := by
  have whole := layout.latestValAndLen
  obtain ⟨innermost, header, found, word, data⟩ := layout.latest
  simp only [Packed.leLatestVallen, Packed.leLatestValAndLen, layout.type, layout.committed,
    layout.provisional, word, invariant_of layout.positive, bind_runs] at whole ⊢
  cases header with
  | insert vallen =>
    -- The slice has as many bytes as its length says.
    obtain ⟨val, read, same⟩ := Option.map_eq_some_iff.mp whole
    simp only [readAt, Option.map_eq_some_iff] at read
    obtain ⟨⟨read, rest⟩, run, rfl⟩ := read
    rw [← same]
    exact congrArg some (readBytes_inv run).2.1.symm
  | delete =>
    have none : none = leLatestVal ule := Option.some.inj whole
    rw [← none]
    rfl
  | placeholder =>
    have none : none = leLatestVal ule := Option.some.inj whole
    rw [← none]
    rfl

/-- The bytes give the outermost provisional transaction. -/
theorem Layout.outermostUncommittedXid :
    Packed.leOutermostUncommittedXid le = some (leOutermostUncommittedXid ule) := by
  -- Without provisional records there is no such transaction.
  have nested := layout.nested
  simp only [Packed.leOutermostUncommittedXid, layout.type, layout.provisional, bind_runs, if_true]
  by_cases some : numPuxrs ≠ 0
  · rw [if_pos some]
    have length := layout.shown_length
    have counted := layout.headersLength
    have positive := layout.positive
    have slot : provisionalSlot numPuxrs = 1 := if_pos some
    have below : 0 + 1 < (interestingXrs ule).length := by omega
    have first := layout.shown_xid below
    rw [Nat.zero_mul, Nat.add_zero] at first
    rw [first]
    rcases ule with ⟨_ | ⟨innermost, outer⟩, cuxrs⟩
    · exact absurd rfl (nested.mp some)
    · rw [interestingXrs_provisional]
      simp [leOutermostUncommittedXid, uleGetOutermostProvisional, List.getLast?_eq_some_getLast]
  · rw [if_neg some]
    have none : ule.puxrs = [] := by
      by_contra present
      exact some (nested.mpr present)
    simp [leOutermostUncommittedXid, uleGetOutermostProvisional, none]

/-- The lengths in front of a record add up to those of the values in front of it. -/
theorem Layout.lengthsBefore_eq (within : index ≤ headers.length) :
    lengthsBefore le (xrs + xids.length * 8) index =
      some ((headers.take index).map XrHeader.vallen).sum := by
  -- By induction on how many records are in front.
  induction index with
  | zero => rfl
  | succ index ih =>
    have below : index < headers.length := within
    have word := layout.headerAt index below
    rw [List.getElem?_eq_getElem below] at word
    rw [lengthsBefore, ih (Nat.le_of_lt below), word, List.take_succ_eq_append_getElem below,
      List.map_append, List.sum_append]
    rfl

/-- The record at an accepted place is the one that was asked about. -/
theorem Layout.accepted (small : headers.length < 2 ^ 32) :
    acceptedIsDel le headers.length index =
        (interestingXrs ule)[index]?.map (fun uxr => (xrValue uxr.type).isNone) ∧
      (acceptedVal le headers.length index).bind (Slice.load le) =
        (interestingXrs ule)[index]?.map (fun uxr => xrValue uxr.type) := by
  -- The place is that of a record with an identifier, or of the last one without.
  have slots := layout.slots
  have pred : wordPred headers.length = xids.length := by
    unfold wordPred
    omega
  by_cases below : index < headers.length
  · obtain ⟨uxr, header, found, word, data⟩ := layout.shown_type below
    obtain ⟨raw, read, kind⟩ := readAt_lengthAndBit word
    have loaded := load_sliceAt data
    simp only [acceptedIsDel, acceptedVal, invariant_of below, pred, read, word, found,
      layout.lengthsBefore_eq (Nat.le_of_lt below), bind_runs, Option.map_some]
    constructor
    · exact congrArg some (isInsert_of_data kind data).1
    · rw [← loaded]
      cases header <;> rfl
  · have none : (interestingXrs ule)[index]? = none := by
      rw [List.getElem?_eq_none_iff, layout.shown_length]
      omega
    simp [acceptedIsDel, acceptedVal, invariant, below, none]

/-- The loop over the identifiers picks the record that a reader of the records would. -/
theorem Layout.picks (f : IterateCallback State) (small : headers.length < 2 ^ 32) :
    (do let accepted ← Packed.leIterateGetAcceptedIndex f (decide (numPuxrs ≠ 0)) le xrs 0
          (wordPred headers.length)
        StateT.lift (pick (interestingXrs ule) accepted)) =
      firstAccepted f (0 < ule.numPuxrs) (interestingXrs ule) := by
  -- The last record has no identifier, and is taken when no other is.
  have slots := layout.slots
  have length := layout.shown_length
  have pred : wordPred headers.length = xids.length := by
    unfold wordPred
    omega
  have top : decide (numPuxrs ≠ 0) = decide (0 < ule.numPuxrs) := by
    rw [decide_eq_decide, layout.nested, Ule.numPuxrs, List.length_pos_iff]
  rw [pred, top, leIterateGetAcceptedIndex_picks (fun index below => layout.shown_xid below)
    (by omega)]
  simp

/-- A callback is asked in the same order by both readers, and both give what it accepts. -/
theorem Layout.iterate (f : IterateCallback State)
    (small : numCuxrs + provisionalSlot numPuxrs < 2 ^ 32) :
    (Packed.leIterateIsDel f le = do
      let accepted ← firstAccepted f (0 < ule.numPuxrs) (interestingXrs ule)
      pure (accepted.map fun xr => (xrValue xr).isNone)) ∧
    ((do
      let found ← Packed.leIterateVal f le
      StateT.lift (loadFound le found)) = do
      let accepted ← firstAccepted f (0 < ule.numPuxrs) (interestingXrs ule)
      pure (accepted.map xrValue)) := by
  have small : headers.length < 2 ^ 32 := by rw [layout.headersLength]; exact small
  have interesting : numInteresting numCuxrs numPuxrs = headers.length := by
    unfold numInteresting
    rw [← layout.headersLength, Nat.mod_eq_of_lt small]
  have several : ¬(1 : UInt8) = 0 := by decide
  rw [← layout.picks f small]
  simp only [Packed.leIterateIsDel, Packed.leIterateVal, layout.type, layout.committed,
    layout.provisional, lift_some, pure_bind, if_neg several, if_true, bind_assoc, interesting]
  constructor
  · refine bind_congr fun accepted => ?_
    cases accepted with
    | error r => rfl
    | ok index =>
      have record := (@Layout.accepted _ _ _ _ _ _ _ layout index small).1
      simp only [record, pick]
      cases (interestingXrs ule)[index]? <;> rfl
  · refine bind_congr fun accepted => ?_
    cases accepted with
    | error r => rfl
    | ok index =>
      -- The value that the slice stands for is that of the record.
      have record := (@Layout.accepted _ _ _ _ _ _ _ layout index small).2
      have loaded : (do
          let found ← (StateT.lift ((acceptedVal le headers.length index).map .ok) :
            StateT State Option (Except Int Slice))
          StateT.lift (loadFound le found)) =
          StateT.lift (((acceptedVal le headers.length index).bind (Slice.load le)).map .ok) := by
        cases acceptedVal le headers.length index <;> rfl
      simp only [loaded, record, pick]
      cases (interestingXrs ule)[index]? <;> rfl

end Layout

variable {ule : Ule}

/-- The bytes of a leaf entry with one committed value agree with what they unpack to. -/
theorem clean_agree {rest : Bytes} (type : readAt readByte le 0 = some 0)
    (read : leUnpackReader.run (le.drop 0) = some (ule, rest)) : AccessorsAgree le ule := by
  -- A clean leaf entry has a length and the value, and no identifiers.
  obtain ⟨byte, afterType, first, read⟩ := run_bind_inv read
  rw [readAt_of_run first] at type
  cases type
  have place := takes_byte.next first
  subst place
  obtain ⟨vallen, afterLength, length, read⟩ := run_bind_inv read
  have place := (takes_uint 4).next length
  subst place
  obtain ⟨val, afterValue, value, done⟩ := run_bind_inv read
  cases done
  obtain ⟨-, size, slice⟩ := readBytes_inv value
  have kind := readAt_of_run first
  have word := readAt_of_run length
  have innermost : uleGetInnermostUxr
      { puxrs := [], cuxrs := [{ type := .insert val, xid := txnidNone }] } =
        some { type := .insert val, xid := txnidNone } := rfl
  refine ⟨?_, ?_, ?_, ?_, ?_, ?_⟩
  · simp [Packed.leLatestIsDel, kind, leLatestIsDel, innermost, uxrIsDelete]
  · simp [Packed.leLatestValAndLen, kind, word, leLatestVal, innermost, Slice.load, slice]
  · simp [Packed.leLatestVallen, kind, word, leLatestVal, innermost, size]
  · simp [Packed.leOutermostUncommittedXid, kind, leOutermostUncommittedXid,
      uleGetOutermostProvisional]
  · intro State f
    simp [Packed.leIterateIsDel, kind, lift_some, firstAccepted, xrValue, Except.map]
  · intro State f
    simp [Packed.leIterateVal, kind, word, lift_some, firstAccepted, xrValue, Except.map,
      loadFound, Slice.load, slice]

/-- The bytes of any leaf entry agree with what they unpack to, when its counts fit their words. -/
theorem unpacked_agree (unpacked : leUnpack le = some ule)
    (counted : readAt readByte le 0 = some 1 → ∀ numCuxrs, numCxrs le = some numCuxrs →
      numCuxrs + 1 < 2 ^ 32) : AccessorsAgree le ule := by
  -- The first byte tells a clean leaf entry from one with versions.
  simp only [leUnpack, Option.map_eq_some_iff] at unpacked
  obtain ⟨⟨read, rest⟩, run, rfl⟩ := unpacked
  obtain ⟨type, afterType, first, body⟩ := run_bind_inv (show _ from run)
  have kind : readAt readByte le 0 = some type :=
    readAt_of_run (show readByte.run (le.drop 0) = _ from first)
  have place := takes_byte _ _ _ first
  subst place
  by_cases clean : type = 0
  · subst clean
    exact clean_agree kind run
  · rw [if_neg clean] at body
    by_cases mvcc : type = 1
    · subst mvcc
      rw [if_pos rfl] at body
      obtain ⟨numCuxrs, numPuxrs, xids, headers, types, layout⟩ := leUnpackMvcc_layout kind body
      have small : numCuxrs + provisionalSlot numPuxrs < 2 ^ 32 := by
        have bound := counted kind numCuxrs layout.committed
        have slot : provisionalSlot numPuxrs ≤ 1 := by
          unfold provisionalSlot
          split <;> omega
        omega
      exact ⟨layout.latestIsDel, layout.latestValAndLen, layout.latestVallen,
        layout.outermostUncommittedXid, fun f => (layout.iterate f small).1,
        fun f => (layout.iterate f small).2⟩
    · rw [if_neg mvcc] at body
      cases body

/-- A leaf entry that is packed with several records has counts that fit their words. -/
theorem lePack_counted {bytes : Bytes} (packed : lePack ule = some (some bytes)) (trailing : Bytes)
    (several : readAt readByte (bytes ++ trailing) 0 = some 1) :
    numCxrs (bytes ++ trailing) = some ule.numCuxrs ∧ ule.numCuxrs + 1 < 2 ^ 32 := by
  simp only [lePack, bind_inv] at packed
  obtain ⟨_, positive, root, last, _, base, packed⟩ := packed
  split at packed
  · simp only [Option.bind_eq_some_iff] at packed
    obtain ⟨memsize, size, packed⟩ := packed
    have based : ule.cuxrs ≠ [] := by
      intro empty
      rw [empty] at last
      cases last
    split at packed
    · -- A single committed value is packed under the other type.
      simp only [Option.bind_some, Option.bind_eq_some_iff, Option.some.injEq]
        at packed
      obtain ⟨_, checked, rfl⟩ := packed
      cases several
    · rename_i shape
      simp only [Option.bind_some, Option.bind_eq_some_iff,
        Option.some.injEq] at packed
      obtain ⟨_, nesting, _, checked, rfl⟩ := packed
      obtain ⟨rest, computed, length⟩ := leMemsizeFromUle_eq based shape
      rw [size] at computed
      cases computed
      rw [invariant_eq_some, length] at checked
      have bound := Nat.mod_lt (12 * ule.numCuxrs + 8 * ule.numPuxrs - 2) (by decide : 0 < 2 ^ 32)
      have positive : 0 < ule.numCuxrs := List.length_pos_of_ne_nil based
      have fits : ule.numCuxrs < 2 ^ (8 * 4) := by omega
      refine ⟨?_, by omega⟩
      have read := Reads.uint 4 fits ([UInt8.ofNat ule.numPuxrs] ++ lePackRest ule ++ trailing)
      have placed : (readUint 4).run ((1 :: lePackMvcc ule ++ trailing).drop 1) =
          some (ule.numCuxrs, [UInt8.ofNat ule.numPuxrs] ++ lePackRest ule ++ trailing) := by
        rw [← read]
        simp [lePackMvcc]
      exact readAt_of_run placed
  · cases packed

/-- The readers of packed bytes agree with whatever these unpack to. -/
theorem lePack_agree {bytes trailing : Bytes} (packed : lePack ule = some (some bytes)) {read : Ule}
    (unpacked : leUnpack (bytes ++ trailing) = some read) :
    AccessorsAgree (bytes ++ trailing) read := by
  refine unpacked_agree unpacked fun several numCuxrs found => ?_
  obtain ⟨count, fits⟩ := lePack_counted packed trailing several
  rw [count] at found
  cases found
  exact fits

/-- A leaf entry that is packed at all is read back from its bytes. -/
theorem Packable.unpacked (ok : Packable ule) {bytes : Bytes}
    (packed : lePack ule = some (some bytes)) (trailing : Bytes) :
    leUnpack (bytes ++ trailing) = some ule := by
  -- A size that wraps would have failed the packing.
  have fits : SizeFits ule := by
    by_contra large
    simp only [SizeFits, not_or] at large
    rw [lePack_wraps ok large.1 large.2] at packed
    cases packed
  obtain ⟨written, again, -, reads⟩ := roundTrips_of_sizeFits ok fits
  rw [packed] at again
  cases again
  exact (reads trailing).2

/-- Every reader of a packed leaf entry agrees with the leaf entry that it unpacks to. -/
theorem lePack_accessorsAgree {ule : Ule} {bytes : Bytes}
    (packed : lePack ule = some (some bytes)) (trailing : Bytes) :
    (∀ read, leUnpack (bytes ++ trailing) = some read →
      AccessorsAgree (bytes ++ trailing) read) ∧
    (Packable ule → AccessorsAgree (bytes ++ trailing) ule) :=
  ⟨fun _ => lePack_agree packed, fun ok => lePack_agree packed (ok.unpacked packed trailing)⟩

/-- The readers of a nested insert over a committed value agree with it. -/
theorem lePack_accessorsAgree_nested :
    (∀ read, leUnpack ([1, 1, 0, 0, 0, 2, 9, 0, 0, 0, 0, 0, 0, 0, 2, 0, 0, 128, 1, 0, 0, 128,
        1, 2, 7, 3, 3, 0, 0, 0, 0, 0, 0, 0] ++ []) = some read →
      AccessorsAgree ([1, 1, 0, 0, 0, 2, 9, 0, 0, 0, 0, 0, 0, 0, 2, 0, 0, 128, 1, 0, 0, 128,
        1, 2, 7, 3, 3, 0, 0, 0, 0, 0, 0, 0] ++ []) read) ∧
    (Packable (Ule.mk [{ type := .insert [1, 2], xid := 3 }, { type := .placeholder, xid := 9 }]
        [{ type := .insert [7], xid := 0 }]) →
      AccessorsAgree ([1, 1, 0, 0, 0, 2, 9, 0, 0, 0, 0, 0, 0, 0, 2, 0, 0, 128, 1, 0, 0, 128,
        1, 2, 7, 3, 3, 0, 0, 0, 0, 0, 0, 0] ++ [])
        (Ule.mk [{ type := .insert [1, 2], xid := 3 }, { type := .placeholder, xid := 9 }]
          [{ type := .insert [7], xid := 0 }])) :=
  lePack_accessorsAgree (by decide) []

/-- A reader's answers choose the record that the unpacked leaf entry gives it. -/
theorem firstAccepted_answerCode (f : LeIterateCallback) (top : Bool) (shown : List Uxr) :
    (firstAccepted (answerCode f) top shown).run () = (do
      let index ← leIterateGetAcceptedIndex f top (shown.map Uxr.xid)
      let uxr ← shown[index]?
      pure (.ok uxr.type, ())) := by
  induction shown generalizing top with
  | nil => rfl
  | cons uxr older ih =>
    cases older with
    | nil => rfl
    | cons next older =>
      have asked : (answerCode f uxr.xid top).run () =
          (f uxr.xid top).map fun accepts => (if accepts then tokudbAccept else 0, ()) := by
        cases answer : f uxr.xid top <;> simp [answerCode, answer, StateT.run, StateT.lift]
      rw [firstAccepted, StateT.run_bind, asked]
      cases answer : f uxr.xid top with
      | none => simp [leIterateGetAcceptedIndex, answer]
      | some accepts =>
        cases accepts with
        | true => simp [leIterateGetAcceptedIndex, answer]
        | false =>
          -- A transaction that is ignored leaves the choice to the older records.
          have ignored : ¬((0 : Int) = tokudbAccept) := by decide
          simp only [Option.map_some, Bool.false_eq_true, if_false, bind_runs, if_neg ignored,
            ne_eq, not_true_eq_false, ih false, List.map_cons, leIterateGetAcceptedIndex, answer]
          cases leIterateGetAcceptedIndex f false (next.xid :: older.map Uxr.xid) <;> rfl

/-- The value that a reader of the records gives is the one that its callback accepts. -/
theorem firstAccepted_leIterateXr (f : LeIterateCallback) (ule : Ule) :
    (firstAccepted (answerCode f) (0 < ule.numPuxrs) (interestingXrs ule)).run () =
      (leIterateXr f ule).map fun xr => (.ok xr, ()) := by
  rw [firstAccepted_answerCode, leIterateXr]
  cases leIterateGetAcceptedIndex f (decide (0 < ule.numPuxrs))
      ((interestingXrs ule).map Uxr.xid) with
  | none => rfl
  | some index =>
    simp only [bind_runs]
    cases (interestingXrs ule)[index]? <;> rfl

/-- A reader of the value reads the one of the record that the same reader stops at. -/
theorem AccessorsAgree.readVal (agree : AccessorsAgree le ule) (f : LeIterateCallback) : ((do
    let (r, _) ← (Packed.leIterateVal (answerCode f) le).run ()
    match r with
    | .error _ => none
    | .ok slice => pure slice) : Option Slice).bind (Slice.load le) =
      (leIterateXr f ule).map xrValue := by
  have whole := congrArg (fun reading => StateT.run reading ()) (agree.iterateVal (answerCode f))
  simp only [StateT.run_bind, firstAccepted_leIterateXr, StateT.run_lift, StateT.run_pure,
    Option.bind_eq_bind, Option.pure_def] at whole
  -- What was found and what was chosen are there together, and then are the same value.
  cases chosen : leIterateXr f ule with
  | none =>
    rw [chosen] at whole
    cases read : (Packed.leIterateVal (answerCode f) le).run () with
    | none => rfl
    | some result =>
      rcases result with ⟨r | slice, _⟩
      · rfl
      · rw [read] at whole
        cases loaded : slice.load le with
        | none => simpa using loaded
        | some val => simp [loadFound, loaded] at whole
  | some xr =>
    rw [chosen] at whole
    cases read : (Packed.leIterateVal (answerCode f) le).run () with
    | none => simp [read] at whole
    | some result =>
      rcases result with ⟨r | slice, _⟩
      · simp [read, loadFound, Except.map] at whole
      · cases loaded : slice.load le with
        | none => simp [read, loadFound, loaded] at whole
        | some val =>
          have same : val = xrValue xr := by
            simpa [read, loadFound, loaded, Except.map] using whole
          simp [loaded, same]

/-- The bytes give a cursor's transaction the value that the unpacked leaf entry gives it. -/
theorem AccessorsAgree.leExtractVal_eq (agree : AccessorsAgree le ule) {innermost : Uxr}
    (found : uleGetInnermostUxr ule = some innermost) (forceRecovery : Bool)
    (readType : CursorReadType) (txn : TokuTxn) :
    (Packed.leExtractVal forceRecovery le readType txn).bind (Slice.load le) =
      leExtractVal forceRecovery ule readType txn := by
  -- Both read the value of the record that the callback accepts.
  have shape : leExtractVal forceRecovery ule readType txn =
      (leReadXr forceRecovery ule readType txn).map xrValue :=
    congrArg (fun view => (leReadXr forceRecovery ule readType txn).map view)
      (funext fun xr => by cases xr <;> rfl)
  rw [shape]
  cases readType with
  | any =>
    rw [Packed.leExtractVal, agree.latestValAndLen, leReadXr, found, leLatestVal, found]
    rcases innermost with ⟨_ | _ | _, xid⟩ <;> rfl
  | snapshot => exact agree.readVal (leIterateReadSnapshotCallback forceRecovery txn)
  | committed => exact agree.readVal (leIterateReadCommittedCallback forceRecovery txn)

/-- A reader of the deletion tells of the record that the same reader stops at. -/
theorem AccessorsAgree.readIsDel (agree : AccessorsAgree le ule) (f : LeIterateCallback) : ((do
    let (r, _) ← (Packed.leIterateIsDel (answerCode f) le).run ()
    match r with
    | .error _ => pure false
    | .ok isDel => pure isDel) : Option Bool) =
      (leIterateXr f ule).map fun xr => !(xr matches .insert _) := by
  rw [agree.iterateIsDel]
  simp only [StateT.run_bind, firstAccepted_leIterateXr]
  cases leIterateXr f ule with
  | none => rfl
  | some xr => cases xr <;> rfl

/-- The bytes tell a cursor's transaction whether there is a value as the leaf entry does. -/
theorem AccessorsAgree.leValIsDel_eq (agree : AccessorsAgree le ule) {innermost : Uxr}
    (found : uleGetInnermostUxr ule = some innermost)
    (real : uxrIsPlaceholder innermost = false) (forceRecovery : Bool)
    (readType : CursorReadType) (txn : TokuTxn) :
    Packed.leValIsDel forceRecovery le readType txn =
      leValIsDel forceRecovery ule readType txn := by
  cases readType with
  | any =>
    rw [Packed.leValIsDel, agree.latestIsDel, leValIsDel, leReadXr, found, leLatestIsDel, found]
    -- A placeholder is no deletion, and no value either.
    rcases innermost with ⟨_ | _ | _, xid⟩
    · rfl
    · rfl
    · cases real
  | snapshot => exact agree.readIsDel (leIterateReadSnapshotCallback forceRecovery txn)
  | committed => exact agree.readIsDel (leIterateReadCommittedCallback forceRecovery txn)

end Tokuft
