import Tokuft.Logger.LogCursorLaws

/-! A log cursor is a cursor over the entries of all its files, but for three kinds of calls. -/

namespace Tokuft

/-- What a call returns for an entry, or for there being none. -/
def LogCursorResult.ofOption : Option LogEntry → LogCursorResult
  | some found => .entry found
  | none => .notFound

/-- The sequence numbers of entries follow each other. -/
def Consecutive (records : List LogRecord) : Prop :=
  records.IsChain fun record next => next.entry.lsn = record.entry.lsn + 1

namespace LogCursor

/-- The calls that find the entry that is asked for. Going to the first entry does not rewind the
first file when it is open. Going on from the last entry, or back from the first, reads the current
entry once more, since only the directions of earlier moves are made up for. -/
def Clear (lc : LogCursor) : CursorCall → Prop
  | .first => ∀ fp, lc.curFp = some fp → lc.curLogfilesIndex = 0 → fp.pos = logHeaderEnd
  | .last => True
  | .next => lc.entryValid = true → lc.lastDirection ≠ .last
  | .prev => lc.entryValid = true → lc.lastDirection ≠ .first

instance (lc : LogCursor) (asked : CursorCall) : Decidable (lc.Clear asked) :=
  match asked with
  | .first =>
    match here : lc.curFp with
    | none => isTrue fun fp found => by simp [here] at found
    | some fp =>
      decidable_of_iff (lc.curLogfilesIndex = 0 → fp.pos = logHeaderEnd) (by
        constructor
        · intro clear other found
          rw [here] at found
          cases found
          exact clear
        · intro clear
          exact clear fp here)
  | .last => isTrue trivial
  | .next => inferInstanceAs (Decidable (_ → _))
  | .prev => inferInstanceAs (Decidable (_ → _))

/-- Every one of some calls is clear when it is made. -/
def AllClear : LogCursor → List CursorCall → Prop
  | _, [] => True
  | lc, asked :: calls =>
    lc.Clear asked ∧
      match lc.call asked with
      | .ok (moved, _) => moved.AllClear calls
      | .error _ => True

instance decidableAllClear : (lc : LogCursor) → (calls : List CursorCall) →
    Decidable (lc.AllClear calls)
  | _, [] => isTrue trivial
  | lc, asked :: calls => by
    unfold AllClear
    have : Decidable (match lc.call asked with
        | .ok (moved, _) => moved.AllClear calls
        | .error _ => True) :=
      match lc.call asked with
      | .ok (moved, _) => decidableAllClear moved calls
      | .error _ => isTrue trivial
    exact inferInstance

end LogCursor

/-- A cursor stands at one side of its current entry, or has no file open. -/
inductive Follows (files : List WrittenFile) : Option Nat → LogCursor → Prop where
  | fresh {lc : LogCursor} (logfiles : lc.logfiles = files.map WrittenFile.bytes)
      (invalid : lc.entryValid = false) (closed : lc.curFp = none) : Follows files none lc
  | behind {passed ahead : List LogRecord} {record : LogRecord} {lc : LogCursor}
      (place : JustPassed files passed record ahead lc) (valid : lc.entryValid = true)
      (direction : lc.lastDirection = .forward ∨ lc.lastDirection = .first)
      (lsn : lc.curLsn = record.entry.lsn) : Follows files (some passed.length) lc
  | inFront {passed ahead : List LogRecord} {record : LogRecord} {lc : LogCursor}
      (place : JustAhead files passed record ahead lc) (valid : lc.entryValid = true)
      (direction : lc.lastDirection = .backward ∨ lc.lastDirection = .last)
      (lsn : lc.curLsn = record.entry.lsn) : Follows files (some passed.length) lc

section Places

variable {files : List WrittenFile} {passed ahead : List LogRecord} {record : LogRecord}
  {lc moved : LogCursor}

/-- The entries of all files are those that were passed, this one, and those ahead. -/
theorem JustPassed.records (place : JustPassed files passed record ahead lc) :
    recordsOf files = passed ++ record :: ahead ∧ lc.logfiles = files.map WrittenFile.bytes := by
  obtain ⟨before, here, after, front, back, split, passed', ahead', stands⟩ := place
  refine ⟨?_, by rw [stands.logfiles, split]⟩
  rw [split, passed', ahead', recordsOf_append, recordsOf_cons, stands.records]
  simp

/-- The same holds in front of an entry. -/
theorem JustAhead.records (place : JustAhead files passed record ahead lc) :
    recordsOf files = passed ++ record :: ahead ∧ lc.logfiles = files.map WrittenFile.bytes := by
  obtain ⟨before, here, after, front, back, split, passed', ahead', stands⟩ := place
  refine ⟨?_, by rw [stands.logfiles, split]⟩
  rw [split, passed', ahead', recordsOf_append, recordsOf_cons, stands.records]
  simp

/-- The sequence number of the next entry is the next one. -/
theorem Consecutive.next {other : LogRecord}
    (consecutive : Consecutive (passed ++ record :: other :: ahead)) :
    other.entry.lsn = record.entry.lsn + 1 := by
  exact (List.isChain_append_cons_cons.mp consecutive).2.1

/-- A cursor that has read an entry forward returns it. -/
theorem returnEntry_behind {dir : LcDirection} (place : JustPassed files passed record ahead lc)
    (direction : dir = .forward ∨ dir = .first) (right : lc.lcCheckLsn dir record.entry.lsn) :
    ∃ after, lc.returnEntry dir (some record.entry) = (after, .entry record.entry) ∧
      Follows files (some passed.length) after := by
  obtain ⟨before, here, after, front, back, split, passed', ahead', stands⟩ := place
  refine ⟨_, if_pos right, ?_⟩
  apply Follows.behind _ rfl direction rfl
  · exact ahead
  · exact ⟨before, here, after, front, back, split, passed', ahead', stands.logfiles,
      stands.records, stands.index, stands.place⟩

/-- A cursor that has read an entry backward returns it. -/
theorem returnEntry_inFront {dir : LcDirection} (place : JustAhead files passed record ahead lc)
    (direction : dir = .backward ∨ dir = .last) (right : lc.lcCheckLsn dir record.entry.lsn) :
    ∃ after, lc.returnEntry dir (some record.entry) = (after, .entry record.entry) ∧
      Follows files (some passed.length) after := by
  obtain ⟨before, here, after, front, back, split, passed', ahead', stands⟩ := place
  refine ⟨_, if_pos right, ?_⟩
  apply Follows.inFront _ rfl direction rfl
  · exact ahead
  · exact ⟨before, here, after, front, back, split, passed', ahead', stands.logfiles,
      stands.records, stands.index, stands.place⟩

/-- A cursor has no file open, or the one of its files that it is at. -/
def LogCursor.Sound (lc : LogCursor) : Prop :=
  ∀ fp, lc.curFp = some fp → fp.index = lc.curLogfilesIndex ∧ fp.index < lc.logfiles.length

/-- A cursor without an open file is sound. -/
theorem closed_sound (closed : lc.curFp = none) : lc.Sound :=
  fun fp found => by simp [closed] at found

/-- A cursor that stands in a file is sound. -/
theorem Standing.sound {before after : List WrittenFile} {here : WrittenFile}
    {front back : List LogRecord} (stands : Standing before here after front back lc) :
    lc.Sound := by
  intro fp found
  rw [stands.place] at found
  cases found
  refine ⟨stands.index.symm, ?_⟩
  rw [stands.logfiles]
  simp

/-- A cursor that follows another is sound. -/
theorem Follows.sound {current : Option Nat} (follows : Follows files current lc) :
    lc.logfiles = files.map WrittenFile.bytes ∧ lc.Sound := by
  -- A cursor that stands nowhere has no file open.
  cases follows with
  | fresh logfiles _ closed => exact ⟨logfiles, closed_sound closed⟩
  | behind place _ _ _ =>
    refine ⟨place.records.2, ?_⟩
    obtain ⟨_, _, _, _, _, _, _, _, stands⟩ := place
    exact stands.sound
  | inFront place _ _ _ =>
    refine ⟨place.records.2, ?_⟩
    obtain ⟨_, _, _, _, _, _, _, _, stands⟩ := place
    exact stands.sound

end Places

section Jumps

variable {files : List WrittenFile} {lc opened moved : LogCursor} {current : Option Nat}
  {entry : Option LogEntry}

/-- The first entry is the one that is read from the first file on. -/
theorem tokuLogcursorFirst_eq
    (file : LogCursor.openOnly { lc with entryValid := false } 0 = .ok (opened, true))
    (read : LogCursor.lcLogRead opened.logfiles.length opened = .ok (moved, entry)) :
    lc.tokuLogcursorFirst = .ok (moved.returnEntry .first entry) := by
  simp only [LogCursor.tokuLogcursorFirst, file]
  show (LogCursor.lcLogRead opened.logfiles.length opened >>= _) = _
  rw [read]
  rfl

/-- The last entry is the one that is read from the last file back. -/
theorem tokuLogcursorLast_eq
    (file : LogCursor.openOnly { lc with entryValid := false } (lc.logfiles.length - 1) =
      .ok (opened, true))
    (read : LogCursor.lastOfFiles opened.logfiles.length opened = .ok (moved, entry)) :
    lc.tokuLogcursorLast = .ok (moved.returnEntry .last entry) := by
  simp only [LogCursor.tokuLogcursorLast, file]
  show (LogCursor.lastOfFiles opened.logfiles.length opened >>= _) = _
  rw [read]
  rfl

/-- Without files nothing is opened. -/
theorem openOnly_nowhere (logfiles : lc.logfiles = []) (closed : lc.curFp = none) (index : Nat) :
    ∃ kept, LogCursor.openOnly { lc with entryValid := false } index = .ok (kept, false) ∧
      Follows [] none kept := by
  refine ⟨_, openOnly_none closed logfiles, ?_⟩
  split
  · exact .fresh logfiles rfl rfl
  · exact .fresh logfiles rfl closed

/-- A cursor over no files has none open. -/
theorem closed_nowhere (logfiles : lc.logfiles = []) (sound : lc.Sound) : lc.curFp = none := by
  cases here : lc.curFp with
  | none => rfl
  | some fp =>
    have inside := (sound fp here).2
    simp [logfiles] at inside

/-- The last file is opened, or it is open. -/
theorem openOnly_last {others : List Bytes} {version : Nat} {rest : Bytes}
    (logfiles : lc.logfiles = others ++ [logHeader version ++ rest])
    (bounds : tokuLogMinSupportedVersion ≤ version ∧ version ≤ tokuLogVersion)
    (sound : lc.Sound) :
    ∃ opened pos, LogCursor.openOnly { lc with entryValid := false } (lc.logfiles.length - 1) =
        .ok (opened, true) ∧ opened.logfiles = lc.logfiles ∧
      opened.curLogfilesIndex = others.length ∧ opened.curFp = some ⟨others.length, pos⟩ ∧
      opened.entryValid = false := by
  -- The last file may be open already, and then it stays where it was read.
  have length : lc.logfiles.length - 1 = others.length := by
    rw [logfiles]
    simp
  rw [length]
  by_cases elsewhere : lc.curFp = none ∨ lc.curLogfilesIndex ≠ others.length
  · exact ⟨_, _, openOnly_opens elsewhere (logfile_found logfiles) bounds, rfl, rfl, rfl, rfl⟩
  · rw [not_or] at elsewhere
    have index : lc.curLogfilesIndex = others.length := by omega
    obtain ⟨fp, found⟩ := Option.ne_none_iff_exists'.mp elsewhere.1
    have same : fp.index = others.length := (sound fp found).1.trans index
    have isOpen : lc.curFp.isSome := by simp [found]
    refine ⟨_, fp.pos, openOnly_stays isOpen index, rfl, index, ?_, rfl⟩
    show lc.curFp = _
    rw [found, ← same]

/-- Going to the first entry returns it, unless the first file is open behind its start. -/
theorem first_follows (logfiles : lc.logfiles = files.map WrittenFile.bytes)
    (sound : lc.Sound) (clear : lc.Clear .first) :
    ∃ moved, lc.tokuLogcursorFirst =
        .ok (moved, .ofOption ((ListCursor.first (recordsOf files)).2.map LogRecord.entry)) ∧
      Follows files (ListCursor.first (recordsOf files)).1 moved := by
  cases files with
  | nil =>
    obtain ⟨kept, file, follows⟩ := openOnly_nowhere logfiles (closed_nowhere logfiles sound) 0
    refine ⟨kept, ?_, follows⟩
    simp only [LogCursor.tokuLogcursorFirst, file]
    rfl
  | cons here after =>
    -- The first file is opened at its start, or it is open there.
    have file : ∃ opened,
      LogCursor.openOnly { lc with entryValid := false } 0 = .ok (opened, true) ∧
        Standing [] here after [] here.records opened ∧ opened.entryValid = false := by
      by_cases elsewhere : lc.curFp = none ∨ lc.curLogfilesIndex ≠ 0
      · have found : lc.logfiles[0]? = some here.bytes := by
          rw [logfiles]
          rfl
        exact ⟨_, openOnly_opens elsewhere found here.supported, ⟨logfiles, rfl, rfl, rfl⟩, rfl⟩
      · rw [not_or] at elsewhere
        have isOpen : lc.curFp.isSome := Option.isSome_iff_ne_none.mpr elsewhere.1
        have index : lc.curLogfilesIndex = 0 := by omega
        refine ⟨_, openOnly_stays isOpen index, ⟨logfiles, rfl, index, ?_⟩, rfl⟩
        obtain ⟨⟨number, pos⟩, found⟩ := Option.ne_none_iff_exists'.mp elsewhere.1
        have start : pos = logHeaderEnd := clear _ found index
        have zero : number = 0 := (sound _ found).1.trans index
        show lc.curFp = _
        rw [found, zero, start]
        rfl
    obtain ⟨opened, file, stands, invalid⟩ := file
    have enough : after.length < opened.logfiles.length := by
      rw [stands.logfiles]
      simp
    cases records : recordsOf (here :: after) with
    | nil =>
      -- No file has an entry.
      rw [recordsOf_cons, List.append_eq_nil_iff] at records
      rw [records.1] at stands
      obtain ⟨moved, read, closed, same⟩ := lcLogRead_end after stands enough records.2
      refine ⟨moved, tokuLogcursorFirst_eq file read, .fresh ?_ ?_ closed⟩
      · rw [same.logfiles, stands.logfiles]
        rfl
      · rw [same.entryValid, invalid]
    | cons record ahead =>
      obtain ⟨moved, read, passed, same⟩ := lcLogRead_ahead after stands enough records
      obtain ⟨last, returned, follows⟩ :=
        returnEntry_behind passed (.inr rfl : LcDirection.first = .forward ∨ _) rfl
      exact ⟨last, (tokuLogcursorFirst_eq file read).trans (congrArg Except.ok returned), follows⟩

/-- With the last file open, its last entry or that of a file before is read and returned. -/
theorem lastOfFiles_follows {before : List WrittenFile} {here : WrittenFile}
    (openAt : OpenAt before here [] opened) (invalid : opened.entryValid = false) :
    ∃ moved entry after, LogCursor.lastOfFiles opened.logfiles.length opened = .ok (moved, entry) ∧
      moved.returnEntry .last entry = (after, .ofOption
        ((ListCursor.last (recordsOf (before ++ [here]))).2.map LogRecord.entry)) ∧
      Follows (before ++ [here]) (ListCursor.last (recordsOf (before ++ [here]))).1 after := by
  have stands := openAt.seekEnd
  have enough : before.length < opened.logfiles.length := by
    rw [openAt.logfiles]
    simp
  have backward := lastOfFiles_eq opened.logfiles.length openAt
  have all : recordsOf (before ++ [here]) = recordsOf before ++ here.records := by simp
  rcases List.eq_nil_or_concat (recordsOf (before ++ [here])) with empty | ⟨passed, record, filled⟩
  · -- No file has an entry.
    rw [all] at empty
    obtain ⟨noneBefore, noneHere⟩ := List.append_eq_nil_iff.mp empty
    rw [noneHere] at stands
    obtain ⟨moved, read, closed, same⟩ := lcLogReadBackward_start before stands enough noneBefore
    rw [all, empty]
    refine ⟨moved, none, moved, backward.trans read, rfl, .fresh ?_ ?_ closed⟩
    · rw [same.logfiles]
      exact openAt.logfiles
    · rw [same.entryValid]
      exact invalid
  · rw [List.concat_eq_append] at filled
    obtain ⟨moved, read, ahead, same⟩ :=
      lcLogReadBackward_passed before stands enough (all.symm.trans filled)
    obtain ⟨last, returned, follows⟩ :=
      returnEntry_inFront ahead (.inr rfl : LcDirection.last = .backward ∨ _) rfl
    rw [filled, ListCursor.last_append]
    exact ⟨moved, _, last, backward.trans read, returned, follows⟩

/-- Going to the last entry returns it. -/
theorem last_follows (logfiles : lc.logfiles = files.map WrittenFile.bytes)
    (sound : lc.Sound) :
    ∃ moved, lc.tokuLogcursorLast =
        .ok (moved, .ofOption ((ListCursor.last (recordsOf files)).2.map LogRecord.entry)) ∧
      Follows files (ListCursor.last (recordsOf files)).1 moved := by
  -- Files without entries at the end are passed over.
  rcases List.eq_nil_or_concat files with empty | ⟨before, here, filled⟩
  · subst empty
    obtain ⟨kept, file, follows⟩ := openOnly_nowhere logfiles (closed_nowhere logfiles sound)
      (lc.logfiles.length - 1)
    refine ⟨kept, ?_, follows⟩
    simp only [LogCursor.tokuLogcursorLast, file]
    rfl
  · rw [List.concat_eq_append] at filled
    subst filled
    rw [List.map_append] at logfiles
    obtain ⟨opened, pos, file, same, index, place, invalid⟩ :=
      openOnly_last logfiles here.supported sound
    rw [List.length_map] at index place
    have openAt : OpenAt before here [] opened :=
      ⟨by rw [same, logfiles, List.map_append], index, pos, place⟩
    obtain ⟨moved, entry, last, read, returned, follows⟩ := lastOfFiles_follows openAt invalid
    exact ⟨last, (tokuLogcursorLast_eq file read).trans (congrArg Except.ok returned), follows⟩

end Jumps

section Moves

variable {files : List WrittenFile} {passed ahead : List LogRecord} {record : LogRecord}
  {lc : LogCursor} {current : Option Nat}

/-- Behind an entry, the next one is read and returned. -/
theorem JustPassed.reads_on (place : JustPassed files passed record ahead lc)
    (invalid : lc.entryValid = false) (lsn : lc.curLsn = record.entry.lsn)
    (consecutive : Consecutive (recordsOf files)) :
    ∃ moved entry after, LogCursor.lcLogRead lc.logfiles.length lc = .ok (moved, entry) ∧
      moved.returnEntry .forward entry = (after, .ofOption
        ((ListCursor.next (recordsOf files) (some passed.length)).2.map LogRecord.entry)) ∧
      Follows files (ListCursor.next (recordsOf files) (some passed.length)).1 after := by
  -- The entry may be in this file, or in one of those behind it.
  obtain ⟨records, logfiles⟩ := place.records
  obtain ⟨before, here, after, front, back, split, passed', ahead', stands⟩ := place
  have enough : after.length < lc.logfiles.length := by
    rw [stands.logfiles]
    simp
    omega
  rw [records] at consecutive ⊢
  cases ahead with
  | nil =>
    obtain ⟨noBack, noneAfter⟩ := List.append_eq_nil_iff.mp ahead'.symm
    subst noBack
    obtain ⟨moved, read, closed, same⟩ := lcLogRead_end after stands enough noneAfter
    rw [ListCursor.next_end]
    refine ⟨moved, none, moved, read, rfl, .fresh ?_ ?_ closed⟩
    · rw [same.logfiles, logfiles]
    · rw [same.entryValid, invalid]
  | cons other ahead =>
    obtain ⟨moved, read, behind, same⟩ := lcLogRead_ahead after stands enough ahead'.symm
    have right : moved.lcCheckLsn .forward other.entry.lsn := by
      show decide (other.entry.lsn = moved.curLsn + 1) = true
      rw [same.curLsn, lsn, consecutive.next]
      exact decide_eq_true rfl
    obtain ⟨last, returned, follows⟩ :=
      returnEntry_behind behind (.inl rfl : LcDirection.forward = .forward ∨ _) right
    have length : (recordsOf before ++ (front ++ [record])).length = passed.length + 1 := by
      rw [passed']
      simp only [List.length_append, List.length_singleton, Nat.add_assoc]
    rw [ListCursor.next_ahead]
    rw [length, ← split] at follows
    exact ⟨moved, _, last, read, returned, follows⟩

/-- In front of an entry, the one before is read and returned. -/
theorem JustAhead.reads_back (place : JustAhead files passed record ahead lc)
    (invalid : lc.entryValid = false) (lsn : lc.curLsn = record.entry.lsn)
    (consecutive : Consecutive (recordsOf files)) :
    ∃ moved entry after, LogCursor.lcLogReadBackward lc.logfiles.length lc = .ok (moved, entry) ∧
      moved.returnEntry .backward entry = (after, .ofOption
        ((ListCursor.prev (recordsOf files) (some passed.length)).2.map LogRecord.entry)) ∧
      Follows files (ListCursor.prev (recordsOf files) (some passed.length)).1 after := by
  -- The entry may be in this file, or in one of those in front of it.
  obtain ⟨records, logfiles⟩ := place.records
  obtain ⟨before, here, after, front, back, split, passed', ahead', stands⟩ := place
  have enough : before.length < lc.logfiles.length := by
    rw [stands.logfiles]
    simp
  rw [records] at consecutive ⊢
  rcases List.eq_nil_or_concat passed with empty | ⟨init, other, filled⟩
  · subst empty
    obtain ⟨noneBefore, noFront⟩ := List.append_eq_nil_iff.mp passed'.symm
    subst noFront
    obtain ⟨moved, read, closed, same⟩ := lcLogReadBackward_start before stands enough noneBefore
    refine ⟨moved, none, moved, read, rfl, .fresh ?_ ?_ closed⟩
    · rw [same.logfiles, logfiles]
    · rw [same.entryValid, invalid]
  · rw [List.concat_eq_append] at filled
    subst filled
    obtain ⟨moved, read, inFront, same⟩ :=
      lcLogReadBackward_passed before stands enough passed'.symm
    rw [List.append_assoc] at consecutive
    have follow : record.entry.lsn = other.entry.lsn + 1 := Consecutive.next consecutive
    have right : moved.lcCheckLsn .backward other.entry.lsn := by
      show decide (other.entry.lsn = moved.curLsn - 1) = true
      rw [same.curLsn, lsn, follow]
      exact decide_eq_true (by grind)
    obtain ⟨last, returned, follows⟩ :=
      returnEntry_inFront inFront (.inl rfl : LcDirection.backward = .backward ∨ _) right
    rw [List.length_append, List.length_singleton, List.append_assoc, List.singleton_append,
      ListCursor.prev_passed]
    rw [← split] at follows
    exact ⟨moved, _, last, read, returned, follows⟩

/-- Standing in front of an entry, a cursor passes it by reading it. -/
theorem JustAhead.passes (place : JustAhead files passed record ahead lc) :
    ∃ moved, lc.passAgain LogCursor.fread = .ok moved ∧
      JustPassed files passed record ahead moved ∧ SameButPlace lc moved := by
  obtain ⟨before, here, after, front, back, split, passed', ahead', stands⟩ := place
  obtain ⟨moved, read, stands, same⟩ := stands.fread_ahead
  refine ⟨moved, ?_, ⟨before, here, after, front, back, split, passed', ahead', stands⟩, same⟩
  simp only [LogCursor.passAgain, read]

section

variable (place : JustPassed files passed record ahead lc)
include place

/-- Standing behind an entry, a cursor gets in front of it by reading it backward. -/
theorem JustPassed.passesBack :
    ∃ moved, lc.passAgain LogCursor.freadBackward = .ok moved ∧
      JustAhead files passed record ahead moved ∧ SameButPlace lc moved := by
  obtain ⟨before, here, after, front, back, split, passed', ahead', stands⟩ := place
  obtain ⟨moved, read, stands, same⟩ := stands.freadBackward_passed
  refine ⟨moved, ?_, ⟨before, here, after, front, back, split, passed', ahead', stands⟩, same⟩
  simp only [LogCursor.passAgain, read]

/-- Where a cursor stands does not depend on whether it has a current entry. -/
theorem JustPassed.forget :
    JustPassed files passed record ahead { lc with entryValid := false } := by
  obtain ⟨before, here, after, front, back, split, passed', ahead', stands⟩ := place
  exact ⟨before, here, after, front, back, split, passed', ahead', stands.logfiles,
    stands.records, stands.index, stands.place⟩

end

/-- The same holds in front of an entry. -/
theorem JustAhead.forget (place : JustAhead files passed record ahead lc) :
    JustAhead files passed record ahead { lc with entryValid := false } := by
  obtain ⟨before, here, after, front, back, split, passed', ahead', stands⟩ := place
  exact ⟨before, here, after, front, back, split, passed', ahead', stands.logfiles,
    stands.records, stands.index, stands.place⟩

section

variable (consecutive : Consecutive (recordsOf files)) (follows : Follows files current lc)
include consecutive follows

/-- Going on returns the next entry, unless the current one was jumped to as the last. -/
theorem next_follows (clear : lc.Clear .next) :
    ∃ moved, lc.tokuLogcursorNext = .ok (moved, .ofOption
        ((ListCursor.next (recordsOf files) current).2.map LogRecord.entry)) ∧
      Follows files (ListCursor.next (recordsOf files) current).1 moved := by
  cases follows with
  | fresh logfiles invalid closed =>
    have nothing : lc.Clear .first := fun fp found => by simp [closed] at found
    have first := first_follows logfiles (closed_sound closed) nothing
    rw [LogCursor.tokuLogcursorNext, invalid]
    exact first
  | @behind passed ahead record _ place valid direction lsn =>
    -- The file is behind the current entry already.
    have ready : lc.lastDirection ≠ .backward := by
      intro wrong
      rw [wrong] at direction
      simp at direction
    obtain ⟨moved, entry, after, read, returned, follows⟩ :=
      place.forget.reads_on rfl lsn consecutive
    refine ⟨after, ?_, follows⟩
    rw [LogCursor.tokuLogcursorNext, if_pos valid, ← returned]
    simp only [if_neg ready]
    show (LogCursor.lcLogRead lc.logfiles.length _ >>= _) = _
    rw [read]
    rfl
  | @inFront passed ahead record _ place valid direction lsn =>
    -- The file is in front of the current entry, which is read once more.
    have back : lc.lastDirection = .backward := direction.resolve_right (clear valid)
    obtain ⟨passes, again, behind, same⟩ := place.forget.passes
    obtain ⟨moved, entry, after, read, returned, follows⟩ :=
      behind.reads_on same.entryValid (same.curLsn.trans lsn) consecutive
    refine ⟨after, ?_, follows⟩
    rw [LogCursor.tokuLogcursorNext, if_pos valid, ← returned]
    simp only [if_pos back, again]
    show (LogCursor.lcLogRead passes.logfiles.length _ >>= _) = _
    rw [read]
    rfl

/-- Going back returns the entry before, unless the current one was jumped to as the first. -/
theorem prev_follows (clear : lc.Clear .prev) :
    ∃ moved, lc.tokuLogcursorPrev = .ok (moved, .ofOption
        ((ListCursor.prev (recordsOf files) current).2.map LogRecord.entry)) ∧
      Follows files (ListCursor.prev (recordsOf files) current).1 moved := by
  cases follows with
  | fresh logfiles invalid closed =>
    have last := last_follows logfiles (closed_sound closed)
    rw [LogCursor.tokuLogcursorPrev, invalid]
    exact last
  | @behind passed ahead record _ place valid direction lsn =>
    -- The file is behind the current entry, which is read once more.
    have forth : lc.lastDirection = .forward := direction.resolve_right (clear valid)
    obtain ⟨passes, again, inFront, same⟩ := place.forget.passesBack
    obtain ⟨moved, entry, after, read, returned, follows⟩ :=
      inFront.reads_back same.entryValid (same.curLsn.trans lsn) consecutive
    refine ⟨after, ?_, follows⟩
    rw [LogCursor.tokuLogcursorPrev, if_pos valid, ← returned]
    simp only [if_pos forth, again]
    show (LogCursor.lcLogReadBackward passes.logfiles.length _ >>= _) = _
    rw [read]
    rfl
  | @inFront passed ahead record _ place valid direction lsn =>
    -- The file is in front of the current entry already.
    have ready : lc.lastDirection ≠ .forward := by
      intro wrong
      rw [wrong] at direction
      simp at direction
    obtain ⟨moved, entry, after, read, returned, follows⟩ :=
      place.forget.reads_back rfl lsn consecutive
    refine ⟨after, ?_, follows⟩
    rw [LogCursor.tokuLogcursorPrev, if_pos valid, ← returned]
    simp only [if_neg ready]
    show (LogCursor.lcLogReadBackward lc.logfiles.length _ >>= _) = _
    rw [read]
    rfl

end

/-- A clear call returns what the cursor over all entries returns, and follows it. -/
theorem call_follows (consecutive : Consecutive (recordsOf files))
    (follows : Follows files current lc) {asked : CursorCall} (clear : lc.Clear asked) :
    ∃ moved, lc.call asked = .ok (moved, .ofOption
        ((ListCursor.call (recordsOf files) current asked).2.map LogRecord.entry)) ∧
      Follows files (ListCursor.call (recordsOf files) current asked).1 moved := by
  -- One case for each call.
  cases asked with
  | first =>
    obtain ⟨logfiles, sound⟩ := follows.sound
    exact first_follows logfiles sound clear
  | last =>
    obtain ⟨logfiles, sound⟩ := follows.sound
    exact last_follows logfiles sound
  | next => exact next_follows consecutive follows clear
  | prev => exact prev_follows consecutive follows clear

/-- While all calls are clear, they return what the cursor over all entries returns. -/
theorem answers_follow (consecutive : Consecutive (recordsOf files)) :
    ∀ (calls : List CursorCall) {current : Option Nat} {lc : LogCursor},
      Follows files current lc → lc.AllClear calls →
        lc.answers calls = .ok ((ListCursor.answers (recordsOf files) current calls).map
          fun answer => .ofOption (answer.map LogRecord.entry)) := by
  -- By induction on the calls.
  intro calls
  induction calls with
  | nil => intros; rfl
  | cons asked calls ih =>
    intro current lc follows clear
    obtain ⟨here, later⟩ := clear
    obtain ⟨moved, done, follows'⟩ := call_follows consecutive follows here
    rw [done] at later
    rw [LogCursor.answers, done]
    show (moved.answers calls >>= _) = _
    rw [ih follows' later]
    rfl

end Moves

/-- Over written files whose sequence numbers follow each other, calls that are all clear return
what a cursor over the list of all entries returns. -/
theorem logCursor_follows (files : List WrittenFile) (consecutive : Consecutive (recordsOf files))
    (calls : List CursorCall)
    (clear : (LogCursor.create (files.map WrittenFile.bytes)).AllClear calls) :
    (LogCursor.create (files.map WrittenFile.bytes)).answers calls =
      .ok ((ListCursor.answers ((recordsOf files).map LogRecord.entry) none calls).map
        LogCursorResult.ofOption) := by
  rw [ListCursor.answers_map, List.map_map]
  exact answers_follow consecutive calls (.fresh rfl rfl rfl) clear

/-- The entry of a shutdown. -/
def shutdownEntry (lsn : UInt64) : LogEntry where
  type := ⟨"shutdown", '0', [⟨.uint64, "timestamp"⟩, ⟨.txnid, "last_xid"⟩]⟩
  lsn := lsn
  values := ((7 : UInt64), (9 : UInt64), ())

/-- The entry of a shutdown, as it is written. -/
def shutdownRecord (lsn : UInt64) : LogRecord where
  entry := (shutdownEntry lsn).logged 5
  bytes := (shutdownEntry lsn).bytes 5 37
  written := by
    have known : (shutdownEntry lsn).type ∈ logtypes := by
      show (⟨"shutdown", '0', [⟨.uint64, "timestamp"⟩, ⟨.txnid, "last_xid"⟩]⟩ : LogType) ∈ logtypes
      decide +kernel
    exact ⟨5, shutdownEntry lsn, known, tokuLog_eq rfl (by decide), rfl⟩

/-- A log file with two entries. -/
def twoShutdowns : WrittenFile := ⟨29, [shutdownRecord 1, shutdownRecord 2], by decide⟩

/-- Two entries are returned forward, and the first of them backward. -/
theorem logCursor_follows_two :
    (LogCursor.create [twoShutdowns.bytes]).answers [.next, .next, .prev, .prev] =
      .ok [.entry (shutdownRecord 1).entry, .entry (shutdownRecord 2).entry,
        .entry (shutdownRecord 1).entry, .notFound] := by
  have consecutive : Consecutive (recordsOf [twoShutdowns]) :=
    List.isChain_cons_cons.mpr ⟨rfl, List.isChain_singleton _⟩
  exact logCursor_follows [twoShutdowns] consecutive [.next, .next, .prev, .prev]
    (by decide +kernel)

/-- The cursor over two shutdown entries answers calls as a cursor over the list of them. -/
def TwoShutdownsFollowed (calls : List CursorCall) : Prop :=
  (LogCursor.create [twoShutdowns.bytes]).answers calls =
    .ok ((ListCursor.answers ((recordsOf [twoShutdowns]).map LogRecord.entry) none calls).map
      LogCursorResult.ofOption)

/-- Going to the first entry twice returns another entry, and so do going on from the last entry
and going back from the first. -/
theorem logCursor_repeats :
    ¬ TwoShutdownsFollowed [.first, .first] ∧ ¬ TwoShutdownsFollowed [.last, .next] ∧
      ¬ TwoShutdownsFollowed [.first, .prev] := by
  have apart : ∀ calls ∈ ([[.first, .first], [.last, .next], [.first, .prev]] :
      List (List CursorCall)),
      ((LogCursor.create [twoShutdowns.bytes]).answers calls).toOption ≠
        some ((ListCursor.answers ((recordsOf [twoShutdowns]).map LogRecord.entry) none calls).map
          LogCursorResult.ofOption) := by
    decide +kernel
  refine ⟨fun same => ?_, fun same => ?_, fun same => ?_⟩
  · exact apart _ (by simp) (congrArg Except.toOption same)
  · exact apart _ (by simp) (congrArg Except.toOption same)
  · exact apart _ (by simp) (congrArg Except.toOption same)

end Tokuft
