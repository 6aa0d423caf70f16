import Tokuft.Logger.LogFiles

/-! Where a cursor stands in written files, and what it reads from there. -/

namespace Tokuft

/-- The entries of files, in order. -/
def recordsOf (files : List WrittenFile) : List LogRecord := files.flatMap WrittenFile.records

/-- The entries of files come in the order of the files. -/
@[simp] theorem recordsOf_append (files others : List WrittenFile) :
    recordsOf (files ++ others) = recordsOf files ++ recordsOf others := List.flatMap_append

/-- The entries of a file come before those of the files behind it. -/
@[simp] theorem recordsOf_cons (file : WrittenFile) (files : List WrittenFile) :
    recordsOf (file :: files) = file.records ++ recordsOf files := rfl

/-- No files have no entries. -/
@[simp] theorem recordsOf_nil : recordsOf [] = [] := rfl

/-- A cursor stands in a file, between some entries of it and others. -/
structure Standing (before : List WrittenFile) (here : WrittenFile) (after : List WrittenFile)
    (passed ahead : List LogRecord) (lc : LogCursor) : Prop where
  logfiles : lc.logfiles = (before ++ here :: after).map WrittenFile.bytes
  records : here.records = passed ++ ahead
  index : lc.curLogfilesIndex = before.length
  place : lc.curFp =
    some ⟨before.length, (logHeader here.version ++ recordBytes passed).length⟩

/-- Two cursors differ at most in where they stand. -/
structure SameButPlace (lc moved : LogCursor) : Prop where
  logfiles : moved.logfiles = lc.logfiles
  entryValid : moved.entryValid = lc.entryValid
  curLsn : moved.curLsn = lc.curLsn
  lastDirection : moved.lastDirection = lc.lastDirection

/-- Moves follow each other. -/
theorem SameButPlace.trans {lc moved again : LogCursor} (first : SameButPlace lc moved)
    (second : SameButPlace moved again) : SameButPlace lc again where
  logfiles := second.logfiles.trans first.logfiles
  entryValid := second.entryValid.trans first.entryValid
  curLsn := second.curLsn.trans first.curLsn
  lastDirection := second.lastDirection.trans first.lastDirection

/-- A cursor stands behind an entry, in the file of the entry. -/
def JustPassed (files : List WrittenFile) (passed : List LogRecord) (record : LogRecord)
    (ahead : List LogRecord) (lc : LogCursor) : Prop :=
  ∃ before here after front back, files = before ++ here :: after ∧
    passed = recordsOf before ++ front ∧ ahead = back ++ recordsOf after ∧
    Standing before here after (front ++ [record]) back lc

/-- A cursor stands in front of an entry, in the file of the entry. -/
def JustAhead (files : List WrittenFile) (passed : List LogRecord) (record : LogRecord)
    (ahead : List LogRecord) (lc : LogCursor) : Prop :=
  ∃ before here after front back, files = before ++ here :: after ∧
    passed = recordsOf before ++ front ∧ ahead = back ++ recordsOf after ∧
    Standing before here after front (record :: back) lc

section Places

variable {before after : List WrittenFile} {here : WrittenFile} {passed ahead : List LogRecord}
  {record : LogRecord} {lc : LogCursor}

/-- The file in which a cursor stands is the one that is read. -/
theorem Standing.content (stands : Standing before here after passed ahead lc) :
    lc.logfiles.getD before.length [] =
      (logHeader here.version ++ recordBytes passed) ++ recordBytes ahead := by
  rw [stands.logfiles, List.map_append, List.map_cons, List.getD_eq_getElem?_getD,
    List.getElem?_append_right (by simp), List.length_map, Nat.sub_self]
  simp [WrittenFile.bytes, stands.records]

/-- The entry ahead is read, and passed. -/
theorem Standing.fread_ahead (stands : Standing before here after passed (record :: ahead) lc) :
    ∃ moved, lc.fread = .ok (moved, some record.entry) ∧
      Standing before here after (passed ++ [record]) ahead moved ∧ SameButPlace lc moved := by
  -- Where the cursor stands, the bytes of the entry ahead begin.
  have read := tokuLogFread_record record (logHeader here.version ++ recordBytes passed)
    (recordBytes ahead)
  rw [← recordBytes_cons, ← stands.content] at read
  refine ⟨{ lc with
    curFp := some ⟨before.length,
      (logHeader here.version ++ recordBytes passed).length + record.bytes.length⟩ }, ?_,
    ⟨stands.logfiles, ?_, stands.index, ?_⟩, ⟨rfl, rfl, rfl, rfl⟩⟩
  · simp only [LogCursor.fread, stands.place, read]
  · rw [stands.records, List.append_assoc]
    rfl
  · simp only [recordBytes_append, recordBytes_cons, recordBytes_nil, List.append_nil,
      List.length_append, Nat.add_assoc]

/-- With nothing ahead in a file, its end is found. -/
theorem Standing.fread_end (stands : Standing before here after passed [] lc) :
    lc.fread = .ok (lc, none) := by
  have read := tokuLogFread_end (logHeader here.version ++ recordBytes passed)
  have content := stands.content
  rw [recordBytes_nil, List.append_nil] at content
  rw [← content] at read
  rw [content] at read
  simp only [LogCursor.fread, stands.place, content, read]

/-- The entry that was passed last is read backward. -/
theorem Standing.freadBackward_passed
    (stands : Standing before here after (passed ++ [record]) ahead lc) :
    ∃ moved, lc.freadBackward = .ok (moved, some record.entry) ∧
      Standing before here after passed (record :: ahead) moved ∧ SameButPlace lc moved := by
  -- The length at the end of an entry leads back to where it begins.
  have read := tokuLogFreadBackward_record record (logHeader here.version ++ recordBytes passed)
    (by rw [List.length_append, logHeader_length]; omega) (recordBytes ahead)
  have content := stands.content
  have place := stands.place
  simp only [recordBytes_append, recordBytes_cons, recordBytes_nil, List.append_nil,
    List.append_assoc] at content place
  simp only [List.append_assoc] at read
  have length : (logHeader here.version ++ (recordBytes passed ++ record.bytes)).length =
      (logHeader here.version ++ recordBytes passed).length + record.bytes.length := by
    simp only [List.length_append]
    omega
  rw [← content, ← length] at read
  refine ⟨{ lc with
    curFp := some ⟨before.length, (logHeader here.version ++ recordBytes passed).length⟩ }, ?_,
    ⟨stands.logfiles, ?_, stands.index, rfl⟩, ⟨rfl, rfl, rfl, rfl⟩⟩
  · simp only [LogCursor.freadBackward, place, read]
  · rw [stands.records, List.append_assoc]
    rfl

/-- With nothing passed in a file, its start is found. -/
theorem Standing.freadBackward_start (stands : Standing before here after [] ahead lc) :
    lc.freadBackward = .ok (lc, none) := by
  have place := stands.place
  rw [recordBytes_nil, List.append_nil, logHeader_length] at place
  simp only [LogCursor.freadBackward, place, tokuLogFreadBackward_start]

/-- Going to the end of a file passes all its entries. -/
theorem Standing.seekEnd (stands : Standing before here after passed ahead lc) :
    Standing before here after here.records [] lc.seekEnd ∧ SameButPlace lc lc.seekEnd := by
  refine ⟨⟨stands.logfiles, by simp, stands.index, ?_⟩, ⟨rfl, rfl, rfl, rfl⟩⟩
  have content := stands.content
  rw [List.append_assoc, ← recordBytes_append, ← stands.records] at content
  simp only [LogCursor.seekEnd, stands.place, Option.map_some, content]

end Places

section Opening

variable {before after : List WrittenFile} {here : WrittenFile} {lc : LogCursor}

/-- Opening a file with a header leads to the end of the header. -/
theorem lcOpenLogfile_header {index version : Nat} {rest : Bytes} (closed : lc.curFp = none)
    (found : lc.logfiles[index]? = some (logHeader version ++ rest))
    (bounds : tokuLogMinSupportedVersion ≤ version ∧ version ≤ tokuLogVersion) :
    lc.lcOpenLogfile index = .ok ({ lc with curFp := some ⟨index, logHeaderEnd⟩ }, true) := by
  have long : ¬ (logHeader version ++ rest).length < logHeaderEnd := by
    rw [List.length_append, logHeader_length]
    omega
  have magic := tokuReadLogmagic_header bounds.2 rest
  have supported : ¬ (version < tokuLogMinSupportedVersion ∨ tokuLogVersion < version) := by
    omega
  simp only [LogCursor.lcOpenLogfile, closed, Option.isSome_none, Bool.false_eq_true, if_false,
    found, if_neg long, magic, if_neg supported]

/-- The file behind some others is found by its index. -/
theorem logfile_found {files others : List Bytes} {file : Bytes}
    (logfiles : lc.logfiles = files ++ file :: others) :
    lc.logfiles[files.length]? = some file := by
  rw [logfiles, List.getElem?_append_right (Nat.le_refl _), Nat.sub_self]
  rfl

/-- Opening a written file leads to the end of its header. -/
theorem lcOpenLogfile_written (closed : lc.curFp = none)
    (logfiles : lc.logfiles = (before ++ here :: after).map WrittenFile.bytes) :
    lc.lcOpenLogfile before.length =
      .ok ({ lc with curFp := some ⟨before.length, logHeaderEnd⟩ }, true) := by
  rw [List.map_append, List.map_cons] at logfiles
  have found := logfile_found logfiles
  rw [List.length_map] at found
  exact lcOpenLogfile_header closed found here.supported

/-- Another file than the one that is wanted is closed, and that one is opened. -/
theorem openOnly_opens {index version : Nat} {rest : Bytes}
    (elsewhere : lc.curFp = none ∨ lc.curLogfilesIndex ≠ index)
    (found : lc.logfiles[index]? = some (logHeader version ++ rest))
    (bounds : tokuLogMinSupportedVersion ≤ version ∧ version ≤ tokuLogVersion) :
    lc.openOnly index = .ok ({ lc with
      curFp := some ⟨index, logHeaderEnd⟩, curLogfilesIndex := index }, true) := by
  -- Whichever file was open before, none is open when the wanted one is opened.
  have closed : (if lc.curLogfilesIndex ≠ index then lc.lcCloseCurLogfile else lc).curFp =
    none := by
    by_cases other : lc.curLogfilesIndex = index
    · rw [if_neg (by simpa using other)]
      exact elsewhere.resolve_right fun wrong => wrong other
    · rw [if_pos other]
      rfl
  have same : ∀ fp index', { (if lc.curLogfilesIndex ≠ index then lc.lcCloseCurLogfile else lc) with
      curFp := fp, curLogfilesIndex := index' } =
        { lc with curFp := fp, curLogfilesIndex := index' } := by
    intro fp index'
    split <;> rfl
  have kept : (if lc.curLogfilesIndex ≠ index then lc.lcCloseCurLogfile else lc).logfiles =
      lc.logfiles := by
    split <;> rfl
  have opened := lcOpenLogfile_header closed (by rw [kept]; exact found) bounds
  simp only [LogCursor.openOnly]
  rw [if_neg (by rw [closed]; simp), opened]
  show Except.ok (_, true) = _
  rw [← same]

/-- The file that is wanted stays open. -/
theorem openOnly_stays {index : Nat} (isOpen : lc.curFp.isSome)
    (wanted : lc.curLogfilesIndex = index) : lc.openOnly index = .ok (lc, true) := by
  have kept : (if lc.curLogfilesIndex ≠ index then lc.lcCloseCurLogfile else lc) = lc :=
    if_neg (by simpa using wanted)
  simp only [LogCursor.openOnly, kept, if_pos isOpen]
  rfl

/-- Without files nothing is opened. -/
theorem openOnly_none {index : Nat} (closed : lc.curFp = none) (none : lc.logfiles = []) :
    lc.openOnly index = .ok (if lc.curLogfilesIndex ≠ index then lc.lcCloseCurLogfile else lc,
      false) := by
  -- No file is open, so that closing one changes nothing.
  have closed' : (if lc.curLogfilesIndex ≠ index then lc.lcCloseCurLogfile else lc).curFp =
      Option.none := by
    split
    · rfl
    · exact closed
  have none' : (if lc.curLogfilesIndex ≠ index then lc.lcCloseCurLogfile else lc).logfiles =
    [] := by
    split <;> exact none
  have opened : LogCursor.lcOpenLogfile
      (if lc.curLogfilesIndex ≠ index then lc.lcCloseCurLogfile else lc) index =
      .ok (if lc.curLogfilesIndex ≠ index then lc.lcCloseCurLogfile else lc, false) := by
    simp only [LogCursor.lcOpenLogfile, closed', none']
    rfl
  simp only [LogCursor.openOnly]
  rw [if_neg (by rw [closed']; simp), opened]
  rfl

end Opening

section Steps

variable {lc moved : LogCursor} {entry : LogEntry}

/-- An entry of the file that is open is read there. -/
theorem lcLogRead_found (read : lc.fread = .ok (moved, some entry)) (fuel : Nat) :
    LogCursor.lcLogRead (fuel + 1) lc = .ok (moved, some entry) := by
  rw [LogCursor.lcLogRead, read]
  rfl

/-- There is no entry behind the last file. -/
theorem lcLogRead_stops (read : lc.fread = .ok (lc, none))
    (last : lc.curLogfilesIndex + 1 = lc.logfiles.length) (fuel : Nat) :
    LogCursor.lcLogRead (fuel + 1) lc = .ok (lc.lcCloseCurLogfile, none) := by
  rw [LogCursor.lcLogRead, read]
  exact if_pos last

/-- Behind the end of a file the next one is read. -/
theorem lcLogRead_moves (read : lc.fread = .ok (lc, none))
    (more : lc.curLogfilesIndex + 1 ≠ lc.logfiles.length)
    (opened : LogCursor.lcOpenLogfile
      { lc with curFp := none, curLogfilesIndex := lc.curLogfilesIndex + 1 }
      (lc.curLogfilesIndex + 1) = .ok (moved, true)) (fuel : Nat) :
    LogCursor.lcLogRead (fuel + 1) lc = LogCursor.lcLogRead fuel moved := by
  rw [LogCursor.lcLogRead, read]
  refine (if_neg more).trans ?_
  show (LogCursor.lcOpenLogfile
    { lc with curFp := none, curLogfilesIndex := lc.curLogfilesIndex + 1 }
    (lc.curLogfilesIndex + 1) >>= _) = _
  rw [opened]
  rfl

/-- An entry that ends here is read backward. -/
theorem lcLogReadBackward_found (read : lc.freadBackward = .ok (moved, some entry)) (fuel : Nat) :
    LogCursor.lcLogReadBackward (fuel + 1) lc = .ok (moved, some entry) := by
  rw [LogCursor.lcLogReadBackward, read]
  rfl

/-- There is no entry in front of the first file. -/
theorem lcLogReadBackward_stops (read : lc.freadBackward = .ok (lc, none))
    (first : lc.curLogfilesIndex = 0) (fuel : Nat) :
    LogCursor.lcLogReadBackward (fuel + 1) lc = .ok (lc.lcCloseCurLogfile, none) := by
  rw [LogCursor.lcLogReadBackward, read]
  exact if_pos first

/-- In front of the start of a file the file before is read from its end. -/
theorem lcLogReadBackward_moves (read : lc.freadBackward = .ok (lc, none))
    (more : lc.curLogfilesIndex ≠ 0)
    (opened : LogCursor.lcOpenLogfile
      { lc with curFp := none, curLogfilesIndex := lc.curLogfilesIndex - 1 }
      (lc.curLogfilesIndex - 1) = .ok (moved, true)) (fuel : Nat) :
    LogCursor.lcLogReadBackward (fuel + 1) lc =
      LogCursor.lcLogReadBackward fuel moved.seekEnd := by
  rw [LogCursor.lcLogReadBackward, read]
  refine (if_neg more).trans ?_
  show (LogCursor.lcOpenLogfile
    { lc with curFp := none, curLogfilesIndex := lc.curLogfilesIndex - 1 }
    (lc.curLogfilesIndex - 1) >>= _) = _
  rw [opened]
  rfl

end Steps

section Loops

section

variable {before after : List WrittenFile} {here file : WrittenFile}

/-- The file behind the end of one is opened at its first entry. -/
theorem Standing.opens_next {passed : List LogRecord} {lc : LogCursor}
    (stands : Standing before here (file :: after) passed [] lc) (fuel : Nat) :
    ∃ moved, LogCursor.lcLogRead (fuel + 1) lc = LogCursor.lcLogRead fuel moved ∧
      Standing (before ++ [here]) file after [] file.records moved ∧ SameButPlace lc moved := by
  -- The file behind is the one with the next index.
  have logfiles : lc.logfiles = ((before ++ [here]) ++ file :: after).map WrittenFile.bytes := by
    rw [stands.logfiles]
    simp
  have length : (before ++ [here]).length = lc.curLogfilesIndex + 1 := by
    rw [stands.index]
    simp
  have more : lc.curLogfilesIndex + 1 ≠ lc.logfiles.length := by
    rw [logfiles, ← length]
    simp
  have opened : LogCursor.lcOpenLogfile
      { lc with curFp := none, curLogfilesIndex := lc.curLogfilesIndex + 1 }
      (before ++ [here]).length = _ := lcOpenLogfile_written rfl logfiles
  rw [length] at opened
  refine ⟨_, lcLogRead_moves stands.fread_end more opened fuel, ?_, ⟨rfl, rfl, rfl, rfl⟩⟩
  rw [← length]
  exact ⟨logfiles, rfl, rfl, rfl⟩

/-- The file in front of the start of one is opened at its last entry. -/
theorem Standing.opens_previous {ahead : List LogRecord} {lc : LogCursor}
    (stands : Standing (before ++ [file]) here after [] ahead lc) (fuel : Nat) :
    ∃ moved, LogCursor.lcLogReadBackward (fuel + 1) lc = LogCursor.lcLogReadBackward fuel moved ∧
      Standing before file (here :: after) file.records [] moved ∧ SameButPlace lc moved := by
  -- The file in front is the one with the index before.
  have logfiles : lc.logfiles = (before ++ file :: here :: after).map WrittenFile.bytes := by
    rw [stands.logfiles]
    simp
  have index : lc.curLogfilesIndex = before.length + 1 := by
    rw [stands.index]
    simp
  have length : before.length = lc.curLogfilesIndex - 1 := by omega
  have more : lc.curLogfilesIndex ≠ 0 := by omega
  have opened : LogCursor.lcOpenLogfile
      { lc with curFp := none, curLogfilesIndex := lc.curLogfilesIndex - 1 }
      before.length = _ := lcOpenLogfile_written rfl logfiles
  rw [length] at opened
  have stands' : Standing before file (here :: after) [] file.records
      { lc with
        curFp := some ⟨before.length, logHeaderEnd⟩
        curLogfilesIndex := lc.curLogfilesIndex - 1 } :=
    ⟨logfiles, rfl, length.symm, rfl⟩
  rw [length] at stands'
  obtain ⟨atEnd, same⟩ := stands'.seekEnd
  refine ⟨_, lcLogReadBackward_moves stands.freadBackward_start more opened fuel, ?_, ?_⟩
  · exact atEnd
  · exact ⟨rfl, rfl, rfl, rfl⟩

end

/-- The next entry is read, of a later file if need be. -/
theorem lcLogRead_ahead : ∀ (after : List WrittenFile) {before : List WrittenFile}
    {here : WrittenFile} {front back : List LogRecord} {lc : LogCursor} {fuel : Nat}
    {record : LogRecord} {ahead : List LogRecord},
    Standing before here after front back lc → after.length < fuel →
      back ++ recordsOf after = record :: ahead →
        ∃ moved, LogCursor.lcLogRead fuel lc = .ok (moved, some record.entry) ∧
          JustPassed (before ++ here :: after) (recordsOf before ++ front) record ahead moved ∧
          SameButPlace lc moved := by
  intro after
  induction after with
  | nil =>
    intro before here front back lc fuel record ahead stands enough split
    cases fuel with
    | zero => omega
    | succ fuel =>
      -- No file is behind this one, so the entry is in it.
      rw [recordsOf_nil, List.append_nil] at split
      subst split
      obtain ⟨moved, read, stands, same⟩ := stands.fread_ahead
      refine ⟨moved, lcLogRead_found read fuel, ?_, same⟩
      exact ⟨before, here, [], front, ahead, rfl, rfl, by simp, stands⟩
  | cons file after ih =>
    intro before here front back lc fuel record ahead stands enough split
    cases fuel with
    | zero => omega
    | succ fuel =>
      cases back with
      | cons first back =>
        rw [List.cons_append] at split
        injection split with same others
        subst same
        obtain ⟨moved, read, stands, same⟩ := stands.fread_ahead
        refine ⟨moved, lcLogRead_found read fuel, ?_, same⟩
        exact ⟨before, here, file :: after, front, back, rfl, rfl, others.symm, stands⟩
      | nil =>
        -- The file has ended, and the next one is opened.
        obtain ⟨opened, moves, stands', same⟩ := stands.opens_next fuel
        obtain ⟨moved, read, passed, same'⟩ := ih stands' (by simpa using enough) split
        refine ⟨moved, moves.trans read, ?_, same.trans same'⟩
        have whole : front = here.records := by rw [stands.records, List.append_nil]
        rw [whole]
        simpa using passed

/-- Without a next entry, the last file is closed. -/
theorem lcLogRead_end : ∀ (after : List WrittenFile) {before : List WrittenFile}
    {here : WrittenFile} {front : List LogRecord} {lc : LogCursor} {fuel : Nat},
    Standing before here after front [] lc → after.length < fuel → recordsOf after = [] →
      ∃ moved, LogCursor.lcLogRead fuel lc = .ok (moved, none) ∧ moved.curFp = none ∧
        SameButPlace lc moved := by
  intro after
  induction after with
  | nil =>
    intro before here front lc fuel stands enough empty
    cases fuel with
    | zero => omega
    | succ fuel =>
      have last : lc.curLogfilesIndex + 1 = lc.logfiles.length := by
        rw [stands.logfiles, stands.index]
        simp
      exact ⟨_, lcLogRead_stops stands.fread_end last fuel, rfl, ⟨rfl, rfl, rfl, rfl⟩⟩
  | cons file after ih =>
    intro before here front lc fuel stands enough empty
    cases fuel with
    | zero => omega
    | succ fuel =>
      -- The next file has no entries either.
      rw [recordsOf_cons, List.append_eq_nil_iff] at empty
      obtain ⟨opened, moves, stands', same⟩ := stands.opens_next fuel
      rw [empty.1] at stands'
      obtain ⟨moved, read, closed, same'⟩ := ih stands' (by simpa using enough) empty.2
      exact ⟨moved, moves.trans read, closed, same.trans same'⟩

/-- The entry before is read backward, of an earlier file if need be. -/
theorem lcLogReadBackward_passed : ∀ (before : List WrittenFile) {here : WrittenFile}
    {after : List WrittenFile} {front back : List LogRecord} {lc : LogCursor} {fuel : Nat}
    {record : LogRecord} {passed : List LogRecord},
    Standing before here after front back lc → before.length < fuel →
      recordsOf before ++ front = passed ++ [record] →
        ∃ moved, LogCursor.lcLogReadBackward fuel lc = .ok (moved, some record.entry) ∧
          JustAhead (before ++ here :: after) passed record (back ++ recordsOf after) moved ∧
          SameButPlace lc moved := by
  intro before
  induction before using List.reverseRecOn with
  | nil =>
    intro here after front back lc fuel record passed stands enough split
    cases fuel with
    | zero => omega
    | succ fuel =>
      -- No file is in front of this one, so the entry is in it.
      rw [recordsOf_nil, List.nil_append] at split
      subst split
      obtain ⟨moved, read, stands, same⟩ := stands.freadBackward_passed
      refine ⟨moved, lcLogReadBackward_found read fuel, ?_, same⟩
      exact ⟨[], here, after, passed, back, rfl, rfl, rfl, stands⟩
  | append_singleton before file ih =>
    intro here after front back lc fuel record passed stands enough split
    cases fuel with
    | zero => omega
    | succ fuel =>
      rcases List.eq_nil_or_concat front with empty | ⟨init, last, filled⟩
      · -- The start of the file is reached, and the file before is opened.
        subst empty
        obtain ⟨opened, moves, stands', same⟩ := stands.opens_previous fuel
        rw [List.append_nil, recordsOf_append, recordsOf_cons, recordsOf_nil, List.append_nil]
          at split
        obtain ⟨moved, read, ahead, same'⟩ := ih stands' (by
          rw [List.length_append] at enough
          simpa using enough) split
        refine ⟨moved, moves.trans read, ?_, same.trans same'⟩
        have whole : back = here.records := by rw [stands.records, List.nil_append]
        rw [whole]
        simpa using ahead
      · rw [List.concat_eq_append] at filled
        subst filled
        rw [← List.append_assoc] at split
        obtain ⟨others, same⟩ := List.append_inj' split rfl
        injection same with same _
        subst same
        obtain ⟨moved, read, stands, same⟩ := stands.freadBackward_passed
        refine ⟨moved, lcLogReadBackward_found read fuel, ?_, same⟩
        exact ⟨before ++ [file], here, after, init, back, rfl, others.symm, rfl, stands⟩

/-- Without an entry before, the first file is closed. -/
theorem lcLogReadBackward_start : ∀ (before : List WrittenFile) {here : WrittenFile}
    {after : List WrittenFile} {back : List LogRecord} {lc : LogCursor} {fuel : Nat},
    Standing before here after [] back lc → before.length < fuel → recordsOf before = [] →
      ∃ moved, LogCursor.lcLogReadBackward fuel lc = .ok (moved, none) ∧ moved.curFp = none ∧
        SameButPlace lc moved := by
  intro before
  induction before using List.reverseRecOn with
  | nil =>
    intro here after back lc fuel stands enough empty
    cases fuel with
    | zero => omega
    | succ fuel =>
      exact ⟨_, lcLogReadBackward_stops stands.freadBackward_start stands.index fuel, rfl,
        ⟨rfl, rfl, rfl, rfl⟩⟩
  | append_singleton before file ih =>
    intro here after back lc fuel stands enough empty
    cases fuel with
    | zero => omega
    | succ fuel =>
      -- The file before has no entries either.
      rw [recordsOf_append, recordsOf_cons, recordsOf_nil, List.append_nil,
        List.append_eq_nil_iff] at empty
      obtain ⟨opened, moves, stands', same⟩ := stands.opens_previous fuel
      rw [empty.2] at stands'
      obtain ⟨moved, read, closed, same'⟩ := ih stands' (by
        rw [List.length_append] at enough
        simpa using enough) empty.1
      exact ⟨moved, moves.trans read, closed, same.trans same'⟩

end Loops

section Last

variable {before after : List WrittenFile} {here : WrittenFile} {lc : LogCursor}

/-- A cursor has a file open, at some position. -/
structure OpenAt (before : List WrittenFile) (here : WrittenFile) (after : List WrittenFile)
    (lc : LogCursor) : Prop where
  logfiles : lc.logfiles = (before ++ here :: after).map WrittenFile.bytes
  index : lc.curLogfilesIndex = before.length
  place : ∃ pos, lc.curFp = some ⟨before.length, pos⟩

/-- Going to the end of the file that is open passes all its entries. -/
theorem OpenAt.seekEnd (isOpen : OpenAt before here after lc) :
    Standing before here after here.records [] lc.seekEnd := by
  -- The bytes of the file are its header and its entries, and nothing else.
  obtain ⟨pos, place⟩ := isOpen.place
  have found : lc.logfiles.getD before.length [] = here.bytes := by
    have logfiles := isOpen.logfiles
    rw [List.map_append, List.map_cons] at logfiles
    have found := logfile_found logfiles
    rw [List.length_map] at found
    rw [List.getD_eq_getElem?_getD, found]
    rfl
  refine ⟨isOpen.logfiles, by simp, isOpen.index, ?_⟩
  simp only [LogCursor.seekEnd, place, Option.map_some, found, WrittenFile.bytes]

/-- The end of a written file is readable. -/
theorem OpenAt.readsLast (isOpen : OpenAt before here after lc) :
    ∃ result, lc.seekEnd.freadBackward = .ok result := by
  -- A file without entries has only its header, in front of which nothing is read.
  have atEnd := isOpen.seekEnd
  rcases List.eq_nil_or_concat here.records with empty | ⟨init, last, filled⟩
  · rw [empty] at atEnd
    exact ⟨_, atEnd.freadBackward_start⟩
  · rw [List.concat_eq_append] at filled
    rw [filled] at atEnd
    obtain ⟨moved, read, _⟩ := atEnd.freadBackward_passed
    exact ⟨_, read⟩

/-- A cursor stays where it is when it finds no entry there. -/
theorem freadBackward_none {moved : LogCursor} (read : lc.freadBackward = .ok (moved, none)) :
    moved = lc := by
  unfold LogCursor.freadBackward at read
  split at read
  · cases read
  · split at read <;> cases read
    rfl

/-- In front of the start of a file the last entry of the file before is read. -/
theorem lastOfFiles_moves {moved : LogCursor} (read : lc.lastOfFile = .ok (lc.seekEnd, none))
    (more : lc.curLogfilesIndex ≠ 0)
    (opened : LogCursor.lcOpenLogfile
      { lc with curFp := none, curLogfilesIndex := lc.curLogfilesIndex - 1 }
      (lc.curLogfilesIndex - 1) = .ok (moved, true)) (fuel : Nat) :
    LogCursor.lastOfFiles (fuel + 1) lc = LogCursor.lastOfFiles fuel moved := by
  rw [LogCursor.lastOfFiles, read]
  refine (if_neg more).trans ?_
  show (LogCursor.lcOpenLogfile
    { lc with curFp := none, curLogfilesIndex := lc.curLogfilesIndex - 1 }
    (lc.curLogfilesIndex - 1) >>= _) = _
  rw [opened]
  rfl

/-- The last entry of written files is the one that is read backward from the end. -/
theorem lastOfFiles_eq : ∀ (fuel : Nat) {before : List WrittenFile} {here : WrittenFile}
    {after : List WrittenFile} {lc : LogCursor}, OpenAt before here after lc →
      LogCursor.lastOfFiles fuel lc = LogCursor.lcLogReadBackward fuel lc.seekEnd := by
  intro fuel
  induction fuel with
  | zero => intros; rfl
  | succ fuel ih =>
    intro before here after lc isOpen
    obtain ⟨⟨moved, entry⟩, read⟩ := isOpen.readsLast
    have readLast : lc.lastOfFile = .ok (moved, entry) := by
      simp only [LogCursor.lastOfFile, read]
    cases entry with
    | some entry =>
      rw [lcLogReadBackward_found read, LogCursor.lastOfFiles, readLast]
      rfl
    | none =>
      have stays := freadBackward_none read
      subst stays
      rcases List.eq_nil_or_concat before with empty | ⟨front, file, filled⟩
      · have first : lc.curLogfilesIndex = 0 := by
          rw [isOpen.index, empty]
          rfl
        rw [lcLogReadBackward_stops read first, LogCursor.lastOfFiles, readLast]
        exact if_pos first
      · -- The file has no entries, so the file before is opened.
        rw [List.concat_eq_append] at filled
        subst filled
        have logfiles : lc.logfiles = (front ++ file :: here :: after).map WrittenFile.bytes := by
          rw [isOpen.logfiles]
          simp
        have index : lc.curLogfilesIndex = front.length + 1 := by
          rw [isOpen.index]
          simp
        have length : front.length = lc.curLogfilesIndex - 1 := by omega
        have more : lc.curLogfilesIndex ≠ 0 := by omega
        have opened : LogCursor.lcOpenLogfile
            { lc with curFp := none, curLogfilesIndex := lc.curLogfilesIndex - 1 }
            front.length = _ := lcOpenLogfile_written rfl logfiles
        rw [length] at opened
        rw [lcLogReadBackward_moves read more opened, lastOfFiles_moves readLast more opened]
        apply ih
        exact ⟨logfiles, length.symm, _, by rw [← length]⟩

end Last

end Tokuft
