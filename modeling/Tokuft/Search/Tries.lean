import Tokuft.Search.Descent

/-! A search from the root, again and again, goes through the basement nodes one by one. -/

namespace Tokuft

variable {Key Entry Val Child : Type} [LinearOrder Key] {search : FtSearch Key}
  {bounds : PivotBounds Key} {height : Nat}

/--
The caller's function decides on what it is called with.

It never says not found, which would mean to keep looking in another leaf, and never to try again.
-/
def FtGetCallback.Decides (getf : FtGetCallback Key Val) : Prop :=
  ∀ call calls, getf (call :: calls) ≠ .notFound ∧ getf (call :: calls) ≠ .tryAgain

/-- Search one basement node and, when it has no answer, lock the keys up to its end. -/
def tryPart (getf : FtGetCallback Key Val) (canBulkFetch : Bool) (part : SearchPart Key Entry)
    (state : SearchState Key Entry Val) : Option FtCode × SearchState Key Entry Val :=
  let (r, state) := ftSearchBasementNode getf canBulkFetch part.bn
    { state with searched := part.path :: state.searched }
  if r ≠ .notFound then (some r, state)
  else
    let (rr, state) := state.getf getf part.next none true
    (if rr ≠ .ok then some rr else none, state)

/-- What one descent makes of the basement node that it searches, given those behind it. -/
inductive Descended (getf : FtGetCallback Key Val) (canBulkFetch : Bool)
    (part : SearchPart Key Entry) (more : List (SearchPart Key Entry))
    (state : SearchState Key Entry Val) : FtCode × SearchState Key Entry Val → Prop where
  | decided {r found} (tried : tryPart getf canBulkFetch part state = (some r, found)) :
    Descended getf canBulkFetch part more state (r, found)
  | exhausted {found} (tried : tryPart getf canBulkFetch part state = (none, found))
    (last : more = []) : Descended getf canBulkFetch part more state (.notFound, found)
  | again {found pivot} (tried : tryPart getf canBulkFetch part state = (none, found))
    (next : part.next = some pivot) (notLast : more ≠ [])
      (goesOn : found.search.goesOn pivot = true) :
    Descended getf canBulkFetch part more state (.tryAgain, found.saved pivot)
  | stopped {found pivot bound} (tried : tryPart getf canBulkFetch part state = (none, found))
    (next : part.next = some pivot) (stops : found.search.goesOn pivot = false) :
    Descended getf canBulkFetch part more state (.notFound, found.saved bound)

/-- A result that neither lets the search go on nor starts it again. -/
def FtCode.Final (r : FtCode) : Prop := r ≠ .notFound ∧ r ≠ .tryAgain

variable {state : SearchState Key Entry Val}

/-- Success ends a search. -/
theorem FtCode.ok_final : FtCode.Final .ok := ⟨nofun, nofun⟩

/-- A bulk fetch leaves the search as it is, and ends it. -/
theorem ftCursorShortcut_final {getf : FtGetCallback Key Val} (decides : getf.Decides)
    {direction : Int} {entries : List (Key × Entry)} {r : FtCode} (final : r.Final)
    {found : Key × Val} :
    (ftCursorShortcut getf direction entries r found state).1.Final ∧
      (ftCursorShortcut getf direction entries r found state).2.2.search = state.search ∧
      (ftCursorShortcut getf direction entries r found state).2.2.searched = state.searched := by
  induction entries generalizing r found state with
  | nil => exact ⟨final, rfl, rfl⟩
  | cons entry entries ih =>
    rw [ftCursorShortcut]
    cases seen : state.cursor.leVal entry.2 with
    | none => exact ih FtCode.ok_final
    | some val =>
      simp only
      split
      · exact ⟨FtCode.ok_final, rfl, rfl⟩
      · split
        · rename_i continues
          exact ih (continues ▸ ⟨nofun, nofun⟩)
        · exact ⟨decides _ _, rfl, rfl⟩

/-- The error for a key outside the range that a cursor is restricted to. -/
def FtCursor.refusal (cursor : FtCursor Key Entry Val) (key : Key) : Option OutOfRangeError :=
  cursor.outOfRangeError.filter fun _ => cursor.outOfRange key

section

variable {cursor : FtCursor Key Entry Val} {key : Key}

/-- A key outside the range is answered by the error, and the cursor stays as it is. -/
theorem ftCursorCheckRestrictedRange_refused {error : OutOfRangeError}
    (refused : cursor.refusal key = some error) :
    ftCursorCheckRestrictedRange cursor key = (error.code, cursor) := by
  obtain ⟨given, outside⟩ := Option.filter_eq_some_iff.mp refused
  rw [ftCursorCheckRestrictedRange, given]
  exact if_pos outside

/-- A key within the range is passed on, and the cursor forgets its direction. -/
theorem ftCursorCheckRestrictedRange_inRange (inRange : cursor.refusal key = none) :
    ftCursorCheckRestrictedRange cursor key = (.ok, { cursor with direction := 0 }) := by
  rw [ftCursorCheckRestrictedRange]
  rw [FtCursor.refusal] at inRange
  cases given : cursor.outOfRangeError with
  | none => rfl
  | some error =>
    rw [given, Option.filter_some, ite_eq_right_iff] at inRange
    exact if_neg fun outside => Option.some_ne_none _ (inRange outside)

end

/-- The state after a row within the range was passed to the caller's function. -/
def SearchState.shown (state : SearchState Key Entry Val) (key : Key) (val : Val) :
    SearchState Key Entry Val :=
  { state with
    cursor := { state.cursor with direction := 0 }
    calls :=
      { position := state.cursor.key, key := some key, val := some val, lockOnly := false } ::
        state.calls }

/-- The state after the cursor was moved to a row, unless it is a temporary one. -/
def SearchState.moved (state : SearchState Key Entry Val) (row : Key × Val) :
    SearchState Key Entry Val :=
  { state with
    cursor := if state.cursor.isTemporary then { state.cursor with key := none, val := none }
      else { state.cursor with key := some row.1, val := some row.2 } }

section basement

variable {getf : FtGetCallback Key Val} {canBulkFetch : Bool} {bn rest : List (Key × Entry)}
  {state : SearchState Key Entry Val} {key : Key} {val : Val}

/-- The row that is found is outside the range. -/
theorem gotAGoodValue_refused {error : OutOfRangeError}
    (refused : state.cursor.refusal key = some error) :
    gotAGoodValue getf canBulkFetch (key, val) rest state = (error.code, state) := by
  rw [gotAGoodValue]
  simp only [ftCursorCheckRestrictedRange_refused refused]
  cases error <;> rfl

section

variable (inRange : state.cursor.refusal key = none)
include inRange

/-- The row that is found is the only one that the caller takes, if it takes it. -/
theorem gotAGoodValue_single
    (single : getf (state.shown key val).calls ≠ .cursorContinue ∨ canBulkFetch = false) :
    gotAGoodValue getf canBulkFetch (key, val) rest state =
      if getf (state.shown key val).calls = .ok ∨
          getf (state.shown key val).calls = .cursorContinue then
        (.ok, (state.shown key val).moved (key, val))
      else (getf (state.shown key val).calls, state.shown key val) := by
  -- Without a bulk fetch the entries behind the row are not looked at.
  rw [gotAGoodValue]
  simp only [ftCursorCheckRestrictedRange_inRange inRange, if_true]
  have notBulk : ¬(getf (state.shown key val).calls = .cursorContinue ∧ canBulkFetch = true) := by
    rintro ⟨continues, bulk⟩
    rcases single with other | off
    · exact other continues
    · rw [off] at bulk
      cases bulk
  rw [show SearchState.getf { state with cursor := { state.cursor with direction := 0 } } getf
      (some key) (some val) false =
        (getf (state.shown key val).calls, state.shown key val) from rfl]
  simp only [notBulk, if_false]
  split
  · rename_i taken
    rcases taken with ok | continues
    · rw [ok]
      rfl
    · rw [continues]
      rfl
  · rfl

/-- The caller wants more rows than the one that is found. -/
theorem gotAGoodValue_bulk (continues : getf (state.shown key val).calls = .cursorContinue)
    (bulk : canBulkFetch = true) :
    gotAGoodValue getf canBulkFetch (key, val) rest state =
      let (r, row, state) := ftCursorShortcut getf state.search.direction.sign rest .ok (key, val)
        (state.shown key val)
      (if r = .cursorContinue then .ok else r, state.moved row) := by
  -- The shortcut goes on from the row, which the caller has taken.
  rw [gotAGoodValue]
  simp only [ftCursorCheckRestrictedRange_inRange inRange, if_true]
  rw [show SearchState.getf { state with cursor := { state.cursor with direction := 0 } } getf
      (some key) (some val) false =
        (getf (state.shown key val).calls, state.shown key val) from rfl]
  simp only [continues, bulk, or_true, and_self, if_true]
  rfl

end

/-- A row that is found ends the search, and is looked for without another basement node. -/
theorem gotAGoodValue_final (decides : getf.Decides) (found : Key × Val) :
    (gotAGoodValue getf canBulkFetch found rest state).1.Final ∧
      (gotAGoodValue getf canBulkFetch found rest state).2.searched = state.searched := by
  -- A row out of the range is refused, and any other is shown to the caller.
  obtain ⟨key, val⟩ := found
  cases refused : state.cursor.refusal key with
  | some error =>
    rw [gotAGoodValue_refused refused]
    cases error <;> exact ⟨⟨nofun, nofun⟩, rfl⟩
  | none =>
    by_cases more : getf (state.shown key val).calls = .cursorContinue ∧ canBulkFetch = true
    · rw [gotAGoodValue_bulk refused more.1 more.2]
      obtain ⟨final, -, searched⟩ :=
        @ftCursorShortcut_final _ _ _ _ (state.shown key val) getf decides
        state.search.direction.sign rest .ok FtCode.ok_final (key, val)
      refine ⟨?_, searched⟩
      simp only
      split
      · exact ⟨nofun, nofun⟩
      · exact final
    · rw [gotAGoodValue_single refused (by
        rw [← Bool.not_eq_true]
        exact not_and_or.mp more)]
      split
      · exact ⟨⟨nofun, nofun⟩, rfl⟩
      · exact ⟨decides _ _, rfl⟩

/-- The state after deleted entries of a basement node were passed over, and whether to stop. -/
def SearchState.passed (state : SearchState Key Entry Val) (bn : List (Key × Entry)) :
    Bool × SearchState Key Entry Val :=
  state.interrupt (findInBasementNode state.search state.cursor.leVal bn).1

/-- Passing over entries changes only what was asked about interrupting, and stops when told to. -/
theorem SearchState.passed_eq (state : SearchState Key Entry Val) (bn : List (Key × Entry)) :
    ∃ more, (state.passed bn).2 = { state with interrupts := more ++ state.interrupts } ∧
      ((state.passed bn).1 = true → ∃ interruptCb ∈ state.cursor.interruptCb,
        interruptCb (more ++ state.interrupts) = true) := by
  -- Without an interrupt callback no one is asked.
  unfold SearchState.passed SearchState.interrupt
  cases asked : state.cursor.interruptCb with
  | none => exact ⟨[], rfl, nofun⟩
  | some interruptCb =>
    simp only
    split
    · exact ⟨[], rfl, nofun⟩
    · exact ⟨[_], rfl, fun stops => ⟨interruptCb, rfl, stops⟩⟩

/-- Nothing is found in a basement node. -/
theorem ftSearchBasementNode_none
    (none : (findInBasementNode state.search state.cursor.leVal bn).2 = none) :
    ftSearchBasementNode getf canBulkFetch bn state =
      (if (state.passed bn).1 then .interrupted else .notFound, (state.passed bn).2) := by
  rw [ftSearchBasementNode, SearchState.passed]
  simp only [none]

/-- Something is found in a basement node. -/
theorem ftSearchBasementNode_some {found : Key × Val}
    (some : (findInBasementNode state.search state.cursor.leVal bn).2 = some (found, rest)) :
    ftSearchBasementNode getf canBulkFetch bn state =
      gotAGoodValue getf canBulkFetch found rest (state.passed bn).2 := by
  rw [ftSearchBasementNode, SearchState.passed]
  simp only [some]

/-- A basement node is searched without another one. -/
theorem ftSearchBasementNode_searched (decides : getf.Decides) :
    (ftSearchBasementNode getf canBulkFetch bn state).2.searched = state.searched := by
  obtain ⟨more, after, -⟩ := state.passed_eq bn
  cases found : (findInBasementNode state.search state.cursor.leVal bn).2 with
  | none => rw [ftSearchBasementNode_none found, after]
  | some result => rw [ftSearchBasementNode_some found, (gotAGoodValue_final decides _).2, after]

/-- A basement node in which nothing is found leaves the search as it is, and
none starts it again. -/
theorem ftSearchBasementNode_search (decides : getf.Decides) :
    ((ftSearchBasementNode getf canBulkFetch bn state).1 = .notFound →
      (ftSearchBasementNode getf canBulkFetch bn state).2.search = state.search) ∧
    (ftSearchBasementNode getf canBulkFetch bn state).1 ≠ .tryAgain := by
  -- Either no entry is found, or one is, which ends the search.
  obtain ⟨more, after, -⟩ := state.passed_eq bn
  cases found : (findInBasementNode state.search state.cursor.leVal bn).2 with
  | none =>
    rw [ftSearchBasementNode_none found, after]
    exact ⟨fun _ => rfl, by split <;> exact FtCode.noConfusion⟩
  | some result =>
    rw [ftSearchBasementNode_some found]
    have final := (@gotAGoodValue_final _ _ _ _ getf canBulkFetch result.2
      (state.passed bn).2 decides
      result.1).1
    exact ⟨fun none => absurd none final.1, final.2⟩

/-- A try leaves the search as it is when it has nothing to say, and otherwise ends it. -/
theorem tryPart_final (decides : getf.Decides) {part : SearchPart Key Entry} :
    (∀ r ∈ (tryPart getf canBulkFetch part state).1, r.Final) ∧
      ((tryPart getf canBulkFetch part state).1 = none →
        (tryPart getf canBulkFetch part state).2.search = state.search) := by
  -- What the basement node answers is passed on, except that nothing was found.
  have kept := @ftSearchBasementNode_search _ _ _ _ getf canBulkFetch part.bn
    { state with searched := part.path :: state.searched } decides
  unfold tryPart
  generalize ftSearchBasementNode getf canBulkFetch part.bn
    { state with searched := part.path :: state.searched } = result at kept ⊢
  obtain ⟨r, after⟩ := result
  by_cases ends : r = .notFound
  · subst ends
    simp only [ne_eq, not_true_eq_false, if_false]
    by_cases granted : (after.getf getf part.next none true).1 = .ok
    · rw [if_neg (not_not.mpr granted)]
      exact ⟨nofun, fun _ => kept.1 rfl⟩
    · rw [if_pos granted]
      refine ⟨?_, nofun⟩
      rintro r ⟨⟩
      exact decides _ _
  · simp only [ends, ne_eq, not_false_eq_true, if_true]
    refine ⟨?_, nofun⟩
    rintro r ⟨⟩
    exact ⟨ends, kept.2⟩

end basement

section descent

variable {getf : FtGetCallback Key Val} {canBulkFetch : Bool} {state : SearchState Key Entry Val}
  {part : SearchPart Key Entry} {more rest : List (SearchPart Key Entry)}

variable {childnum : Nat}

/-- A result that ends the search is passed on by every node above. -/
theorem searchedChild_final {node : Partitioned Key Child} {isLeaf : Bool} {r : FtCode}
    (final : r ≠ .notFound) :
    searchedChild getf node isLeaf bounds childnum (r, state) = (r, state) := by
  rw [searchedChild, if_pos final]

omit [LinearOrder Key] in
/-- The keys that are locked end at the far end of the bounds. -/
theorem lockUpToPivot_eq : lockUpToPivot getf bounds state =
    state.getf getf (bounds.after state.search.direction) none true := by
  unfold lockUpToPivot
  cases way : state.search.direction <;> rfl

/-- At a leaf the keys up to the end of the basement node are locked before the search goes on. -/
theorem searchedChild_leaf (decides : getf.Decides) {node : Partitioned Key Child}
    {childnum : Nat} (next : part.next = bounds.after state.search.direction) :
    searchedChild getf node true bounds childnum (ftSearchBasementNode getf canBulkFetch part.bn
        { state with searched := part.path :: state.searched }) =
      searchedChild getf node false bounds childnum
        (((tryPart getf canBulkFetch part state).1.getD .notFound),
          (tryPart getf canBulkFetch part state).2) := by
  -- A search that found nothing locks up to the next pivot, if there is one.
  have kept := @ftSearchBasementNode_search _ _ _ _ getf canBulkFetch part.bn
    { state with searched := part.path :: state.searched } decides
  unfold tryPart
  generalize ftSearchBasementNode getf canBulkFetch part.bn
    { state with searched := part.path :: state.searched } = result at kept ⊢
  obtain ⟨r, after⟩ := result
  by_cases ends : r = .notFound
  · subst ends
    rw [searchedChild, if_neg (not_not.mpr rfl), lockUpToPivot_eq, kept.1 rfl, ← next]
    simp only [ne_eq, not_true_eq_false, if_false, if_true]
    by_cases granted : (after.getf getf part.next none true).1 = .ok
    · simp only [granted, not_true_eq_false, if_false, Option.getD_none]
      rfl
    · simp only [granted, not_false_eq_true, if_true, Option.getD_some]
      exact (searchedChild_final (decides _ _).1).symm
  · simp only [ends, ne_eq, not_false_eq_true, if_true, Option.getD_some]
    exact (searchedChild_final ends).trans (searchedChild_final ends).symm

/-- Whether a search goes on does not depend on the pivot that it remembers. -/
@[simp] theorem SearchState.saved_goesOn {bound pivot : Key} :
    (state.saved bound).search.goesOn pivot = state.search.goesOn pivot := rfl

omit [LinearOrder Key] in
/-- Only the latest pivot is remembered. -/
@[simp] theorem SearchState.saved_saved {bound pivot : Key} :
    (state.saved bound).saved pivot = state.saved pivot := rfl

/-- A search that stops at a pivot inside some bounds stops at their far end. -/
theorem SearchPart.Inside.stops (inside : part.Inside search.direction bounds) {pivot further : Key}
    (next : part.next = some pivot) (stops : search.goesOn pivot = false)
    (after : bounds.after search.direction = some further) : search.goesOn further = false := by
  rcases inside with last | ⟨other, same, -, highs⟩
  · rw [next, after] at last
    cases last
    exact stops
  · rw [next] at same
    cases same
    unfold FtSearch.goesOn at stops ⊢
    cases way : search.direction with
    | right =>
      rw [way] at stops
      cases stops
    | left =>
      rw [way] at stops after
      cases bounded : search.kBound with
      | none =>
        rw [bounded] at stops
        cases stops
      | some kBound =>
        simp only [bounded, Option.all_some, decide_eq_false_iff_not] at stops ⊢
        -- The bound is no further than the pivot, and so no further than the end.
        exact not_lt.mpr (le_trans (not_lt.mp stops) (highs pivot rfl further after))

/-- What a node makes of a descent into one of its children. -/
theorem Descended.above (decides : getf.Decides) {node : Partitioned Key Child} {childnum : Nat}
    (within : childnum < node.children.length) {outcome : FtCode × SearchState Key Entry Val}
    (descended : Descended getf canBulkFetch part more state outcome)
    (ends : more = [] →
      part.next = (bounds.nextBounds node childnum).after state.search.direction)
    (inside : part.Inside state.search.direction (bounds.nextBounds node childnum))
    (final : rest = [] ↔ lastChild state.search.direction node.children.length childnum) :
    Descended getf canBulkFetch part (more ++ rest) state
      (searchedChild getf node false (bounds.nextBounds node childnum) childnum outcome) := by
  -- What was decided below stays, and what was not goes on at this node.
  cases descended with
  | decided tried =>
    have ended := @tryPart_final _ _ _ _ getf canBulkFetch state decides part
    rw [tried] at ended
    rw [searchedChild_final (ended.1 _ rfl).1]
    exact .decided tried
  | again tried next notLast goesOn =>
    rw [searchedChild_final FtCode.noConfusion]
    exact .again tried next (List.append_ne_nil_of_left_ne_nil notLast _) goesOn
  | exhausted tried last =>
    have same := (@tryPart_final _ _ _ _ getf canBulkFetch state decides part).2 (by rw [tried])
    rw [tried] at same
    simp only at same
    rw [← same] at ends final
    by_cases rightmost : lastChild state.search.direction node.children.length childnum
    · rw [same] at final
      rw [searchedChild_last (by rw [same]; exact rightmost)]
      exact .exhausted tried (by rw [last, final.mpr rightmost, List.append_nil])
    · obtain ⟨pivot, after, saved⟩ := @searchedChild_notLast _ _ _ _ _ bounds getf node childnum _
        within (by rw [same]; exact rightmost)
      rw [saved]
      split
      · rename_i goesOn
        rw [same] at final
        exact .again tried ((ends last).trans after)
          (List.append_ne_nil_of_right_ne_nil _ (final.not.mpr rightmost)) goesOn
      · rename_i stops
        exact .stopped tried ((ends last).trans after) (by simpa using stops)
  | @stopped found pivot bound tried next stops =>
    have same := (@tryPart_final _ _ _ _ getf canBulkFetch state decides part).2 (by rw [tried])
    rw [tried] at same
    have direction : found.search.direction = state.search.direction :=
      congrArg FtSearch.direction same
    have way : (found.saved bound).search.direction = state.search.direction := direction
    by_cases rightmost : lastChild state.search.direction node.children.length childnum
    · rw [searchedChild_last (by rw [way]; exact rightmost)]
      exact .stopped tried next stops
    · obtain ⟨further, after, saved⟩ := @searchedChild_notLast _ _ _ _ _ bounds getf node childnum
        (found.saved bound) within (by rw [way]; exact rightmost)
      have stopsToo : found.search.goesOn further = false := by
        simp only at same
        rw [same] at stops ⊢
        exact inside.stops next stops (way ▸ after)
      rw [saved, SearchState.saved_goesOn, stopsToo, SearchState.saved_saved]
      exact .stopped tried next stops

omit [LinearOrder Key] in
/-- The last of nodes in order is the one at whose end they end. -/
theorem EndsAt.of_single {next : Option Key} {parts : List (SearchPart Key Entry)}
    (ends : EndsAt next parts) {passed : SearchPart Key Entry → Bool}
    (single : parts.dropWhile passed = [part]) : part.next = next := by
  obtain ⟨front, last, rfl, same⟩ := ends
  obtain ⟨before, shape⟩ := single ▸ List.dropWhile_suffix passed
  rw [List.append_singleton_inj.mp shape |>.2]
  exact same

/-- What a search has not passed is one of the nodes. -/
theorem mem_of_dropWhile {Item : Type} {passed : Item → Bool} {items : List Item} {item : Item}
    {others : List Item} (shape : items.dropWhile passed = item :: others) : item ∈ items :=
  (List.dropWhile_sublist passed).subset (shape ▸ List.mem_cons_self)

omit [LinearOrder Key] in
/-- The bounds of a child, within those of its node. -/
theorem PivotBounds.nextBounds_eq {node : Partitioned Key Child}
    (within : childnum < node.children.length) :
    bounds.nextBounds node childnum =
      childBounds bounds.ubi bounds.lbe node.pivotkeys childnum := by
  have size := node.sized
  rw [childBounds_eq (by omega), PivotBounds.nextBounds, size]
  simp only [Nat.add_right_cancel_iff]

/-- What becomes of a basement node on its own. -/
theorem Descended.single : Descended getf canBulkFetch part [] state
    ((tryPart getf canBulkFetch part state).1.getD .notFound,
      (tryPart getf canBulkFetch part state).2) := by
  cases result : tryPart getf canBulkFetch part state with
  | mk r found =>
    cases r with
    | none => exact .exhausted result rfl
    | some r => exact .decided result

/-- A leaf searches one of its basement nodes. -/
theorem ftSearchNode_leaf {node : FtNode Key Entry 0} {path : List Nat} {bn : List (Key × Entry)}
    (located : node.children[childnum]? = some bn) :
    ftSearchNode getf canBulkFetch 0 node bounds path childnum state =
      some (searchedChild getf node true (bounds.nextBounds node childnum) childnum
        (ftSearchBasementNode getf canBulkFetch bn
          { state with searched := (childnum :: path) :: state.searched })) :=
  congrArg (fun found : Option (List (Key × Entry)) => found.bind fun bn =>
    some (searchedChild getf node true (bounds.nextBounds node childnum) childnum
      (ftSearchBasementNode getf canBulkFetch bn
        { state with searched := (childnum :: path) :: state.searched }))) located

/-- A node above the leaves searches one of its children. -/
theorem ftSearchNode_inner {height : Nat} {node : FtNode Key Entry (height + 1)} {path : List Nat}
    {child : FtNode Key Entry height} {outcome : FtCode × SearchState Key Entry Val}
    (located : node.children[childnum]? = some child)
    (result : ftSearchNode getf canBulkFetch height child (bounds.nextBounds node childnum)
      (childnum :: path) (ftSearchWhichChild child state.search) state = some outcome) :
    ftSearchNode getf canBulkFetch (height + 1) node bounds path childnum state =
      some (searchedChild getf node false (bounds.nextBounds node childnum) childnum outcome) :=
  (congrArg (fun found : Option (FtNode Key Entry height) => found.bind fun child =>
    (ftSearchNode getf canBulkFetch height child (bounds.nextBounds node childnum)
      (childnum :: path) (ftSearchWhichChild child state.search) state).bind fun result =>
        some (searchedChild getf node false (bounds.nextBounds node childnum) childnum result))
    located).trans
      (congrArg (fun result => Option.bind result fun result =>
        some (searchedChild getf node false (bounds.nextBounds node childnum) childnum result))
        result)

/-- A descent searches the first basement node that the search has not passed. -/
theorem ftSearchNode_descends (decides : getf.Decides) {height : Nat} :
    ∀ (node : FtNode Key Entry height) (bounds : PivotBounds Key) (path : List Nat)
      (state : SearchState Key Entry Val), PartitionOk (height + 1) bounds node →
      state.search.Agrees → bounds.Open state.search →
      ∃ part more outcome,
        (partsOf state.search.direction (height + 1) node bounds path).dropWhile
            (SearchPart.skipped state.search) = part :: more ∧
          ftSearchNode getf canBulkFetch height node bounds path
              (ftSearchWhichChild node state.search) state = some outcome ∧
          Descended getf canBulkFetch part more state outcome := by
  induction height with
  | zero =>
    intro node bounds path state ok agrees open_
    obtain ⟨bn, rest, located, childOk, near, shape, final⟩ :=
      ChildrenOk.firstChild_parts agrees (fun child bounds path => partsOf_inside child bounds path)
        (fun child bounds path => partsOf_endsAt child bounds path) ok open_ node.sized
          path 0
    rw [← ftSearchWhichChild_eq agrees node ok.lower_le.2.2.2] at located childOk near shape final
    obtain ⟨within, -⟩ := List.getElem?_eq_some_iff.mp located
    rw [← PivotBounds.nextBounds_eq within] at childOk near shape
    rw [Nat.zero_add] at shape
    generalize ftSearchWhichChild node state.search = childnum at located within near shape final
    -- The basement node is searched, and then the keys up to its end are locked.
    have first : (partsOf state.search.direction 0 bn (bounds.nextBounds node childnum)
        (childnum :: path)).dropWhile (SearchPart.skipped state.search) =
          [{ path := childnum :: path, bn, next := _ }] :=
      List.dropWhile_cons_of_neg (by
        rw [SearchPart.skipped, Option.any_eq_true]
        rintro ⟨pivot, given, refused⟩
        rw [near pivot given] at refused
        cases refused)
    rw [first] at shape
    refine ⟨_, _, _, shape, ?_, @Descended.above _ _ _ _ _ bounds _ _ _ _ _ rest decides node _
      within _ Descended.single (fun _ => rfl) (Or.inl rfl) final⟩
    exact (ftSearchNode_leaf located).trans (congrArg some
      (@searchedChild_leaf _ _ _ _ _ (bounds.nextBounds node childnum) getf canBulkFetch state
        { path := childnum :: path, bn, next := _ } decides node childnum rfl))
  | succ height ih =>
    intro node bounds path state ok agrees open_
    obtain ⟨child, rest, located, childOk, near, shape, final⟩ :=
      ChildrenOk.firstChild_parts agrees (fun child bounds path => partsOf_inside child bounds path)
        (fun child bounds path => partsOf_endsAt child bounds path) ok open_ node.sized
          path 0
    rw [← ftSearchWhichChild_eq agrees node ok.lower_le.2.2.2] at located childOk near shape final
    obtain ⟨within, -⟩ := List.getElem?_eq_some_iff.mp located
    rw [← PivotBounds.nextBounds_eq within] at childOk near shape
    rw [Nat.zero_add] at shape
    obtain ⟨part, more, outcome, begins, result, descended⟩ :=
      ih child _ (_ :: path) state childOk agrees near
    rw [begins] at shape
    refine ⟨part, more ++ rest, _, shape, ?_,
      @Descended.above _ _ _ _ _ bounds _ _ _ _ _ rest decides node _ within _ descended ?_ ?_
        final⟩
    · exact ftSearchNode_inner located result
    · intro last
      exact EndsAt.of_single (partsOf_endsAt child _ _ childOk) (last ▸ begins)
    · exact partsOf_inside child _ _ childOk part (mem_of_dropWhile begins)

end descent

end Tokuft
