import Tokuft.Search.Scan

/-! The rows of a scan are passed on in order, as long as a bulk fetch only ends with its rows. -/

namespace Tokuft

variable {Key Entry Val : Type}
variable [LinearOrder Key] (context : ScanContext Key Val) (tree : FtTree Key Entry)
  (fuel tries : Nat) (scan : ScanState Key Entry Val)

variable {Key Entry Val : Type}

/-- The row that a call passes on. -/
def GetfCall.row (call : GetfCall Key Val) : Option (Key × Val) :=
  match call.key, call.val, call.lockOnly with
  | some key, some val, false => some (key, val)
  | _, _, _ => none

/-- A call without a value passes on no row. -/
theorem GetfCall.row_of_none {call : GetfCall Key Val} (none : call.val = none) :
    call.row = Option.none := by
  obtain ⟨position, key, val, lockOnly⟩ := call
  cases none
  cases key <;> rfl

/-- Whether an answer accepts a row. -/
def FtCode.accepts (r : FtCode) : Bool := decide (r = .ok ∨ r = .cursorContinue)

/-- The rows that were passed on and accepted, the earliest first. -/
def accepted (getf : FtGetCallback Key Val) : List (GetfCall Key Val) → List (Key × Val)
  | [] => []
  | call :: before =>
    accepted getf before ++ if (getf (call :: before)).accepts then call.row.toList else []

/-- Every row that was passed on is the next one behind those accepted before. -/
def InOrder (getf : FtGetCallback Key Val) (rows : List (Key × Val)) :
    List (GetfCall Key Val) → Prop
  | [] => True
  | call :: before =>
    (∀ row ∈ call.row, rows[(accepted getf before).length]? = some row) ∧ InOrder getf rows before

/-- The rows that were accepted are the first ones, each once. -/
theorem InOrder.accepted_eq {getf : FtGetCallback Key Val} {rows : List (Key × Val)}
    {calls : List (GetfCall Key Val)} (inOrder : InOrder getf rows calls) :
    accepted getf calls = rows.take (accepted getf calls).length := by
  -- By induction on the calls, the newest of which is at the front.
  induction calls with
  | nil => rfl
  | cons call before ih =>
    obtain ⟨next, earlier⟩ := inOrder
    have first := ih earlier
    rw [accepted]
    cases passed : call.row with
    | none =>
      rw [Option.toList_none, ite_self, List.append_nil]
      exact first
    | some row =>
      split
      · rw [Option.toList_some, List.length_append, List.length_singleton,
          List.take_add_one, ← first, next row passed]
        rfl
      · rw [List.append_nil]
        exact first

/-- A cursor that is at the last row that was accepted, or still where the scan began. -/
def FtCursor.AtLast (cursor start : FtCursor Key Entry Val) (rows : List (Key × Val)) : Prop :=
  match rows.getLast? with
  | none => cursor.key = start.key ∧ cursor.val = start.val
  | some row => cursor.key = some row.1 ∧ cursor.val = some row.2

/-- What a search leaves of a cursor besides the row that it is at. -/
structure FtCursor.Same (cursor start : FtCursor Key Entry Val) : Prop where
  isTemporary : cursor.isTemporary = start.isTemporary
  leVal : cursor.leVal = start.leVal
  rangeLockLeftKey : cursor.rangeLockLeftKey = start.rangeLockLeftKey
  rangeLockRightKey : cursor.rangeLockRightKey = start.rangeLockRightKey
  outOfRangeError : cursor.outOfRangeError = start.outOfRangeError

section calls

variable {getf : FtGetCallback Key Val} {rows : List (Key × Val)}
  {calls locks : List (GetfCall Key Val)} {call : GetfCall Key Val}

/-- A call without a row changes nothing about the rows. -/
theorem accepted_of_none (none : call.row = none) :
    accepted getf (call :: calls) = accepted getf calls := by
  rw [accepted, none, Option.toList_none, ite_self, List.append_nil]

/-- A call without a row keeps the order. -/
theorem InOrder.of_none (inOrder : InOrder getf rows calls) (none : call.row = none) :
    InOrder getf rows (call :: calls) := by
  refine ⟨fun row given => ?_, inOrder⟩
  rw [none] at given
  cases given

/-- Locks that were granted pass on no rows. -/
theorem Granted.accepted {any : FtGetCallback Key Val} {position : Option Key}
    {before : List (GetfCall Key Val)} (granted : Granted any position before locks)
    (inOrder : InOrder getf rows calls) :
    accepted getf (locks ++ calls) = accepted getf calls ∧ InOrder getf rows (locks ++ calls) := by
  induction locks with
  | nil => exact ⟨rfl, inOrder⟩
  | cons lock locks ih =>
    obtain ⟨⟨pivot, rfl⟩, -, others⟩ := granted
    obtain ⟨same, kept⟩ := ih others
    exact ⟨(accepted_of_none rfl).trans same, kept.of_none rfl⟩

/-- The call at the end of the tree passes on no rows. -/
theorem GrantedEnd.accepted {any : FtGetCallback Key Val} {position : Option Key} {lockOnly : Bool}
    {before ends : List (GetfCall Key Val)} (granted : GrantedEnd any position lockOnly before ends)
    (inOrder : InOrder getf rows calls) :
    Tokuft.accepted getf (ends ++ calls) = Tokuft.accepted getf calls ∧
      InOrder getf rows (ends ++ calls) := by
  rcases granted with rfl | ⟨rfl, -⟩
  · exact ⟨rfl, inOrder⟩
  · exact ⟨accepted_of_none rfl, inOrder.of_none rfl⟩

/-- Locks that were granted from the beginning pass on no rows. -/
theorem Granted.accepted_all {any : FtGetCallback Key Val} {position : Option Key}
    (granted : Granted any position [] locks) (inOrder : InOrder getf rows calls) :
    Tokuft.accepted getf (locks ++ [] ++ calls) = Tokuft.accepted getf calls ∧
      InOrder getf rows (locks ++ [] ++ calls) := by
  rw [List.append_nil]
  exact granted.accepted inOrder

/-- The next row, passed on. -/
theorem InOrder.next (inOrder : InOrder getf rows calls) {row : Key × Val}
    {more : List (Key × Val)} (left : rows.drop (Tokuft.accepted getf calls).length = row :: more)
    (passed : call.row = some row) :
    InOrder getf rows (call :: calls) ∧
      ((getf (call :: calls)).accepts = true →
        Tokuft.accepted getf (call :: calls) = Tokuft.accepted getf calls ++ [row] ∧
          rows.drop (Tokuft.accepted getf (call :: calls)).length = more) ∧
      ((getf (call :: calls)).accepts = false →
        Tokuft.accepted getf (call :: calls) = Tokuft.accepted getf calls) := by
  -- The row behind the accepted ones is the first of what is left.
  refine ⟨⟨fun other given => ?_, inOrder⟩, fun taken => ?_, fun refused => ?_⟩
  · rw [passed] at given
    cases given
    rw [← List.head?_drop, left]
    rfl
  · have added : Tokuft.accepted getf (call :: calls) = Tokuft.accepted getf calls ++ [row] := by
      rw [Tokuft.accepted, taken, if_pos rfl, passed]
      rfl
    refine ⟨added, ?_⟩
    rw [added, List.length_append, List.length_singleton, ← List.drop_drop, left]
    rfl
  · rw [Tokuft.accepted, refused, if_neg Bool.false_ne_true, List.append_nil]

end calls

variable [LinearOrder Key]

/-- A bulk fetch that ends only with its rows: none is outside the range, refused, or fails. -/
def bulkSafe (getf : FtGetCallback Key Val) (cursor : FtCursor Key Entry Val) :
    List (Key × Val) → List (GetfCall Key Val) → Prop
  | [], _ => True
  | row :: rest, calls =>
    cursor.refusal row.1 = none ∧
      let calls :=
        { position := cursor.key, key := some row.1, val := some row.2, lockOnly := false } :: calls
      getf calls = .ok ∨ getf calls = .cursorContinue ∧ bulkSafe getf cursor rest calls

section bulk

variable {getf full : FtGetCallback Key Val} {rows : List (Key × Val)}
  {before : List (GetfCall Key Val)} {direction : Int}

/-- Whether a callback answers as another one does to calls from some position. -/
def FtGetCallback.AgreesAt (getf full : FtGetCallback Key Val)
    (before : List (GetfCall Key Val)) (position : Option Key) : Prop :=
  ∀ call calls, call.position = position → getf (call :: calls) = full (call :: calls ++ before)

/-- A safe bulk fetch passes on the next rows, and ends at the last that was accepted. -/
theorem ftCursorShortcut_inOrder {entries : List (Key × Entry)} {more : List (Key × Val)}
    {r : FtCode} {found : Key × Val} {state : SearchState Key Entry Val}
    (agrees : getf.AgreesAt full before state.cursor.key)
    (safe : bulkSafe getf { state.cursor with direction } (visible state.cursor.leVal entries)
      state.calls)
    (inOrder : InOrder full rows (state.calls ++ before))
    (left : rows.drop (accepted full (state.calls ++ before)).length =
      visible state.cursor.leVal entries ++ more)
    (last : (accepted full (state.calls ++ before)).getLast? = some found) :
    let (_, row, after) := ftCursorShortcut getf direction entries r found state
    InOrder full rows (after.calls ++ before) ∧
      (accepted full (after.calls ++ before)).getLast? = some row ∧
      after.cursor.Same state.cursor := by
  induction entries generalizing r found state with
  | nil => exact ⟨inOrder, last, rfl, rfl, rfl, rfl, rfl⟩
  | cons entry rest ih =>
    obtain ⟨key, le⟩ := entry
    rw [ftCursorShortcut]
    cases seen : state.cursor.leVal le with
    | none =>
      rw [visible_cons_none seen] at safe left
      exact ih agrees safe inOrder left last
    | some val =>
      rw [visible_cons_some seen] at safe left
      obtain ⟨inRange, answer⟩ := safe
      simp only [ftCursorCheckRestrictedRange_inRange inRange, ne_eq, not_true_eq_false, if_false]
      have passed := agrees
        { position := state.cursor.key, key := some key, val := some val, lockOnly := false }
        state.calls rfl
      have row : GetfCall.row
          { position := state.cursor.key, key := some key, val := some val, lockOnly := false } =
            some (key, val) := rfl
      obtain ⟨ordered, taken, -⟩ := @InOrder.next _ _ full _ _ _ inOrder _ _ left row
      rcases answer with ok | ⟨continues, others⟩
      · -- The user has enough rows.
        obtain ⟨added, -⟩ := taken (by
          rw [← List.cons_append, ← passed, ok]
          rfl)
        split
        · rename_i other
          exact FtCode.noConfusion (ok.symm.trans other)
        · exact ⟨ordered, added ▸ List.getLast?_concat, rfl, rfl, rfl, rfl, rfl⟩
      · obtain ⟨added, behind⟩ := taken (by
          rw [← List.cons_append, ← passed, continues]
          rfl)
        split
        · have result :=
            @ih (getf (state.shown key val).calls) (key, val) (state.shown key val) agrees
            others ordered behind (added ▸ List.getLast?_concat)
          exact ⟨result.1, result.2.1, result.2.2.isTemporary, result.2.2.leVal,
            result.2.2.rangeLockLeftKey, result.2.2.rangeLockRightKey, result.2.2.outOfRangeError⟩
        · rename_i other
          exact absurd continues other

end bulk

/-- What a search of a scan leaves behind, given what was there before. -/
structure Scanned (full : FtGetCallback Key Val) (rows : List (Key × Val))
    (start : FtCursor Key Entry Val) (before : List (GetfCall Key Val))
    (cursor : FtCursor Key Entry Val) (canBulkFetch : Bool) (r : FtCode)
    (state : SearchState Key Entry Val) : Prop where
  inOrder : InOrder full rows (state.calls ++ before)
  same : state.cursor.Same cursor
  atLast : cursor.AtLast start (accepted full before) →
    state.cursor.AtLast start (accepted full (state.calls ++ before))
  notMoved : canBulkFetch = false → r ≠ .ok → state.cursor.key = cursor.key

section search

variable {getf full : FtGetCallback Key Val} {rows : List (Key × Val)}
  {before : List (GetfCall Key Val)} {start cursor : FtCursor Key Entry Val}
  {canBulkFetch : Bool} {r : FtCode}

omit [LinearOrder Key] in
/-- Nothing was accepted, and the cursor stays where it is. -/
theorem Scanned.of_none {state : SearchState Key Entry Val}
    (inOrder : InOrder full rows (state.calls ++ before)) (same : state.cursor.Same cursor)
    (key : state.cursor.key = cursor.key) (val : state.cursor.val = cursor.val)
    (nothing : accepted full (state.calls ++ before) = accepted full before) :
    Scanned full rows start before cursor canBulkFetch r state := by
  refine ⟨inOrder, same, fun at_ => ?_, fun _ _ => key⟩
  rw [nothing]
  unfold FtCursor.AtLast at at_ ⊢
  rw [key, val]
  exact at_

omit [LinearOrder Key] in
/-- The cursor was moved to the last row that was accepted. -/
theorem Scanned.of_moved {state : SearchState Key Entry Val} {row : Key × Val}
    (inOrder : InOrder full rows (state.calls ++ before)) (same : state.cursor.Same cursor)
    (kept : cursor.isTemporary = false)
    (last : (accepted full (state.calls ++ before)).getLast? = some row)
    (moves : canBulkFetch = false → r = .ok) :
    Scanned full rows start before cursor canBulkFetch r (state.moved row) := by
  -- A cursor that is not a temporary one keeps the row.
  have moved : (state.moved row).cursor =
      { state.cursor with key := some row.1, val := some row.2 } :=
    if_neg (by rw [same.isTemporary, kept]; exact Bool.false_ne_true)
  refine ⟨inOrder, ?_, fun _ => ?_, fun single notOk => absurd (moves single) notOk⟩
  · rw [moved]
    exact ⟨same.1, same.2, same.3, same.4, same.5⟩
  · have moved_last : (accepted full ((state.moved row).calls ++ before)).getLast? = some row :=
      last
    unfold FtCursor.AtLast
    rw [moved_last, moved]
    exact ⟨rfl, rfl⟩

/-- A row that is found is passed on, and the next rows behind it. -/
theorem gotAGoodValue_scanned {rest : List (Key × Entry)} {more : List (Key × Val)}
    {row : Key × Val} {state : SearchState Key Entry Val}
    (agrees : getf.AgreesAt full before cursor.key) (same : state.cursor = cursor)
    (kept : cursor.isTemporary = false) (inOrder : InOrder full rows (state.calls ++ before))
    (nothing : accepted full (state.calls ++ before) = accepted full before)
    (left : rows.drop (accepted full before).length =
      row :: visible state.cursor.leVal rest ++ more)
    (safe : canBulkFetch = true → cursor.refusal row.1 = none →
      getf (state.shown row.1 row.2).calls = .cursorContinue →
      bulkSafe getf { cursor with direction := state.search.direction.sign }
        (visible cursor.leVal rest) (state.shown row.1 row.2).calls) :
    Scanned full rows start before cursor canBulkFetch
      (gotAGoodValue getf canBulkFetch row rest state).1
      (gotAGoodValue getf canBulkFetch row rest state).2 := by
  -- The row may be refused, end the search, or be followed by the rows behind it.
  obtain ⟨key, val⟩ := row
  subst same
  have unchanged : state.cursor.Same state.cursor := ⟨rfl, rfl, rfl, rfl, rfl⟩
  cases refused : state.cursor.refusal key with
  | some error =>
    rw [gotAGoodValue_refused refused]
    exact .of_none inOrder unchanged rfl rfl nothing
  | none =>
    have passed := agrees
      { position := state.cursor.key, key := some key, val := some val, lockOnly := false }
      state.calls rfl
    have shown : (state.shown key val).cursor.Same state.cursor := ⟨rfl, rfl, rfl, rfl, rfl⟩
    obtain ⟨ordered, taken, notTaken⟩ := @InOrder.next _ _ full _ _
      { position := state.cursor.key, key := some key, val := some val, lockOnly := false }
      inOrder (key, val) _ (nothing ▸ left) rfl
    by_cases several : getf (state.shown key val).calls = .cursorContinue ∧ canBulkFetch = true
    · rw [gotAGoodValue_bulk refused several.1 several.2]
      obtain ⟨added, behind⟩ := taken (by
        rw [← List.cons_append, ← passed]
        exact decide_eq_true (Or.inr several.1))
      have fetched := @ftCursorShortcut_inOrder _ _ _ _ getf full rows before
        state.search.direction.sign rest more .ok (key, val) (state.shown key val) agrees
        (safe several.2 refused several.1) ordered behind (added ▸ List.getLast?_concat)
      exact .of_moved fetched.1 ⟨fetched.2.2.1, fetched.2.2.2, fetched.2.2.3, fetched.2.2.4,
        fetched.2.2.5⟩ kept fetched.2.1 fun single => by
          rw [several.2] at single
          cases single
    · rw [gotAGoodValue_single refused (by
        rw [← Bool.not_eq_true]
        exact not_and_or.mp several)]
      split
      · rename_i accepted_
        obtain ⟨added, -⟩ := taken (by
          rw [← List.cons_append, ← passed]
          exact decide_eq_true accepted_)
        exact .of_moved ordered shown kept (added ▸ List.getLast?_concat) fun _ => rfl
      · rename_i refused_
        have rest := notTaken (by
          rw [← List.cons_append, ← passed]
          exact decide_eq_false refused_)
        exact .of_none ordered shown rfl rfl (rest.trans nothing)

/--
Where a search with bulk fetch finds its first row, the bulk fetch ends only with its rows.

No row behind the first in its basement node, up to which the user wants more, is outside the range
of the cursor, has its lock refused, or fails in the user's callback.
-/
def SafeSearch (tree : FtTree Key Entry) (getf : FtGetCallback Key Val) (search : FtSearch Key)
    (cursor : FtCursor Key Entry Val) : Prop :=
  ∀ bn state row rest,
    sweepTo getf (tree.parts search.direction) { search, cursor, calls := [], searched := [] } =
      some (bn, state) →
    (findInBasementNode state.search cursor.leVal bn).2 = some (row, rest) →
    cursor.refusal row.1 = none →
    getf (state.shown row.1 row.2).calls = .cursorContinue →
    bulkSafe getf { cursor with direction := search.direction.sign } (visible cursor.leVal rest)
      (state.shown row.1 row.2).calls

/-- A safe search passes on the next rows. -/
theorem ftSearch_scanned {tree : FtTree Key Entry} {fuel : Nat} {search : FtSearch Key}
    (decides : getf.Decides) (comparesAlong : search.Agrees) (fresh : search.pivotBound = none)
    (enough : (tree.parts search.direction).length ≤ fuel)
    (agrees : getf.AgreesAt full before cursor.key) (kept : cursor.isTemporary = false)
    (inOrder : InOrder full rows before)
    (left : rows.drop (accepted full before).length =
      rowsFrom search cursor.leVal (tree.parts search.direction))
    (safe : canBulkFetch = true → SafeSearch tree getf search cursor)
    {state : SearchState Key Entry Val}
    (ran : ftSearch getf canBulkFetch tree.root fuel search cursor = some (r, state)) :
    Scanned full rows start before cursor canBulkFetch r state := by
  -- One case for each way in which the tries end.
  obtain ⟨outcome, bound, swept, tries, -⟩ := @ftSearchTries_swept _ _ _ _ getf canBulkFetch
    tree search cursor fuel decides comparesAlong fresh enough
  cases swept with
  | lockRefused pivot locks visited saved asked granted holds past refused =>
    have stopped := ftSearch_of_stopped (decides _ _).1 tries
    rw [stopped] at ran
    obtain ⟨rfl, rfl⟩ := Prod.mk.inj (Option.some.inj ran)
    obtain ⟨same, ordered⟩ := Granted.accepted_all granted inOrder
    exact .of_none (ordered.of_none (GetfCall.row_of_none rfl)) ⟨rfl, rfl, rfl, rfl, rfl⟩ rfl rfl
      ((accepted_of_none (GetfCall.row_of_none rfl)).trans same)
  | interrupted locks visited saved interrupts granted asked =>
    rw [ftSearch_of_stopped FtCode.noConfusion tries] at ran
    obtain ⟨rfl, rfl⟩ := Prod.mk.inj (Option.some.inj ran)
    obtain ⟨same, ordered⟩ := Granted.accepted_all granted inOrder
    exact .of_none ordered ⟨rfl, rfl, rfl, rfl, rfl⟩ rfl rfl same
  | found bn row rest more locks visited saved asked granted first shape reached =>
    obtain ⟨interrupts, after⟩ := @SearchState.passed_advanced _ _ _ _
      { search, cursor, calls := [], searched := [] } locks visited saved asked bn
    have here := @ftSearchBasementNode_some _ _ _ _ getf canBulkFetch bn rest (SearchState.advanced
      { search, cursor, calls := [], searched := [] } locks visited saved asked) row first
    rw [after] at here
    have final := (@gotAGoodValue_final _ _ _ _ getf canBulkFetch rest
      (SearchState.advanced { search, cursor, calls := [], searched := [] } locks visited saved
        (interrupts ++ asked)) decides row).1
    rw [here] at tries
    have stopped := ftSearch_of_stopped final.1 tries
    rw [stopped] at ran
    obtain ⟨rfl, rfl⟩ := Prod.mk.inj (Option.some.inj ran)
    obtain ⟨same, ordered⟩ := Granted.accepted_all granted inOrder
    have wanted := fun bulk => safe bulk bn _ row rest reached first
    have scanned := @gotAGoodValue_scanned _ _ _ _ getf full rows before start cursor
      canBulkFetch rest more row
      (SearchState.advanced { search, cursor, calls := [], searched := [] } locks visited saved
        (interrupts ++ asked))
      agrees rfl kept ordered same (left.trans shape)
      fun bulk inRange continues => wanted bulk inRange continues
    refine ⟨scanned.1, scanned.2, scanned.3, fun single notOk => scanned.4 single fun ok => ?_⟩
    rw [ok] at notOk
    exact notOk rfl
  | nothing locks ends visited saved asked granted atEnd outside =>
    have stopped := ftSearch_of_notFound tries
    rw [stopped] at ran
    obtain ⟨rfl, rfl⟩ := Prod.mk.inj (Option.some.inj ran)
    obtain ⟨same, ordered⟩ := Granted.accepted granted inOrder
    obtain ⟨sameEnd, ordered⟩ := atEnd.accepted ordered
    have same := sameEnd.trans same
    rw [← List.append_assoc, ← List.append_nil (ends ++ locks)] at same ordered
    exact .of_none (ordered.of_none rfl) ⟨rfl, rfl, rfl, rfl, rfl⟩ rfl rfl
      ((accepted_of_none rfl).trans same)

end search

end Tokuft
