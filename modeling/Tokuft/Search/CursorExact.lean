import Tokuft.Search.Exact

/-! What the caller of a cursor operation gets: the row asked for, or the word that there is none. -/

namespace Tokuft

variable {Key Entry Val : Type} [LinearOrder Key]

/--
How an operation ends, given the rows that it meets and those that it is for.

The end is its result and the calls that its caller gets, the latest first.
All but the latest calls only ask for locks, except for those of a bulk fetch.
-/
inductive CursorOp.Ends (op : CursorOp Key) (getf : FtGetCallback Key Val)
    (cursor : FtCursor Key Entry Val) (interrupts : List Nat) (met rows : List (Key × Val)) :
    FtCode → List (GetfCall Key Val) → Prop where
  /-- The keys up to some pivot, or the end of the tree, cannot be locked. -/
  | lockRefused (pivot : Option Key) (locks calls) (granted : Granted getf cursor.key [] locks)
    (latest : calls =
      { position := cursor.key, key := pivot, val := none, lockOnly := true } :: locks)
    (refused : getf calls ≠ .ok) :
    op.Ends getf cursor interrupts met rows (getf calls).stopped calls
  /-- The caller wants no more deleted entries to be passed over. -/
  | interrupted (locks) (granted : Granted getf cursor.key [] locks)
    (asked : ∃ interruptCb ∈ cursor.interruptCb, interruptCb interrupts = true) :
    op.Ends getf cursor interrupts met rows .interrupted locks
  /-- The first row that is met is outside the range that the cursor is restricted to. -/
  | outOfRange (row more error locks) (granted : Granted getf cursor.key [] locks)
    (first : met = row :: more) (refused : cursor.refusal row.1 = some error) :
    op.Ends getf cursor interrupts met rows error.code.stopped locks
  /-- The first of the rows is passed to the caller, and by a bulk fetch perhaps others. -/
  | shown (row more locks calls bulk r) (granted : Granted getf cursor.key [] locks)
    (first : rows = row :: more) (inRange : cursor.refusal row.1 = none)
    (latest : calls =
      { position := cursor.key, key := some row.1, val := some row.2, lockOnly := false } :: locks)
    (alone : op ≠ .next ∧ op ≠ .prev ∨ getf calls ≠ .cursorContinue →
      bulk = [] ∧ r = (getf calls).taken) :
    op.Ends getf cursor interrupts met rows r (bulk ++ calls)
  /-- There is none of the rows within the bound, and the caller is told so. -/
  | nothing (locks ends calls atEnd lockOnly r) (granted : Granted getf cursor.key [] locks)
    (grantedEnd : GrantedEnd getf cursor.key atEnd locks ends)
    (outside : ∀ row ∈ rows, op.Outside row.1)
    (latest : calls =
      { position := cursor.key, key := none, val := none, lockOnly } :: (ends ++ locks))
    (result : getf calls ≠ .cursorContinue → getf calls ≠ .foundButRejected →
      r = if getf calls = .ok then .notFound else getf calls) :
    op.Ends getf cursor interrupts met rows r calls

section ends

variable {getf : FtGetCallback Key Val} {canBulkFetch : Bool} {search : FtSearch Key}
  {cursor : FtCursor Key Entry Val} {interrupts : List Nat} {rows : List (Key × Val)} {r : FtCode}
  {calls : List (GetfCall Key Val)}

/-- An operation that is nothing but a search ends as the search does. -/
theorem SearchEnds.plain {op : CursorOp Key}
    (ends : SearchEnds getf canBulkFetch search cursor interrupts rows r calls)
    (single : op ≠ .next ∧ op ≠ .prev → canBulkFetch = false)
    (outside : ∀ key, search.Outside key → op.Outside key) :
    op.Ends getf cursor interrupts rows rows r calls := by
  -- One case for each way in which a search ends.
  cases ends with
  | lockRefused pivot locks _ granted latest holds past refused =>
    exact .lockRefused pivot locks _ granted latest refused
  | interrupted _ granted asked => exact .interrupted _ granted asked
  | outOfRange row more error _ granted first refused =>
    exact .outOfRange row more error _ granted first refused
  | shown row more locks calls bulk _ granted first inRange latest alone =>
    exact .shown row more locks calls bulk _ granted first inRange latest fun one =>
      alone (one.imp_left single)
  | nothing locks ends _ granted atEnd outsides latest =>
    exact .nothing locks ends _ true false _ granted atEnd
      (fun row member => outside _ (outsides row member)) latest fun _ _ => rfl

variable {k : Key}

/-- The answer of the caller to a call that is not about the key that is searched for. -/
theorem ftCursorSearchEqKXGetf_differs {call : GetfCall Key Val} {key : Key}
    (given : call.key = some key) (differs : key ≠ k) :
    ftCursorSearchEqKXGetf getf k (call :: calls) =
      if getf ((call :: calls).map (eqCall k)) = .ok then .foundButRejected
      else getf ((call :: calls).map (eqCall k)) := by
  obtain ⟨position, _, val, lockOnly⟩ := call
  cases given
  simp only [ftCursorSearchEqKXGetf, ne_eq, differs, not_false_eq_true, true_and]

/-- The answer of the caller to a call about the key that is searched for. -/
theorem ftCursorSearchEqKXGetf_same {call : GetfCall Key Val} (given : ∀ key ∈ call.key, key = k) :
    ftCursorSearchEqKXGetf getf k (call :: calls) = getf ((call :: calls).map (eqCall k)) := by
  obtain ⟨position, key, val, lockOnly⟩ := call
  cases key with
  | none => rfl
  | some key => simp only [ftCursorSearchEqKXGetf, given key rfl, ne_eq, not_true_eq_false,
      false_and, if_false]

/-- Keys are locked for a search for one key only up to that key. -/
theorem Granted.eqCall {position : Option Key} {locks : List (GetfCall Key Val)}
    (granted : Granted (ftCursorSearchEqKXGetf getf k) position [] locks) :
    Granted getf position [] (locks.map (eqCall k)) := by
  induction locks with
  | nil => trivial
  | cons lock locks ih =>
    obtain ⟨⟨pivot, rfl⟩, answer, others⟩ := granted
    rw [List.append_nil] at answer
    by_cases same : pivot = k
    · subst same
      rw [ftCursorSearchEqKXGetf_same (by rintro key ⟨⟩; rfl)] at answer
      have kept : Tokuft.eqCall pivot
          { position, key := some pivot, val := none, lockOnly := true } =
            ({ position, key := some pivot, val := none, lockOnly := true } : GetfCall Key Val) :=
        if_pos rfl
      rw [List.map_cons, kept] at answer ⊢
      exact ⟨⟨pivot, rfl⟩, by rw [List.append_nil]; exact answer, ih others⟩
    · -- Anything else would have stopped the search.
      rw [ftCursorSearchEqKXGetf_differs rfl same] at answer
      split at answer
      · cases answer
      · rename_i refused
        exact absurd answer refused

/-- At the end of the tree a search for one key tells its caller that there is nothing. -/
theorem GrantedEnd.eqCall {position : Option Key} {locks ends : List (GetfCall Key Val)}
    (granted : GrantedEnd (ftCursorSearchEqKXGetf getf k) position true locks ends) :
    GrantedEnd getf position false (locks.map (eqCall k)) (ends.map (eqCall k)) := by
  rcases granted with rfl | ⟨rfl, answer⟩
  · exact Or.inl rfl
  · rw [List.singleton_append, ftCursorSearchEqKXGetf_same nofun] at answer
    exact Or.inr ⟨rfl, answer⟩

/-- A search for the rows from some key on, told only of that key, is one for its row. -/
theorem SearchEnds.set (sorted : rows.Pairwise fun first second => first.1 < second.1)
    (from_ : ∀ row ∈ rows, k ≤ row.1)
    (ends : SearchEnds (ftCursorSearchEqKXGetf getf k) false (ftSearchInit (.setRange k) .left none)
      cursor interrupts rows r calls) :
    (CursorOp.set k).Ends getf cursor interrupts rows (rows.filter fun row => decide (row.1 = k)) r
      (calls.map (eqCall k)) := by
  have none_of_lt (above : ∀ row ∈ rows, k < row.1) :
      ∀ row ∈ rows.filter fun row => decide (row.1 = k), (CursorOp.set k).Outside row.1 := by
    intro row member
    obtain ⟨inside, same⟩ := List.mem_filter.mp member
    exact absurd (of_decide_eq_true same) (above row inside).ne'
  -- What the caller is told of another row is that there is nothing.
  have told {call : GetfCall Key Val} {key : Key}
      (given : call.key = some key) (differs : key ≠ k) :
      eqCall k call = { call with key := none, val := none } := by
    rw [eqCall, given]
    exact if_neg differs
  cases ends with
  | lockRefused pivot locks _ granted latest holds past refused =>
    subst latest
    cases pivot with
    | none =>
      -- Nothing can be locked behind the last row, and there is no row left.
      rw [ftCursorSearchEqKXGetf_same nofun] at refused ⊢
      refine .nothing _ [] _ true false _ granted.eqCall (Or.inl rfl)
        (none_of_lt fun row member => ?_) rfl fun _ notRejected => ?_
      · rcases past row member with ⟨key, given, -⟩ | ⟨-, kBound, given, -⟩
        · cases given
        · cases given
      · rw [if_neg refused]
        exact if_neg notRejected
    | some pivot =>
      by_cases same : pivot = k
      · subst same
        rw [ftCursorSearchEqKXGetf_same (by rintro key ⟨⟩; rfl)] at refused ⊢
        exact .lockRefused (some pivot) _ _ granted.eqCall (congrArg (· :: _) (if_pos rfl)) refused
      · rw [ftCursorSearchEqKXGetf_differs rfl same]
        have above : k < pivot :=
          lt_of_le_of_ne (of_decide_eq_true (holds pivot rfl)) (Ne.symm same)
        refine .nothing _ [] _ true true _ granted.eqCall (Or.inl rfl)
          (none_of_lt fun row member => ?_) (congrArg (· :: _) (told rfl same))
            fun _ notRejected => ?_
        · rcases past row member with ⟨key, given, further⟩ | ⟨-, kBound, given, -⟩
          · cases given
            exact lt_trans above further
          · cases given
        · split
          · rfl
          · exact if_neg notRejected
  | interrupted _ granted asked => exact .interrupted _ granted.eqCall asked
  | outOfRange row more error _ granted first refused =>
    exact .outOfRange row more error _ granted.eqCall first refused
  | shown row more locks calls bulk _ granted first inRange latest alone =>
    obtain ⟨rfl, rfl⟩ := alone (Or.inl rfl)
    rw [List.nil_append]
    subst latest
    by_cases same : row.1 = k
    · rw [ftCursorSearchEqKXGetf_same (by rintro key ⟨⟩; exact same)]
      refine .shown row (more.filter fun row => decide (row.1 = k)) _ _
        [] _ granted.eqCall ?_ inRange
        (congrArg (· :: _) (if_pos same)) fun _ => ⟨rfl, rfl⟩
      rw [first]
      exact List.filter_cons_of_pos (decide_eq_true same)
    · rw [ftCursorSearchEqKXGetf_differs rfl same]
      have above : k < row.1 :=
        lt_of_le_of_ne (from_ row (first ▸ List.mem_cons_self)) (Ne.symm same)
      refine .nothing _ [] _ true false _ granted.eqCall (Or.inl rfl)
        (none_of_lt fun other member => ?_) (congrArg (· :: _) (told rfl same))
        fun notContinue notRejected => ?_
      · rw [first] at member sorted
        rcases List.mem_cons.mp member with rfl | behind
        · exact above
        · exact lt_trans above ((List.pairwise_cons.mp sorted).1 other behind)
      · split
        · rfl
        · exact (if_neg notContinue).trans (if_neg notRejected)
  | nothing locks ends _ granted atEnd outside latest =>
    subst latest
    rw [ftCursorSearchEqKXGetf_same nofun, List.map_cons, List.map_append]
    refine .nothing _ _ _ false false _ granted.eqCall atEnd.eqCall (fun row member => ?_) rfl
      fun _ _ => rfl
    obtain ⟨-, kBound, given, -⟩ := outside row (List.mem_filter.mp member).1
    cases given

end ends

section

variable {direction : FtSearchDirection}

/-- A key that follows a pivot comes behind one that does not. -/
theorem FtSearchDirection.lt_of_past {pivot first second : Key} (here : ¬direction.past pivot first)
    (past : direction.past pivot second) :
    direction.lt first second := by
  cases direction with
  | left => exact lt_of_le_of_lt (not_lt.mp here) past
  | right => exact lt_of_le_of_lt past (not_le.mp here)

/-- The entries of basement nodes that follow each other are in the order of the direction. -/
theorem PartsOk.sorted {before : Option Key} {parts : List (SearchPart Key Entry)}
    (ok : PartsOk direction before parts) :
    (parts.flatMap fun part => entriesIn direction part.bn).Pairwise
      fun first second => direction.lt first.1 second.1 := by
  -- By induction on the basement nodes: a pivot lies between each and the next.
  induction parts generalizing before with
  | nil => exact List.Pairwise.nil
  | cons part more ih =>
    obtain ⟨here, last, rest⟩ := ok
    rw [List.flatMap_cons]
    refine List.pairwise_append.mpr ⟨here.sorted, ih rest, fun first inside second behind => ?_⟩
    cases next : part.next with
    | none =>
      rw [last next] at behind
      cases behind
    | some pivot =>
      exact FtSearchDirection.lt_of_past ((here.past (mem_entriesIn.mp inside)).2 pivot next)
        (rest.past behind pivot next)

/-- What is seen of entries in order is in order. -/
theorem visible_sorted {leVal : Entry → Option Val} {entries : List (Key × Entry)}
    (sorted : entries.Pairwise fun first second => direction.lt first.1 second.1) :
    (visible leVal entries).Pairwise fun first second => direction.lt first.1 second.1 := by
  -- By induction on the entries, of which some are left out.
  induction entries with
  | nil => exact List.Pairwise.nil
  | cons entry rest ih =>
    obtain ⟨key, le⟩ := entry
    obtain ⟨above, others⟩ := List.pairwise_cons.mp sorted
    cases seen : leVal le with
    | none =>
      rw [visible_cons_none seen]
      exact ih others
    | some val =>
      rw [visible_cons_some seen]
      refine List.pairwise_cons.mpr ⟨fun row member => ?_, ih others⟩
      obtain ⟨entry, inside, same⟩ := exists_of_mem_visible member
      exact same ▸ above entry inside

end

section retries

variable {getf : FtGetCallback Key Val} {canBulkFetch : Bool} {tree : FtTree Key Entry}

end retries

section operations

variable {getf : FtGetCallback Key Val} {canBulkFetch : Bool} {tree : FtTree Key Entry}
  {fuel : Nat} {cursor : FtCursor Key Entry Val}

section

variable {search : FtSearch Key} {leVal : Entry → Option Val}

/-- The rows of a search, as rows of the tree. -/
theorem rowsFrom_parts :
    rowsFrom search leVal (tree.parts search.direction) =
      (visible leVal (entriesIn search.direction tree.entries)).filter fun row =>
        search.compare.holds row.1 := by
  rw [rowsFrom, tree.parts_entries]

end

/-- The comparisons of the operations go along with their directions. -/
theorem ftSearchInit_agrees (keyBound : Option Key) :
    (ftSearchInit (.one : SearchCompare Key) .left none).Agrees ∧
      (ftSearchInit (.one : SearchCompare Key) .right none).Agrees ∧
      ∀ k : Key, (ftSearchInit (.next k) .left none).Agrees ∧
        (ftSearchInit (.prev k) .right none).Agrees ∧
        (ftSearchInit (.setRange k) .left keyBound).Agrees ∧
        (ftSearchInit (.setRangeReverse k) .right none).Agrees := by
  refine ⟨fun _ _ _ _ => rfl, fun _ _ _ _ => rfl, fun k => ⟨?_, ?_, ?_, ?_⟩⟩
  · exact fun x y le holds => decide_eq_true (lt_of_lt_of_le (of_decide_eq_true holds) le)
  · exact fun x y le holds => decide_eq_true (lt_of_le_of_lt le (of_decide_eq_true holds))
  · exact fun x y le holds => decide_eq_true (le_trans (of_decide_eq_true holds) le)
  · exact fun x y le holds => decide_eq_true (le_trans le (of_decide_eq_true holds))

end operations

/-- A cursor that is not set and sees the rows that have a value. -/
def unsetCursor : FtCursor Nat (Option Nat) Nat where
  key := none
  val := none
  isTemporary := false
  leVal := id
  direction := 0
  rangeLockLeftKey := none
  rangeLockRightKey := none
  outOfRangeError := none
  interruptCb := none

end Tokuft
