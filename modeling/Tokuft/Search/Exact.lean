import Tokuft.Search.Cursor

/-! Every operation of a cursor passes on exactly the row it is for, and searches nothing twice. -/

namespace Tokuft

variable {Key Entry Val Child : Type} {height : Nat} {direction : FtSearchDirection}

section searched

variable [LinearOrder Key] {getf : FtGetCallback Key Val} {canBulkFetch : Bool}

/-- A try searches one basement node. -/
theorem tryPart_searched (decides : getf.Decides) {part : SearchPart Key Entry}
    {state : SearchState Key Entry Val} :
    (tryPart getf canBulkFetch part state).2.searched = part.path :: state.searched := by
  have kept := @ftSearchBasementNode_searched _ _ _ _ getf canBulkFetch part.bn
    { state with searched := part.path :: state.searched } decides
  unfold tryPart
  simp only
  split
  · exact kept
  · exact kept

/-- A sweep searches some of the basement nodes, one after the other. -/
theorem searchParts_searched (decides : getf.Decides) {parts : List (SearchPart Key Entry)}
    {state : SearchState Key Entry Val} :
    ∃ more, (searchParts getf canBulkFetch parts state).2.searched = more ++ state.searched ∧
      more.reverse.Sublist (parts.map SearchPart.path) := by
  -- By induction on the basement nodes, some of which are passed over.
  induction parts generalizing state with
  | nil => exact ⟨[], rfl, List.Sublist.slnil⟩
  | cons part more ih =>
    rw [searchParts, List.map_cons]
    split
    · obtain ⟨others, searched, sublist⟩ := @ih state
      exact ⟨others, searched, sublist.cons _⟩
    · have here := @tryPart_searched _ _ _ _ getf canBulkFetch decides part state
      have alone : [part.path].reverse.Sublist (part.path :: more.map SearchPart.path) :=
        List.Sublist.cons_cons _ (List.nil_sublist _)
      cases tried : tryPart getf canBulkFetch part state with
      | mk r found =>
        rw [tried] at here
        cases r with
        | some r => exact ⟨[part.path], here, alone⟩
        | none =>
          cases part.next with
          | none => exact ⟨[part.path], here, alone⟩
          | some pivot =>
            simp only
            split
            · obtain ⟨others, searched, sublist⟩ := @ih (found.saved pivot)
              refine ⟨others ++ [part.path], ?_, ?_⟩
              · rw [searched, List.append_assoc]
                exact congrArg (others ++ ·) here
              · rw [List.reverse_append]
                exact sublist.cons_cons _
            · exact ⟨[part.path], here, alone⟩

end searched

/-- To the left one meets the entries of children the other way around. -/
theorem childParts_entries {upper : Option Key}
    {parts : FtSearchDirection → Child → PivotBounds Key → List Nat → List (SearchPart Key Entry)}
    (turned : ∀ child bounds path,
      (parts .right child bounds path).flatMap (fun part => part.bn.reverse) =
        ((parts .left child bounds path).flatMap SearchPart.bn).reverse)
    {path : List Nat} {place : Nat} {lower : Option Key} {children : List Child}
    {pivots : List Key} :
    (childParts .right upper (parts .right) path place lower children pivots).flatMap
        (fun part => part.bn.reverse) =
      ((childParts .left upper (parts .left) path place lower children pivots).flatMap
        SearchPart.bn).reverse := by
  -- By induction on the pivots.
  induction pivots generalizing place lower children with
  | nil =>
    cases children with
    | nil => rfl
    | cons child rest => exact turned child _ _
  | cons pivot pivots ih =>
    cases children with
    | nil => rfl
    | cons child rest =>
      rw [childParts, childParts, inOrder, inOrder, List.flatMap_append, List.flatMap_append,
        List.reverse_append, turned, ih]

/-- To the left one meets the entries of a partition the other way around. -/
theorem partsOf_entries : ∀ (node : FtPartition Key Entry height) (bounds : PivotBounds Key)
    (path : List Nat),
    (partsOf .right height node bounds path).flatMap (fun part => part.bn.reverse) =
      ((partsOf .left height node bounds path).flatMap SearchPart.bn).reverse := by
  -- By induction on the height.
  induction height with
  | zero =>
    intro bn bounds path
    have bn : List (Key × Entry) := bn
    exact (List.append_nil _).trans (congrArg List.reverse (List.append_nil _).symm)
  | succ height ih =>
    intro node bounds path
    exact @childParts_entries _ _ _ _ (fun direction => partsOf direction height) ih _ _ _ _ _

variable [LinearOrder Key]

/-- The entries of the basement nodes of a tree, in the direction of search. -/
theorem FtTree.parts_entries (tree : FtTree Key Entry) :
    (tree.parts direction).flatMap (fun part => entriesIn direction part.bn) =
      entriesIn direction tree.entries := by
  cases direction with
  | left => rfl
  | right => exact @partsOf_entries _ _ (tree.height + 1) tree.root .infiniteBounds []

/-- What a search returns after something has stopped it. -/
def FtCode.stopped (r : FtCode) : FtCode := if r = .foundButRejected then .notFound else r

/-- What a search returns after a row was passed to the caller. -/
def FtCode.taken (r : FtCode) : FtCode := if r = .cursorContinue then .ok else r.stopped

/--
How a search ends, given the rows that it is for: its result and its calls.

All but the latest calls only ask for locks, except for those of a bulk fetch.
-/
inductive SearchEnds (getf : FtGetCallback Key Val) (canBulkFetch : Bool) (search : FtSearch Key)
    (cursor : FtCursor Key Entry Val) (interrupts : List Nat) (rows : List (Key × Val)) :
    FtCode → List (GetfCall Key Val) → Prop where
  /-- None of the rows has been met when the keys up to a pivot, or the end, cannot be locked. -/
  | lockRefused (pivot : Option Key) (locks calls) (granted : Granted getf cursor.key [] locks)
    (latest : calls =
      { position := cursor.key, key := pivot, val := none, lockOnly := true } :: locks)
    (holds : ∀ key ∈ pivot, search.compare.holds key = true)
    (past : ∀ row ∈ rows,
      (∃ key ∈ pivot, search.direction.past key row.1) ∨ search.Outside row.1)
    (refused : getf calls ≠ .ok) :
    SearchEnds getf canBulkFetch search cursor interrupts rows (getf calls).stopped calls
  /-- The caller wants no more deleted entries to be passed over. -/
  | interrupted (locks) (granted : Granted getf cursor.key [] locks)
    (asked : ∃ interruptCb ∈ cursor.interruptCb, interruptCb interrupts = true) :
    SearchEnds getf canBulkFetch search cursor interrupts rows .interrupted locks
  /-- The first of the rows is outside the range that the cursor is restricted to. -/
  | outOfRange (row more error locks) (granted : Granted getf cursor.key [] locks)
    (first : rows = row :: more) (refused : cursor.refusal row.1 = some error) :
    SearchEnds getf canBulkFetch search cursor interrupts rows error.code.stopped locks
  /-- The first of the rows is passed to the caller, and with a bulk fetch perhaps others. -/
  | shown (row more locks calls bulk r) (granted : Granted getf cursor.key [] locks)
    (first : rows = row :: more) (inRange : cursor.refusal row.1 = none)
    (latest : calls =
      { position := cursor.key, key := some row.1, val := some row.2, lockOnly := false } :: locks)
    (alone : canBulkFetch = false ∨ getf calls ≠ .cursorContinue →
      bulk = [] ∧ r = (getf calls).taken) :
    SearchEnds getf canBulkFetch search cursor interrupts rows r (bulk ++ calls)
  /-- There is none of the rows within the bound, and the caller is told so. -/
  | nothing (locks ends calls) (granted : Granted getf cursor.key [] locks)
    (atEnd : GrantedEnd getf cursor.key true locks ends)
    (outside : ∀ row ∈ rows, search.Outside row.1)
    (latest : calls =
      { position := cursor.key, key := none, val := none, lockOnly := false } :: (ends ++ locks)) :
    SearchEnds getf canBulkFetch search cursor interrupts rows
      (if getf calls = .ok then .notFound else getf calls) calls

section search

variable {getf : FtGetCallback Key Val} {canBulkFetch : Bool}

variable {tree : FtTree Key Entry} {search : FtSearch Key} {cursor : FtCursor Key Entry Val}
  {fuel : Nat} {state : SearchState Key Entry Val}

/-- A search returns what has stopped it. -/
theorem ftSearch_of_stopped {r : FtCode} (stopped : r ≠ .notFound)
    (tries : ftSearchTries getf canBulkFetch tree.root fuel
      { search, cursor, calls := [], searched := [] } = some (r, state)) :
    ftSearch getf canBulkFetch tree.root fuel search cursor = some (r.stopped, state) := by
  rw [ftSearch, tries]
  simp only [bind, Option.bind_some, FtCode.stopped, stopped, if_false]
  split <;> rfl

/-- A search that has found nothing tells the caller. -/
theorem ftSearch_of_notFound
    (tries : ftSearchTries getf canBulkFetch tree.root fuel
      { search, cursor, calls := [], searched := [] } = some (.notFound, state)) :
    ftSearch getf canBulkFetch tree.root fuel search cursor =
      some (if (state.getf getf none none false).1 = .ok then .notFound
        else (state.getf getf none none false).1, (state.getf getf none none false).2) := by
  rw [ftSearch, tries]
  simp only [bind, Option.bind_some, reduceCtorEq, if_false, if_true, ne_eq, ite_not]
  rfl

section

variable (decides : getf.Decides) (agrees : search.Agrees) (fresh : search.pivotBound = none)
  (enough : (tree.parts search.direction).length ≤ fuel)
include decides agrees fresh enough

/-- The tries of a search are a sweep, and search no basement node twice. -/
theorem ftSearchTries_swept :
    ∃ outcome bound,
      Swept getf canBulkFetch { search, cursor, calls := [], searched := [] }
        (rowsFrom search cursor.leVal (tree.parts search.direction))
        (sweepTo getf (tree.parts search.direction) { search, cursor, calls := [], searched := [] })
        outcome ∧
      ftSearchTries getf canBulkFetch tree.root fuel
          { search, cursor, calls := [], searched := [] } =
        some (outcome.1,
          { outcome.2 with search := { outcome.2.search with pivotBound := bound } }) ∧
      outcome.2.searched.reverse.Sublist ((tree.parts search.direction).map SearchPart.path) := by
  -- Each try goes on where the one before it stopped.
  have reached : search.Reached none := by
    intro bound given
    rw [fresh] at given
    cases given
  obtain ⟨bound, tries⟩ := @ftSearchTries_eq _ _ _ _ getf canBulkFetch tree decides fuel
    { search, cursor, calls := [], searched := [] } agrees [] _ rfl (List.forall_mem_nil _) enough
  obtain ⟨searched, last, sublist⟩ := @searchParts_searched _ _ _ _ getf canBulkFetch decides
    (tree.parts search.direction) { search, cursor, calls := [], searched := [] }
  rw [List.append_nil] at last
  exact ⟨_, bound, searchParts_swept decides agrees tree.parts_ok reached, tries, last ▸ sublist⟩

end

end search

end Tokuft
