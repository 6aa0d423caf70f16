import Tokuft.Search.Sweep

/-! A sweep stops at the first row that the search is for, or looks at all of them. -/

namespace Tokuft

variable {Key Entry Val : Type} {leVal : Entry → Option Val}

/-- The entries of a basement node, in the direction of search. -/
def entriesIn (direction : FtSearchDirection) (bn : List (Key × Entry)) : List (Key × Entry) :=
  match direction with
  | .left => bn
  | .right => bn.reverse

/-- The rows among some entries that a cursor sees. -/
def visible (leVal : Entry → Option Val) (entries : List (Key × Entry)) : List (Key × Val) :=
  entries.filterMap fun entry => (leVal entry.2).map (entry.1, ·)

variable {key : Key}

/-- A deleted entry is not seen. -/
theorem visible_cons_none {le : Entry} {rest : List (Key × Entry)} (none : leVal le = none) :
    visible leVal ((key, le) :: rest) = visible leVal rest := by
  rw [visible, List.filterMap_cons_none (by rw [none]; rfl)]
  rfl

/-- An entry with a value is seen. -/
theorem visible_cons_some {le : Entry} {val : Val} {rest : List (Key × Entry)}
    (some : leVal le = some val) :
    visible leVal ((key, le) :: rest) = (key, val) :: visible leVal rest := by
  rw [visible, List.filterMap_cons_some (by rw [some]; rfl)]
  rfl

variable {entries : List (Key × Entry)}

/-- What is seen among entries has the key of one of them. -/
theorem exists_of_mem_visible {row : Key × Val} (member : row ∈ visible leVal entries) :
    ∃ entry ∈ entries, entry.1 = row.1 := by
  obtain ⟨entry, inside, seen⟩ := List.mem_filterMap.mp member
  obtain ⟨val, -, same⟩ := Option.map_eq_some_iff.mp seen
  exact ⟨entry, inside, congrArg Prod.fst same⟩

/-- Choosing rows by their keys is choosing entries by their keys. -/
theorem visible_filter {test : Key → Bool} :
    (visible leVal entries).filter (fun row => test row.1) =
      visible leVal (entries.filter fun entry => test entry.1) := by
  -- By induction on the entries: visibility depends on the value, and the test on the key.
  induction entries with
  | nil => rfl
  | cons entry rest ih =>
    obtain ⟨key, le⟩ := entry
    cases seen : leVal le with
    | none =>
      rw [visible_cons_none seen, ih, List.filter_cons]
      split
      · rw [visible_cons_none seen]
      · rfl
    | some val =>
      rw [visible_cons_some seen, List.filter_cons, ih, List.filter_cons]
      simp only
      split
      · rw [visible_cons_some seen]
      · rfl

variable [LinearOrder Key] {search : FtSearch Key}

/-- The rows of basement nodes that a search is for, in its direction. -/
def rowsFrom (search : FtSearch Key) (leVal : Entry → Option Val)
    (parts : List (SearchPart Key Entry)) : List (Key × Val) :=
  (visible leVal (parts.flatMap fun part => entriesIn search.direction part.bn)).filter
    fun row => search.compare.holds row.1

/-- Whether a key comes before another one in the direction of search. -/
def FtSearchDirection.lt (direction : FtSearchDirection) (near far : Key) : Prop :=
  match direction with
  | .left => near < far
  | .right => far < near

/-- Whether a key lies behind the bound of a search. -/
def FtSearch.Outside (search : FtSearch Key) (key : Key) : Prop :=
  search.direction = .left ∧ ∃ kBound, search.kBound = some kBound ∧ kBound < key

/-- A comparison goes along with the direction of its search. -/
theorem FtSearch.Agrees.holds_of_le (agrees : search.Agrees) {near far : Key}
    (le : search.direction.le near far) (holds : search.compare.holds near = true) :
    search.compare.holds far = true := by
  -- The comparison rises in the one direction, and falls in the other.
  unfold FtSearch.Agrees at agrees
  cases way : search.direction with
  | left =>
    rw [way] at agrees le
    exact agrees near far le holds
  | right =>
    rw [way] at agrees le
    exact agrees far near le holds

/-- Where a test holds from some place on, choosing is dropping what comes before. -/
theorem filter_eq_dropWhile {Item : Type} {test : Item → Bool} {items : List Item}
    (rises : items.Pairwise fun first second => test first = true → test second = true) :
    items.filter test = items.dropWhile fun item => !test item := by
  -- By induction on the items: from the first that passes on, all pass.
  induction items with
  | nil => rfl
  | cons item rest ih =>
    obtain ⟨above, others⟩ := List.pairwise_cons.mp rises
    cases holds : test item with
    | true =>
      rw [List.dropWhile_cons_of_neg (by simp [holds])]
      exact List.filter_eq_self.mpr (List.forall_mem_cons.mpr
        ⟨holds, fun other member => above other member holds⟩)
    | false => rw [List.filter_cons_of_neg (by simp [holds]), ih others,
        List.dropWhile_cons_of_pos (by simp [holds])]

/-- Whether a key belongs to what follows a pivot in the direction of search. -/
def FtSearchDirection.past (direction : FtSearchDirection) (pivot key : Key) : Prop :=
  match direction with
  | .left => pivot < key
  | .right => key ≤ pivot

/-- What follows a pivot follows every earlier one. -/
theorem FtSearchDirection.past_of_le {direction : FtSearchDirection} {near far : Key}
    (le : direction.le near far) (past : direction.past far key) : direction.past near key := by
  cases direction with
  | left => exact lt_of_le_of_lt le past
  | right => exact past.trans le

/-- What does not follow a pivot comes no later. -/
theorem FtSearchDirection.le_of_not_past {direction : FtSearchDirection} {pivot : Key}
    (here : ¬direction.past pivot key) : direction.le key pivot := by
  cases direction with
  | left => exact not_lt.mp here
  | right => exact le_of_not_ge here

section basement

variable {direction : FtSearchDirection} {before next : Option Key} {bn : List (Key × Entry)}
  {entry : Key × Entry}

omit [LinearOrder Key] in
/-- The entries in some direction are the entries. -/
@[simp] theorem mem_entriesIn :
    entry ∈ entriesIn direction bn ↔ entry ∈ bn := by
  cases direction <;> simp [entriesIn]

/-- The keys of a basement node follow the pivot before it, and not the one behind it. -/
theorem BasementOk.past (ok : BasementOk (.between direction before next) bn)
    (member : entry ∈ bn) :
    (∀ pivot ∈ before, direction.past pivot entry.1) ∧
      ∀ pivot ∈ next, ¬direction.past pivot entry.1 := by
  obtain ⟨low, high⟩ := ok.within.2 entry member
  cases direction with
  | left => exact ⟨low, fun pivot given => not_lt.mpr (high pivot given)⟩
  | right => exact ⟨high, fun pivot given => not_le.mpr (low pivot given)⟩

/-- The keys of a basement node are in the order of the direction. -/
theorem BasementOk.sorted (ok : BasementOk (.between direction before next) bn) :
    (entriesIn direction bn).Pairwise fun first second => direction.lt first.1 second.1 := by
  cases direction with
  | left => exact ok.within.1
  | right => exact List.pairwise_reverse.mpr ok.within.1

/-- What a basement node has for a search. -/
theorem BasementOk.rows (agrees : search.Agrees)
    (ok : BasementOk (.between search.direction before next) bn) :
    (visible leVal (entriesIn search.direction bn)).filter
        (fun row => search.compare.holds row.1) =
      visible leVal ((entriesIn search.direction bn).dropWhile
        fun entry => !search.compare.holds entry.1) := by
  rw [visible_filter, @filter_eq_dropWhile _ fun entry : Key × Entry =>
    search.compare.holds entry.1]
  refine ok.sorted.imp fun {first second} lt holds => agrees.holds_of_le ?_ holds
  cases way : search.direction <;> rw [way] at lt <;> exact le_of_lt lt

/-- The rows of basement nodes follow the pivot before all of them. -/
theorem PartsOk.past {parts : List (SearchPart Key Entry)} (ok : PartsOk direction before parts)
    (member : entry ∈ parts.flatMap fun part => entriesIn direction part.bn) :
    ∀ pivot ∈ before, direction.past pivot entry.1 := by
  -- By induction on the basement nodes: each begins behind the pivot before it.
  induction parts generalizing before with
  | nil => cases member
  | cons part more ih =>
    obtain ⟨here, last, rest⟩ := ok
    rw [List.flatMap_cons] at member
    rcases List.mem_append.mp member with first | others
    · exact (here.past (mem_entriesIn.mp first)).1
    · cases ends : part.next with
      | none =>
        rw [last ends] at others
        cases others
      | some following =>
        intro pivot given
        exact FtSearchDirection.past_of_le (here.le given ends)
          (ih rest others following ends)

end basement

/-- What was found is the first of some rows, or they are all outside the bound. -/
def FoundFirst (search : FtSearch Key) (leVal : Entry → Option Val) (rows : List (Key × Val)) :
    Option ((Key × Val) × List (Key × Entry)) → Prop
  | some (row, rest) => rows = row :: visible leVal rest
  | none => ∀ row ∈ rows, search.Outside row.1

/-- Passing over deleted entries ends at a visible row, or with none within the bound. -/
theorem skipDeleted_eq {previous : Key} {count : Nat}
    (after : ∀ entry ∈ entries, search.direction.lt previous entry.1)
    (sorted : entries.Pairwise fun first second => search.direction.lt first.1 second.1) :
    FoundFirst search leVal (visible leVal entries)
      (skipDeleted search leVal previous count entries).2 := by
  induction entries generalizing previous count with
  | nil => exact List.forall_mem_nil _
  | cons entry rest ih =>
    obtain ⟨key, le⟩ := entry
    obtain ⟨above, others⟩ := List.pairwise_cons.mp sorted
    rw [skipDeleted]
    by_cases stopped : count % 64 = 0 ∧ searchContinue search previous = false
    · -- The key before is behind the bound already.
      rw [if_pos stopped]
      intro row member
      obtain ⟨entry, inside, same⟩ := exists_of_mem_visible member
      have later := same ▸ after entry inside
      have behind := stopped.2
      unfold searchContinue at behind
      cases way : search.direction with
      | right =>
        rw [way] at behind
        cases behind
      | left =>
        rw [way] at behind later
        obtain ⟨kBound, given, past⟩ := Option.all_eq_false _ _ |>.mp behind
        exact ⟨way, kBound, given, lt_trans (not_le.mp (of_decide_eq_false past)) later⟩
    · rw [if_neg stopped]
      cases seen : leVal le with
      | some val => exact visible_cons_some seen
      | none =>
        rw [visible_cons_none seen]
        exact ih above others

/-- A search of a basement node takes its entries in the direction of the search. -/
theorem findInBasementNode_entries (bn : List (Key × Entry)) :
    findInBasementNode search leVal bn =
      match (entriesIn search.direction bn).dropWhile fun entry =>
        !search.compare.holds entry.1 with
      | [] => (0, none)
      | (key, le) :: rest =>
        match leVal le with
        | some val => (0, some ((key, val), rest))
        | none => skipDeleted search leVal key 1 rest := rfl

/-- A search of a basement node finds the first row that it is for. -/
theorem findInBasementNode_eq (agrees : search.Agrees) {before next : Option Key}
    {bn : List (Key × Entry)} (ok : BasementOk (.between search.direction before next) bn) :
    FoundFirst search leVal ((visible leVal (entriesIn search.direction bn)).filter
        fun row => search.compare.holds row.1) (findInBasementNode search leVal bn).2 := by
  have sorted := List.Pairwise.sublist
    (List.dropWhile_sublist fun entry => !search.compare.holds entry.1) ok.sorted
  rw [ok.rows agrees, findInBasementNode_entries]
  cases left : (entriesIn search.direction bn).dropWhile fun entry =>
      !search.compare.holds entry.1 with
  | nil => exact List.forall_mem_nil _
  | cons entry rest =>
    obtain ⟨key, le⟩ := entry
    rw [left] at sorted
    obtain ⟨above, others⟩ := List.pairwise_cons.mp sorted
    cases seen : leVal le with
    | some val =>
      simp only [seen]
      exact visible_cons_some seen
    | none =>
      simp only [seen]
      rw [visible_cons_none seen]
      exact skipDeleted_eq above others

/-- Locks that were asked for and granted, latest first, after some calls. -/
def Granted (getf : FtGetCallback Key Val) (position : Option Key)
    (calls : List (GetfCall Key Val)) : List (GetfCall Key Val) → Prop
  | [] => True
  | lock :: locks =>
    (∃ pivot, lock = { position, key := some pivot, val := none, lockOnly := true }) ∧
      getf (lock :: locks ++ calls) = .ok ∧ Granted getf position calls locks

/-- Perhaps one more call, when a search has come to the end of the tree. -/
def GrantedEnd (getf : FtGetCallback Key Val) (position : Option Key) (lockOnly : Bool)
    (calls : List (GetfCall Key Val)) (ends : List (GetfCall Key Val)) : Prop :=
  ends = [] ∨
    ends = [{ position, key := none, val := none, lockOnly }] ∧ getf (ends ++ calls) = .ok

/-- The state of a search that has asked for some locks, passed over entries and moved on. -/
def SearchState.advanced (state : SearchState Key Entry Val) (locks : List (GetfCall Key Val))
    (searched : List (List Nat)) (bound : Option Key) (interrupts : List Nat) :
    SearchState Key Entry Val :=
  { search := { state.search with pivotBound := bound }
    cursor := state.cursor
    calls := locks ++ state.calls
    searched := searched ++ state.searched
    interrupts := interrupts ++ state.interrupts }

/-- The basement node in which a sweep finds something, and the state in which it comes there. -/
def sweepTo (getf : FtGetCallback Key Val) :
    List (SearchPart Key Entry) → SearchState Key Entry Val →
      Option (List (Key × Entry) × SearchState Key Entry Val)
  | [], _ => none
  | part :: more, state =>
    if part.skipped state.search then sweepTo getf more state
    else
      let state := { state with searched := part.path :: state.searched }
      if (findInBasementNode state.search state.cursor.leVal part.bn).2.isSome then
        some (part.bn, state)
      else
        let (interrupted, state) := state.passed part.bn
        match part.next with
        | none => none
        | some pivot =>
          let (rr, state) := state.getf getf (some pivot) none true
          if interrupted = false ∧ rr = .ok ∧ state.search.goesOn pivot then
            sweepTo getf more (state.saved pivot)
          else none

/-- How a search goes, given the rows that it is for and where it finds something. -/
inductive Swept (getf : FtGetCallback Key Val) (canBulkFetch : Bool)
    (state : SearchState Key Entry Val) (rows : List (Key × Val))
    (goal : Option (List (Key × Entry) × SearchState Key Entry Val)) :
    FtCode × SearchState Key Entry Val → Prop where
  /-- Up to some pivot, or the end, there is none of the rows, and the keys cannot be locked. -/
  | lockRefused (pivot : Option Key) (locks searched bound interrupts)
    (granted : Granted getf state.cursor.key state.calls locks)
    (holds : ∀ key ∈ pivot, state.search.compare.holds key = true)
    (past : ∀ row ∈ rows,
      (∃ key ∈ pivot, state.search.direction.past key row.1) ∨ state.search.Outside row.1)
    (refused :
      ((state.advanced locks searched bound interrupts).getf getf pivot none true).1 ≠ .ok) :
    Swept getf canBulkFetch state rows goal
      ((state.advanced locks searched bound interrupts).getf getf pivot none true)
  /-- The caller wants no more deleted entries to be passed over. -/
  | interrupted (locks searched bound interrupts)
    (granted : Granted getf state.cursor.key state.calls locks)
    (asked : ∃ interruptCb ∈ state.cursor.interruptCb,
      interruptCb (interrupts ++ state.interrupts) = true) :
    Swept getf canBulkFetch state rows goal
      (.interrupted, state.advanced locks searched bound interrupts)
  /-- The first of the rows is found. -/
  | found (bn row rest more locks searched bound interrupts)
    (granted : Granted getf state.cursor.key state.calls locks)
    (first : (findInBasementNode
      { state.search with pivotBound := bound } state.cursor.leVal bn).2 =
      some (row, rest))
    (shape : rows = row :: visible state.cursor.leVal rest ++ more)
    (reached : goal = some (bn, state.advanced locks searched bound interrupts)) :
    Swept getf canBulkFetch state rows goal
      (ftSearchBasementNode getf canBulkFetch bn (state.advanced locks searched bound interrupts))
  /-- There is none of the rows within the bound. -/
  | nothing (locks ends searched bound interrupts)
    (granted : Granted getf state.cursor.key state.calls locks)
    (atEnd : GrantedEnd getf state.cursor.key true (locks ++ state.calls) ends)
    (outside : ∀ row ∈ rows, state.search.Outside row.1) :
    Swept getf canBulkFetch state rows goal
      (.notFound, state.advanced (ends ++ locks) searched bound interrupts)

section sweep

variable {getf : FtGetCallback Key Val} {canBulkFetch : Bool} {state : SearchState Key Entry Val}
  {before : Option Key} {part : SearchPart Key Entry} {more parts : List (SearchPart Key Entry)}

/-- Everything that a search remembers lies before what it has still to search. -/
def FtSearch.Reached (search : FtSearch Key) (before : Option Key) : Prop :=
  ∀ bound ∈ search.pivotBound, ∃ pivot ∈ before, search.direction.le bound pivot

/-- The rows of basement nodes are those of the first and those of the others. -/
theorem rowsFrom_cons : rowsFrom search leVal (part :: more) =
    (visible leVal (entriesIn search.direction part.bn)).filter
        (fun row => search.compare.holds row.1) ++ rowsFrom search leVal more := by
  rw [rowsFrom, List.flatMap_cons, visible, List.filterMap_append, List.filter_append]
  rfl

/-- The rows of basement nodes follow the pivot before all of them. -/
theorem PartsOk.rows_past (ok : PartsOk search.direction before parts) {row : Key × Val}
    (member : row ∈ rowsFrom search leVal parts) :
    ∀ pivot ∈ before, search.direction.past pivot row.1 := by
  obtain ⟨entry, inside, same⟩ := exists_of_mem_visible (List.mem_filter.mp member).1
  exact same ▸ ok.past inside

/-- A basement node that is passed over has none of the rows. -/
theorem BasementOk.no_rows (agrees : search.Agrees)
    (ok : BasementOk (.between search.direction before part.next) part.bn)
    (reached : search.Reached before) (skipped : part.skipped search = true) :
    (visible leVal (entriesIn search.direction part.bn)).filter
      (fun row => search.compare.holds row.1) = [] := by
  refine List.filter_eq_nil_iff.mpr fun row member holds => ?_
  obtain ⟨entry, inside, same⟩ := exists_of_mem_visible member
  obtain ⟨past, here⟩ := ok.past (mem_entriesIn.mp inside)
  obtain ⟨pivot, next, fails⟩ := Option.any_eq_true _ _ |>.mp skipped
  have notPast := here pivot next
  have taken : search.compare.holds pivot = true :=
    agrees.holds_of_le (FtSearchDirection.le_of_not_past notPast) (by rw [same]; exact holds)
  rw [FtSearch.passes, taken, Bool.true_and, Bool.not_eq_true'] at fails
  -- The pivot lies behind what was searched before, and so does all that comes before it.
  have behind : ∃ bound ∈ search.pivotBound, search.direction.le pivot bound := by
    unfold FtSearch.beyond at fails
    cases way : search.direction <;> rw [way] at fails <;>
      obtain ⟨bound, given, notBefore⟩ := Option.all_eq_false _ _ |>.mp fails <;>
      exact ⟨bound, given, not_lt.mp (of_decide_eq_false notBefore)⟩
  obtain ⟨bound, given, le⟩ := behind
  obtain ⟨start, first, further⟩ := reached bound given
  exact notPast (FtSearchDirection.past_of_le (FtSearchDirection.le_trans le further)
    (past start first))

/-- A basement node that ends before the bound has no rows outside it. -/
theorem BasementOk.no_rows_within {pivot : Key} {bn : List (Key × Entry)}
    (ok : BasementOk (.between search.direction before (some pivot)) bn)
    (goesOn : search.goesOn pivot = true)
    (outside : ∀ row ∈ (visible leVal (entriesIn search.direction bn)).filter
      (fun row => search.compare.holds row.1), search.Outside row.1) :
    (visible leVal (entriesIn search.direction bn)).filter
      (fun row => search.compare.holds row.1) = [] := by
  -- A row of the node would lie before its last pivot, and that before the bound.
  refine List.eq_nil_iff_forall_not_mem.mpr fun row member => ?_
  obtain ⟨way, kBound, given, past⟩ := outside row member
  obtain ⟨entry, inside, same⟩ := exists_of_mem_visible (List.mem_filter.mp member).1
  have here := (ok.past (mem_entriesIn.mp inside)).2 pivot rfl
  rw [FtSearch.goesOn, way, given] at goesOn
  rw [way] at here
  have before_bound : pivot < kBound := of_decide_eq_true goesOn
  exact here (lt_trans before_bound (same ▸ past))

/-- Behind a pivot at which the search stops everything is outside the bound. -/
theorem FtSearch.outside_of_stops {pivot key : Key} (stops : search.goesOn pivot = false)
    (past : search.direction.past pivot key) : search.Outside key := by
  -- A search stops at a pivot only if the bound lies before it.
  unfold FtSearch.goesOn at stops
  cases way : search.direction with
  | right =>
    rw [way] at stops
    cases stops
  | left =>
    rw [way] at stops past
    obtain ⟨kBound, given, notBefore⟩ := Option.all_eq_false _ _ |>.mp stops
    exact ⟨way, kBound, given, lt_of_le_of_lt (not_lt.mp (of_decide_eq_false notBefore)) past⟩

variable {first : List (GetfCall Key Val)}

omit [LinearOrder Key] in
/-- Locks that were granted one after the other. -/
theorem Granted.append {position : Option Key} {calls second : List (GetfCall Key Val)}
    (earlier : Granted getf position calls first)
    (later : Granted getf position (first ++ calls) second) :
    Granted getf position calls (second ++ first) := by
  induction second with
  | nil => exact earlier
  | cons lock locks ih =>
    obtain ⟨shape, granted, others⟩ := later
    exact ⟨shape, (congrArg getf (List.append_assoc (lock :: locks) first calls)).trans granted,
      ih others⟩

omit [LinearOrder Key] in
/-- A search that goes on and on has gone on. -/
theorem SearchState.advanced_advanced {second : List (GetfCall Key Val)}
    {searched more : List (List Nat)} {bound other : Option Key} {interrupts later : List Nat} :
    (state.advanced first searched bound interrupts).advanced second more other later =
      state.advanced (second ++ first) (more ++ searched) other (later ++ interrupts) := by
  simp only [SearchState.advanced, List.append_assoc]

/-- Passing over entries in a basement node is going on. -/
theorem SearchState.passed_advanced {searched : List (List Nat)} {bound : Option Key}
    {interrupts : List Nat} {bn : List (Key × Entry)} :
    ∃ more, ((state.advanced first searched bound interrupts).passed bn).2 =
      state.advanced first searched bound (more ++ interrupts) := by
  obtain ⟨more, after, -⟩ := (state.advanced first searched bound interrupts).passed_eq bn
  refine ⟨more, after.trans ?_⟩
  simp only [SearchState.advanced, List.append_assoc]

/-- How a search goes after it has locked some keys. -/
theorem Swept.advanced {rows : List (Key × Val)} {searched : List (List Nat)} {bound : Option Key}
    {interrupts : List Nat} {goal : Option (List (Key × Entry) × SearchState Key Entry Val)}
    {outcome : FtCode × SearchState Key Entry Val}
    (granted : Granted getf state.cursor.key state.calls first)
    (swept : Swept getf canBulkFetch (state.advanced first searched bound interrupts) rows goal
      outcome) :
    Swept getf canBulkFetch state rows goal outcome := by
  -- One case for each way in which a search ends.
  cases swept with
  | lockRefused _ _ _ _ _ more holds past refused =>
    rw [SearchState.advanced_advanced] at refused ⊢
    exact .lockRefused _ _ _ _ _ (granted.append more) holds past refused
  | interrupted _ _ _ later more asked =>
    rw [SearchState.advanced_advanced]
    refine .interrupted _ _ _ _ (granted.append more) ?_
    rw [List.append_assoc]
    exact asked
  | found _ _ _ _ _ _ _ _ more found shape reached =>
    rw [SearchState.advanced_advanced] at reached ⊢
    exact .found _ _ _ _ _ _ _ _ (granted.append more) found shape reached
  | nothing _ _ _ _ _ more atEnd outside =>
    rw [SearchState.advanced_advanced, List.append_assoc]
    refine .nothing _ _ _ _ _ (granted.append more) ?_ outside
    rw [List.append_assoc]
    exact atEnd

/-- A sweep over basement nodes looks for the rows that they have for the search. -/
theorem searchParts_swept (decides : getf.Decides) (agrees : state.search.Agrees)
    (ok : PartsOk state.search.direction before parts) (reached : state.search.Reached before) :
    Swept getf canBulkFetch state (rowsFrom state.search state.cursor.leVal parts)
      (sweepTo getf parts state) (searchParts getf canBulkFetch parts state) := by
  induction parts generalizing state before with
  | nil =>
    exact .nothing [] [] [] state.search.pivotBound [] trivial (Or.inl rfl) (List.forall_mem_nil _)
  | cons part more ih =>
    obtain ⟨here, last, others⟩ := ok
    rw [rowsFrom_cons, searchParts, sweepTo]
    split
    · rename_i skipped
      rw [here.no_rows agrees reached skipped, List.nil_append]
      obtain ⟨pivot, next, -⟩ := Option.any_eq_true _ _ |>.mp skipped
      refine ih agrees others fun bound given => ?_
      obtain ⟨start, first, further⟩ := reached bound given
      exact ⟨pivot, next, FtSearchDirection.le_trans further (here.le first next)⟩
    · rename_i notSkipped
      have first := @findInBasementNode_eq _ _ _ state.cursor.leVal _ _ agrees _ _ _ here
      cases found : (findInBasementNode state.search state.cursor.leVal part.bn).2 with
      | some result =>
        obtain ⟨row, rest⟩ := result
        rw [found] at first
        have ends : (ftSearchBasementNode getf canBulkFetch part.bn
            { state with searched := part.path :: state.searched }).1 ≠ .notFound := by
          rw [ftSearchBasementNode_some (by exact found)]
          exact (gotAGoodValue_final decides row).1.1
        rw [tryPart]
        simp only [ne_eq, ends, not_false_eq_true, if_true]
        exact .found _ _ _ _ [] [part.path] state.search.pivotBound [] trivial found (by rw [first])
          (if_pos (by rw [found]; rfl))
      | none =>
        rw [found] at first
        obtain ⟨interrupts, after, stops⟩ := SearchState.passed_eq
          { state with searched := part.path :: state.searched } part.bn
        rw [tryPart, ftSearchBasementNode_none (by exact found)]
        by_cases interrupted : (SearchState.passed
            { state with searched := part.path :: state.searched } part.bn).1 = true
        · -- The search stops, wherever the first of the rows may be.
          simp only [interrupted, after, if_true, ne_eq, not_false_eq_true, reduceCtorEq]
          exact .interrupted [] [part.path] state.search.pivotBound interrupts trivial
            (stops interrupted)
        simp only [interrupted, after, Bool.false_eq_true, ne_eq, not_true_eq_false, if_false]
        have later {pivot : Key} (next : part.next = some pivot) {row : Key × Val}
            (member : row ∈ rowsFrom state.search state.cursor.leVal more) :
            state.search.direction.past pivot row.1 := others.rows_past member pivot next
        have passes {pivot : Key} (next : part.next = some pivot) :
            state.search.passes pivot = true := by
          rw [SearchPart.skipped, next, Option.any_some, Bool.not_eq_true'] at notSkipped
          exact eq_true_of_ne_false notSkipped
        by_cases granted : (SearchState.getf
            { state with
              searched := part.path :: state.searched
              interrupts := interrupts ++ state.interrupts } getf part.next none true).1 = .ok
        · rw [if_neg (not_not.mpr granted)]
          cases next : part.next with
          | none =>
            rw [next] at granted
            rw [last next]
            refine .nothing [] [_] [part.path] state.search.pivotBound interrupts trivial
              (Or.inr ⟨rfl, granted⟩) fun row member => ?_
            rw [show rowsFrom state.search state.cursor.leVal
              ([] : List (SearchPart Key Entry)) = []
              from rfl, List.append_nil] at member
            exact first row member
          | some pivot =>
            rw [next] at here others granted
            have locked : Granted getf state.cursor.key state.calls [_] :=
              ⟨⟨pivot, rfl⟩, granted, trivial⟩
            simp only [found, Option.isSome_none, Bool.false_eq_true, granted, if_false,
              true_and]
            by_cases goesOn : state.search.goesOn pivot = true
            · -- The rows of this basement node would be behind the bound, and before it.
              rw [if_pos (by exact goesOn), if_pos (by exact goesOn),
                here.no_rows_within goesOn first, List.nil_append]
              exact (@ih (state.advanced _ [part.path] (some pivot) interrupts) _ agrees others
                (fun bound given => ⟨pivot, rfl, by
                  cases given
                  exact FtSearchDirection.le_refl _⟩)).advanced locked
            · rw [if_neg (by exact goesOn), if_neg (by exact goesOn)]
              refine .nothing _ [] [part.path] state.search.pivotBound interrupts locked
                (Or.inl rfl)
                fun row member => ?_
              rcases List.mem_append.mp member with inside | behind
              · exact first row inside
              · exact FtSearch.outside_of_stops (Bool.eq_false_iff.mpr goesOn) (later next behind)
        · rw [if_pos granted]
          refine .lockRefused part.next [] [part.path] state.search.pivotBound interrupts trivial
            (fun pivot next => ((Bool.and_eq_true _ _).mp (passes next)).1) (fun row member => ?_)
            granted
          rcases List.mem_append.mp member with inside | behind
          · exact Or.inr (first row inside)
          · cases next : part.next with
            | none =>
              rw [last next] at behind
              cases behind
            | some pivot => exact Or.inl ⟨pivot, rfl, later next behind⟩

end sweep

end Tokuft
