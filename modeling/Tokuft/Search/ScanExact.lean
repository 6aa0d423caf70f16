import Tokuft.Search.ScanLaws

/-! When a scan passes on every row once, and how a refused lock makes it lose one. -/

namespace Tokuft

variable {Key Entry Val : Type} [LinearOrder Key]

/-- Whether a row comes behind another one in a direction. -/
def FtSearchDirection.behind (way : FtSearchDirection) (key other : Key) : Bool :=
  match way with
  | .left => decide (key < other)
  | .right => decide (other < key)

/-- The rows behind a cursor, in the direction of a scan. -/
def scanRows (way : FtSearchDirection) (tree : FtTree Key Entry)
    (cursor : FtCursor Key Entry Val) : List (Key × Val) :=
  (visible cursor.leVal (entriesIn way tree.entries)).filter fun row =>
    cursor.key.all (way.behind · row.1)

/-- Scan in one direction or the other. -/
def cGetf (way : FtSearchDirection) (context : ScanContext Key Val) (tree : FtTree Key Entry)
    (fuel tries : Nat) (scan : ScanState Key Entry Val) :
    Option (FtCode × ScanState Key Entry Val) :=
  match way with
  | .left => cGetfNext context tree fuel tries scan
  | .right => cGetfPrev context tree fuel tries scan

/-- The callback of a scan in one direction or the other. -/
def scanCallback (way : FtSearchDirection) (context : ScanContext Key Val) :
    FtGetCallback Key Val :=
  match way with
  | .left => cGetfNextCallback context
  | .right => cGetfPrevCallback context

/-- The callback of the first search of a scan. -/
def firstCallback (way : FtSearchDirection) (context : ScanContext Key Val) :
    FtGetCallback Key Val :=
  match way with
  | .left => cGetfFirstCallback context
  | .right => cGetfLastCallback context

/-- The search of a scan for the rows behind a key. -/
def scanSearch (way : FtSearchDirection) (key : Key) : FtSearch Key :=
  match way with
  | .left => ftSearchInit (.next key) .left none
  | .right => ftSearchInit (.prev key) .right none

/-- The search of a scan that has not begun. -/
def firstSearch (way : FtSearchDirection) : FtSearch Key := ftSearchInit .one way none

/-- The next search of a scan that has begun. -/
def searchNext (way : FtSearchDirection) (context : ScanContext Key Val) (tree : FtTree Key Entry)
    (fuel : Nat) (scan : ScanState Key Entry Val) :
      Option (FtCode × SearchState Key Entry Val) := do
  let key ← scan.cursor.key
  ftSearch ((scanCallback way context).since scan.calls) true tree.root fuel (scanSearch way key)
    { scan.cursor with direction := way.sign }

/--
In all searches of one call, a bulk fetch ends only with the rows of its basement node.

A call searches again whenever a lock that was refused is granted after waiting.
-/
def SafeCall (way : FtSearchDirection) (context : ScanContext Key Val) (tree : FtTree Key Entry)
    (fuel : Nat) : Nat → ScanState Key Entry Val → Prop
  | 0, _ => True
  | tries + 1, scan =>
    (∀ key ∈ scan.cursor.key, SafeSearch tree ((scanCallback way context).since scan.calls)
      (scanSearch way key) { scan.cursor with direction := way.sign }) ∧
    ∀ state, searchNext way context tree fuel scan = some (.lockNotGranted, state) →
      context.waitRangeLock (scan.after state).calls = .granted →
      SafeCall way context tree fuel tries (scan.after state)

/-- Calls of a scan, one after the other, that are all safe. -/
inductive Scan (way : FtSearchDirection) (context : ScanContext Key Val) (tree : FtTree Key Entry)
    (start : ScanState Key Entry Val) : ScanState Key Entry Val → Prop where
  | start : Scan way context tree start start
  | get {scan next : ScanState Key Entry Val} {fuel tries : Nat} {r : FtCode}
    (before : Scan way context tree start scan) (enough : (tree.parts way).length ≤ fuel)
    (safe : SafeCall way context tree fuel tries scan)
    (got : cGetf way context tree fuel tries scan = some (r, next)) :
    Scan way context tree start next

section callbacks

variable {context : ScanContext Key Val} {way : FtSearchDirection}
  {range : GetfCall Key Val → Option Key × Option Key}

variable {before : List (GetfCall Key Val)}

omit [LinearOrder Key] in
/-- Neither the lock tree nor the user says not found, or to try again. -/
theorem ScanContext.callback_decides :
    ((context.callback range).since before).Decides := by
  -- The lock tree answers first, and the user only when the lock is granted.
  intro call calls
  rw [FtGetCallback.since, List.cons_append, ScanContext.callback]
  have lock (answer : LockAnswer) : answer.code.Final := by
    cases answer <;> exact ⟨nofun, nofun⟩
  have user (answer : UserAnswer) : answer.code.Final := by
    cases answer <;> exact ⟨nofun, nofun⟩
  have locked : (if context.doLocking then
      (context.startRangeLock (range call).1 (range call).2 (call :: (calls ++ before))).code
      else .ok).Final := by
    split
    · exact lock _
    · exact FtCode.ok_final
  split
  · exact user _
  · exact locked

omit [LinearOrder Key] in
/-- The callback of a scan decides. -/
theorem scanCallback_decides :
    ((scanCallback way context).since before).Decides := by
  cases way <;> exact ScanContext.callback_decides

omit [LinearOrder Key] in
/-- Where the cursor is not set, the first search of a scan asks for the same locks as any other. -/
theorem first_agrees :
    ((firstCallback way context).since before).AgreesAt (scanCallback way context) before
      none := by
  rintro ⟨position, key, val, lockOnly⟩ calls rfl
  cases way <;> rfl

end callbacks

section rows

variable {way : FtSearchDirection} {tree : FtTree Key Entry} {start cursor : FtCursor Key Entry Val}

/-- What is seen in a tree is in the order of the direction. -/
theorem FtTree.visible_sorted (tree : FtTree Key Entry) {leVal : Entry → Option Val} :
    (visible leVal (entriesIn way tree.entries)).Pairwise
      fun first second => way.lt first.1 second.1 := by
  rw [← tree.parts_entries]
  exact Tokuft.visible_sorted tree.parts_ok.sorted

/-- Coming before is as the code compares keys. -/
theorem FtSearchDirection.behind_iff {key other : Key} :
    way.behind key other = true ↔ way.lt key other := by
  cases way <;> exact decide_eq_true_iff

/-- What comes behind one row of some in order are those that follow it. -/
theorem filter_behind {front back : List (Key × Val)} {row : Key × Val}
    (sorted : (front ++ row :: back).Pairwise fun first second => way.lt first.1 second.1) :
    (front ++ row :: back).filter (fun other => way.behind row.1 other.1) = back := by
  -- Those in front come before the row, so that none of them is behind it.
  obtain ⟨-, later, across⟩ := List.pairwise_append.mp sorted
  obtain ⟨above, -⟩ := List.pairwise_cons.mp later
  have irreflexive (key : Key) : ¬way.lt key key := by
    cases way <;> exact lt_irrefl key
  have antisymm {first second : Key} (lt : way.lt first second) : ¬way.lt second first := by
    cases way <;> exact lt_asymm lt
  have none : front.filter (fun other => way.behind row.1 other.1) = [] :=
    List.filter_eq_nil_iff.mpr fun other member behind =>
      antisymm (across other member row List.mem_cons_self) (FtSearchDirection.behind_iff.mp behind)
  have all : back.filter (fun other => way.behind row.1 other.1) = back :=
    List.filter_eq_self.mpr fun other member =>
      FtSearchDirection.behind_iff.mpr (above other member)
  rw [List.filter_append, none, List.nil_append, List.filter_cons_of_neg, all]
  exact fun behind => irreflexive row.1 (FtSearchDirection.behind_iff.mp behind)

/-- The rows behind a cursor at the last row that was accepted are those not yet accepted. -/
theorem scanRows_atLast {done : List (Key × Val)} (same : cursor.Same start)
    (first : done = (scanRows way tree start).take done.length)
    (atLast : cursor.AtLast start done) :
    scanRows way tree cursor = (scanRows way tree start).drop done.length := by
  unfold FtCursor.AtLast at atLast
  cases last : done.getLast? with
  | none =>
    rw [last] at atLast
    rw [List.getLast?_eq_none_iff.mp last, scanRows, scanRows, atLast.1, same.leVal]
    rfl
  | some row =>
    rw [last] at atLast
    obtain ⟨front, shape⟩ := List.getLast?_eq_some_iff.mp last
    have whole : scanRows way tree start =
        front ++ row :: (scanRows way tree start).drop done.length := by
      calc scanRows way tree start
          = (scanRows way tree start).take done.length ++
              (scanRows way tree start).drop done.length := (List.take_append_drop _ _).symm
        _ = done ++ (scanRows way tree start).drop done.length := by rw [← first]
        _ = front ++ row :: (scanRows way tree start).drop done.length :=
          (congrArg (· ++ _) shape).trans (List.append_assoc front [row] _)
    have sorted : (scanRows way tree start).Pairwise fun first second => way.lt first.1 second.1 :=
      tree.visible_sorted.sublist List.filter_sublist
    have trans {x y z : Key} (near : way.lt x y) (far : way.lt y z) : way.lt x z := by
      cases way with
      | left => exact lt_trans near far
      | right => exact lt_trans far near
    have inside : start.key.all (way.behind · row.1) = true := by
      have member : row ∈ scanRows way tree start := by
        rw [whole]
        exact List.mem_append_right _ List.mem_cons_self
      exact (List.mem_filter.mp member).2
    -- What lies behind the row also lies behind the start of the scan.
    have narrowed : scanRows way tree cursor =
        (scanRows way tree start).filter fun other => way.behind row.1 other.1 := by
      rw [scanRows, scanRows, List.filter_filter, same.leVal, atLast.1]
      refine List.filter_congr fun other _ => ?_
      rw [Option.all_some]
      cases further : way.behind row.1 other.1 with
      | false => rfl
      | true =>
        cases given : start.key with
        | none => rfl
        | some key =>
          rw [given, Option.all_some] at inside
          rw [Option.all_some, Bool.true_and, FtSearchDirection.behind_iff.mpr
            (trans (FtSearchDirection.behind_iff.mp inside)
              (FtSearchDirection.behind_iff.mp further))]
    rw [narrowed]
    conv_lhs => rw [whole]
    exact filter_behind (whole ▸ sorted)

end rows

/-- A scan that has passed on the rows behind its start in order, with its cursor at the last. -/
structure ScanOk (way : FtSearchDirection) (context : ScanContext Key Val)
    (tree : FtTree Key Entry) (start : FtCursor Key Entry Val)
    (scan : ScanState Key Entry Val) : Prop where
  inOrder : InOrder (scanCallback way context) (scanRows way tree start) scan.calls
  same : scan.cursor.Same start
  atLast : scan.cursor.AtLast start (accepted (scanCallback way context) scan.calls)

section searches

variable {way : FtSearchDirection} {context : ScanContext Key Val} {tree : FtTree Key Entry}
  {fuel tries : Nat} {start : FtCursor Key Entry Val} {scan : ScanState Key Entry Val}
  {r : FtCode} {state : SearchState Key Entry Val}

omit [LinearOrder Key] in
/-- A cursor is like one that is like another. -/
theorem FtCursor.Same.trans {first second third : FtCursor Key Entry Val}
    (near : first.Same second) (far : second.Same third) : first.Same third :=
  ⟨near.1.trans far.1, near.2.trans far.2, near.3.trans far.3, near.4.trans far.4,
    near.5.trans far.5⟩

/-- What a search leaves behind of a scan. -/
theorem Scanned.after {canBulkFetch : Bool} {direction : Int}
    (ok : ScanOk way context tree start scan)
    (scanned : Scanned (scanCallback way context) (scanRows way tree start) start scan.calls
      { scan.cursor with direction } canBulkFetch r state) :
    ScanOk way context tree start (scan.after state) :=
  have same : state.cursor.Same start :=
    scanned.same.trans ⟨ok.same.1, ok.same.2, ok.same.3, ok.same.4, ok.same.5⟩
  ⟨scanned.inOrder, ⟨same.1, same.2, same.3, same.4, same.5⟩, scanned.atLast ok.atLast⟩

/-- The rows that are left are those that a search for the rows behind the cursor is for. -/
theorem ScanOk.left (ok : ScanOk way context tree start scan) :
    (scanRows way tree start).drop (accepted (scanCallback way context) scan.calls).length =
      scanRows way tree scan.cursor :=
  (scanRows_atLast ok.same ok.inOrder.accepted_eq ok.atLast).symm

section

variable (ok : ScanOk way context tree start scan) (enough : (tree.parts way).length ≤ fuel)
  (kept : start.isTemporary = false)
include ok enough kept

/-- The first search of a scan passes on the first row, and does not move without it. -/
theorem ScanOk.first (unset : scan.cursor.key = none)
    (ran : ftSearch ((firstCallback way context).since scan.calls) false tree.root fuel
      (firstSearch way) { scan.cursor with direction := 0 } = some (r, state)) :
    ScanOk way context tree start (scan.after state) ∧
      (r ≠ .ok → (scan.after state).cursor.key = none) := by
  -- With no row passed on yet, all rows of the scan are still ahead.
  have decides : ((firstCallback way context).since scan.calls).Decides := by
    cases way <;> exact ScanContext.callback_decides
  have agrees : (@firstSearch Key way).Agrees := by
    cases way
    · exact (ftSearchInit_agrees none).1
    · exact (ftSearchInit_agrees none).2.1
  have rows : rowsFrom (firstSearch way) scan.cursor.leVal (tree.parts way) =
      scanRows way tree scan.cursor := by
    refine (@rowsFrom_parts _ _ _ _ tree (firstSearch way) scan.cursor.leVal).trans ?_
    rw [scanRows, unset]
    rfl
  have scanned := @ftSearch_scanned _ _ _ _ ((firstCallback way context).since scan.calls)
    (scanCallback way context) (scanRows way tree start) scan.calls start
    { scan.cursor with direction := 0 } false r tree fuel
      (firstSearch way) decides agrees rfl enough
    (unset ▸ first_agrees) (ok.same.isTemporary.trans kept) ok.inOrder
    (ok.left.trans rows.symm) nofun
    state ran
  exact ⟨scanned.after ok, fun notOk => (scanned.notMoved rfl notOk).trans unset⟩

/-- Any other search of a scan passes on the next rows, if it is safe. -/
theorem ScanOk.searched
    (safe : ∀ key ∈ scan.cursor.key, SafeSearch tree ((scanCallback way context).since scan.calls)
      (scanSearch way key) { scan.cursor with direction := way.sign })
    (ran : searchNext way context tree fuel scan = some (r, state)) :
    ScanOk way context tree start (scan.after state) := by
  -- The search begins behind the row of the cursor, which is the last one accepted.
  obtain ⟨key, given, ran⟩ := of_bind ran
  have direction : (scanSearch way key).direction = way := by cases way <;> rfl
  have agrees : (scanSearch way key).Agrees := by
    cases way
    · exact ((ftSearchInit_agrees none).2.2 key).1
    · exact ((ftSearchInit_agrees none).2.2 key).2.1
  have fresh : (scanSearch way key).pivotBound = none := by cases way <;> rfl
  have rows : rowsFrom (scanSearch way key) scan.cursor.leVal
      (tree.parts (scanSearch way key).direction) = scanRows way tree scan.cursor := by
    rw [rowsFrom_parts, scanRows, direction, given]
    cases way <;> rfl
  have position : ((scanCallback way context).since scan.calls).AgreesAt (scanCallback way context)
      scan.calls scan.cursor.key := fun _ _ _ => rfl
  have scanned := @ftSearch_scanned _ _ _ _ ((scanCallback way context).since scan.calls)
    (scanCallback way context) (scanRows way tree start) scan.calls start
    { scan.cursor with direction := way.sign } true r tree fuel (scanSearch way key)
    scanCallback_decides agrees fresh (by rw [direction]; exact enough) position
    (ok.same.isTemporary.trans kept) ok.inOrder (ok.left.trans rows.symm)
    (fun _ => safe key given) state ran
  exact scanned.after ok

end

variable {next : ScanState Key Entry Val}

section

variable (ok : ScanOk way context tree start scan) (enough : (tree.parts way).length ≤ fuel)
  (kept : start.isTemporary = false)
include ok enough kept

/-- What a call that has not begun its scan passes on. -/
theorem ScanOk.of_first (unset : scan.cursor.key = none)
    (got : searchAndWait context (fun scan =>
      ftSearch ((firstCallback way context).since scan.calls) false tree.root fuel
        (firstSearch way) { scan.cursor with direction := 0 }) tries scan = some (r, next)) :
    ScanOk way context tree start next := by
  -- By induction on the tries: only a lock that was waited for leads to another one.
  induction tries generalizing scan with
  | zero => cases got
  | succ tries ih =>
    rw [searchAndWait] at got
    obtain ⟨⟨r', state⟩, ran, got⟩ := of_bind got
    obtain ⟨here, notMoved⟩ := ok.first enough kept unset ran
    simp only at got
    split at got
    · rename_i notGranted
      split at got
      · exact ih here (notMoved (notGranted ▸ nofun)) got
      · cases got
        exact here
    · cases got
      exact here

/-- What a call passes on that goes on with its scan. -/
theorem ScanOk.of_next (safe : SafeCall way context tree fuel tries scan)
    (got : searchAndWait context (searchNext way context tree fuel) tries scan = some (r, next)) :
    ScanOk way context tree start next := by
  -- By induction on the tries: only a lock that was waited for leads to another one.
  induction tries generalizing scan with
  | zero => cases got
  | succ tries ih =>
    rw [searchAndWait] at got
    obtain ⟨⟨r', state⟩, ran, got⟩ := of_bind got
    have here := ok.searched enough kept safe.1 ran
    simp only at got
    split at got
    · rename_i notGranted
      split at got
      · rename_i granted
        exact ih here (safe.2 state (notGranted ▸ ran) granted) got
      · cases got
        exact here
    · cases got
      exact here

end

/-- A call of a scan searches for the first row when the cursor is not set, and
else for the next. -/
theorem cGetf_eq : cGetf way context tree fuel tries scan =
    if scan.cursor.key.isNone then
      searchAndWait context (fun scan =>
        ftSearch ((firstCallback way context).since scan.calls) false tree.root fuel
          (firstSearch way) { scan.cursor with direction := 0 }) tries scan
    else searchAndWait context (searchNext way context tree fuel) tries scan := by
  cases way <;> rfl

end searches

/-- A scan of safe calls passes on the rows behind its start, in order and each once. -/
theorem scan_inOrder (way : FtSearchDirection) (context : ScanContext Key Val)
    (tree : FtTree Key Entry) (start : FtCursor Key Entry Val)
    (kept : start.isTemporary = false) (scan : ScanState Key Entry Val)
    (run : Scan way context tree { cursor := start, calls := [] } scan) :
    (scanRows way tree start).Pairwise (fun first second => way.lt first.1 second.1) ∧
      InOrder (scanCallback way context) (scanRows way tree start) scan.calls ∧
      accepted (scanCallback way context) scan.calls =
        (scanRows way tree start).take (accepted (scanCallback way context) scan.calls).length ∧
      scan.cursor.AtLast start (accepted (scanCallback way context) scan.calls) := by
  -- By induction on the calls of the scan.
  have ok : ScanOk way context tree start scan := by
    induction run with
    | start => exact ⟨trivial, ⟨rfl, rfl, rfl, rfl, rfl⟩, rfl, rfl⟩
    | get _ enough safe got ih =>
      rw [cGetf_eq] at got
      split at got
      · rename_i unset
        exact ih.of_first enough kept (Option.isNone_iff_eq_none.mp unset) got
      · exact ih.of_next enough kept safe got
  exact ⟨tree.visible_sorted.sublist List.filter_sublist, ok.inOrder, ok.inOrder.accepted_eq,
    ok.atLast⟩

/-- A leaf of one basement node with three rows. -/
def threeRows : FtTree Nat (Option Nat) where
  height := 0
  root :=
    { pivotkeys := [], children := [[(1, some 10), (2, some 20), (3, some 30)]], sized := rfl }
  ok := by
    refine ⟨nofun, ?_, ?_⟩ <;> simp [PivotBounds.infiniteBounds]

/-- A user who wants all rows, while another transaction holds a lock on some key for a time. -/
def wantsAll (held : Option Nat) : ScanContext Nat Nat where
  doLocking := true
  startRangeLock := fun _ right calls =>
    if right = held ∧ (calls.filter fun call => decide (call.key = held)).length = 1 then
      .notGranted
    else .granted
  waitRangeLock := fun _ => .granted
  f := fun _ _ _ => .cursorContinue

/-- A cursor at the first row. -/
def atFirst : FtCursor Nat (Option Nat) Nat := { unsetCursor with key := some 1, val := some 10 }

/-- Where no lock is refused, a bulk fetch passes on all rows. -/
theorem scan_inOrder_bulk :
    ∃ scan, Scan .left (wantsAll (some 0)) threeRows { cursor := atFirst, calls := [] } scan ∧
      accepted (scanCallback .left (wantsAll (some 0))) scan.calls = [(2, 20), (3, 30)] ∧
      scan.cursor.AtLast atFirst
        (accepted (scanCallback .left (wantsAll (some 0))) scan.calls) := by
  have safe : SafeCall .left (wantsAll (some 0)) threeRows 1 1
    { cursor := atFirst, calls := [] } := by
    refine ⟨?_, fun _ _ _ => trivial⟩
    rintro key ⟨⟩ bn state row rest ⟨⟩ ⟨⟩ - -
    exact ⟨rfl, Or.inr ⟨rfl, trivial⟩⟩
  obtain ⟨r, scan, got⟩ : ∃ r scan, cGetf .left (wantsAll (some 0)) threeRows 1 1
      { cursor := atFirst, calls := [] } = some (r, scan) := ⟨_, _, rfl⟩
  have run := Scan.start.get (Nat.le_refl 1) safe got
  refine ⟨scan, run, ?_, (scan_inOrder .left _ threeRows atFirst rfl scan run).2.2.2⟩
  cases got
  rfl

/-- Two calls to get the next row, the first of which gets the first row. -/
def nextTwice : Option (FtCode × ScanState Nat (Option Nat) Nat) := do
  let (_, scan) ← cGetfNext (wantsAll (some 3)) threeRows 1 2 { cursor := unsetCursor, calls := [] }
  cGetfNext (wantsAll (some 3)) threeRows 1 2 scan

/-- A row whose lock is refused in a bulk fetch is lost, though the lock is
granted after waiting. -/
theorem refused_row_lost :
    scanRows .left threeRows unsetCursor = [(1, 10), (2, 20), (3, 30)] ∧
    ∃ scan, nextTwice = some (.notFound, scan) ∧
      accepted (scanCallback .left (wantsAll (some 3))) scan.calls = [(1, 10), (2, 20)] ∧
      scan.cursor.key = some 3 ∧
      ¬scan.cursor.AtLast unsetCursor
        (accepted (scanCallback .left (wantsAll (some 3))) scan.calls) := by
  refine ⟨by decide, _, rfl, rfl, rfl, ?_⟩
  rintro ⟨key, -⟩
  cases key

end Tokuft
