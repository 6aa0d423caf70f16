import Tokuft.Basic

/-! Searching a tree: down to one basement node, and again from the root when it has no answer. -/

namespace Tokuft

/-- What a step of a search or a caller's function returns. -/
inductive FtCode where
  | ok
  | notFound
  /-- Not found, and no other leaf is to be looked at. -/
  | foundButRejected
  /-- The caller wants one more row. -/
  | cursorContinue
  | tryAgain
  | lockNotGranted
  /-- The caller wants no more deleted entries to be passed over. -/
  | interrupted
  | other (code : Int)
  deriving DecidableEq, Repr

/-- Which way a search goes through the keys. -/
inductive FtSearchDirection where
  | left
  | right
  deriving DecidableEq, Repr

/-- The comparison of a search, with the key that it compares to. -/
inductive SearchCompare (Key : Type) where
  | one
  | next (k : Key)
  | prev (k : Key)
  | setRange (k : Key)
  | setRangeReverse (k : Key)
  deriving DecidableEq, Repr

/-- A search, and the pivot up to which it has looked already. -/
structure FtSearch (Key : Type) where
  compare : SearchCompare Key
  direction : FtSearchDirection
  kBound : Option Key
  pivotBound : Option Key
  deriving DecidableEq, Repr

/-- A node divided by pivots: every child holds the keys up to the pivot that follows it. -/
structure Partitioned (Key Child : Type) where
  pivotkeys : List Key
  children : List Child
  sized : children.length = pivotkeys.length + 1

/-- A partition: a basement node at the bottom, or a node with partitions of its own. -/
def FtPartition (Key Entry : Type) : Nat → Type
  | 0 => List (Key × Entry)
  | height + 1 => Partitioned Key (FtPartition Key Entry height)

/-- A node of some height; the partitions of a leaf are its basement nodes. -/
abbrev FtNode (Key Entry : Type) (height : Nat) : Type :=
  Partitioned Key (FtPartition Key Entry height)

/-- The keys that a child may hold: above one bound, and up to and including the other. -/
structure PivotBounds (Key : Type) where
  lbe : Option Key
  ubi : Option Key
  deriving DecidableEq, Repr

section nodes

variable {Key Child : Type}

/-- The bounds of the whole tree. -/
def PivotBounds.infiniteBounds : PivotBounds Key where
  lbe := none
  ubi := none

/-- The bounds of a child within those of its node. -/
def PivotBounds.nextBounds (bounds : PivotBounds Key) (node : Partitioned Key Child)
    (childnum : Nat) : PivotBounds Key where
  lbe := if childnum = 0 then bounds.lbe else node.pivotkeys[childnum - 1]?
  ubi := if childnum + 1 = node.children.length then bounds.ubi else node.pivotkeys[childnum]?

variable [LinearOrder Key]

/-- Whether a key is one that the search is looking for, or lies behind one. -/
def SearchCompare.holds : SearchCompare Key → Key → Bool
  | .one, _ => true
  | .next k, x => decide (k < x)
  | .prev k, x => decide (x < k)
  | .setRange k, x => decide (k ≤ x)
  | .setRangeReverse k, x => decide (x ≤ k)

/-- Whether the binary search over pivots goes to the left of a pivot. -/
def FtSearch.goesLeft (search : FtSearch Key) (pivot : Key) : Bool :=
  match search.direction with
  | .left => search.compare.holds pivot
  | .right => !search.compare.holds pivot

/-- The binary search over pivots, whose answer lies between two children. -/
def whichChildBetween (search : FtSearch Key) (pivots : List Key) : Nat → Nat → Nat → Nat
  | 0, lo, _ => lo
  | fuel + 1, lo, hi =>
    if lo < hi then
      let mi := (lo + hi) / 2
      if pivots[mi]?.any search.goesLeft then whichChildBetween search pivots fuel lo mi
      else whichChildBetween search pivots fuel (mi + 1) hi
    else lo

/-- Searching to the right, move over the children that end no later than the bound. -/
def moveOverRight (bound : Key) (pivots : List Key) : Nat → Nat → Nat
  | 0, lo => lo
  | fuel + 1, lo =>
    if pivots[lo]?.any (decide <| · ≤ bound) then moveOverRight bound pivots fuel (lo + 1)
    else lo

/-- Searching to the left, move over the children that begin no earlier than the bound. -/
def moveOverLeft (bound : Key) (pivots : List Key) : Nat → Nat
  | 0 => 0
  | lo + 1 =>
    if pivots[lo]?.any (decide <| bound ≤ ·) then moveOverLeft bound pivots lo else lo + 1

/-- The child of a node in which a search goes on. -/
def ftSearchWhichChild (node : Partitioned Key Child) (search : FtSearch Key) : Nat :=
  if node.children.length ≤ 1 then 0
  else
    let lo := whichChildBetween search node.pivotkeys node.pivotkeys.length 0
      node.pivotkeys.length
    match search.pivotBound, search.direction with
    | none, _ => lo
    | some bound, .left => moveOverRight bound node.pivotkeys node.pivotkeys.length lo
    | some bound, .right => moveOverLeft bound node.pivotkeys lo

/-- Remember the pivot behind the child that was searched, unless it was the last one. -/
def maybeSearchSaveBound (node : Partitioned Key Child) (childSearched : Nat)
    (search : FtSearch Key) : FtSearch Key :=
  let p := match search.direction with
    | .left => node.pivotkeys[childSearched]?
    -- The pivot before the first child belongs to another node.
    | .right => if childSearched = 0 then none else node.pivotkeys[childSearched - 1]?
  match p with
  | none => search
  | some pivot => { search with pivotBound := some pivot }

/-- Whether there are children left to search in a node within the bound of the search. -/
def searchTryAgain (node : Partitioned Key Child) (childToSearch : Nat)
    (search : FtSearch Key) : Bool :=
  match search.direction with
  | .left =>
    if childToSearch + 1 < node.children.length then
      search.kBound.all fun kBound => search.pivotBound.all fun pivot => decide (pivot < kBound)
    else false
  | .right => decide (0 < childToSearch)

/-- Whether a key is within the bound of the search, if it has one. -/
def searchContinue (search : FtSearch Key) (key : Key) : Bool :=
  match search.direction with
  | .left => search.kBound.all fun kBound => decide (key ≤ kBound)
  | .right => true

end nodes

/--
What a search returns at a key outside the range that its cursor is restricted to.

An error of not found is replaced by the one that stops the search when the range is set.
-/
inductive OutOfRangeError where
  | rejected
  | other (code : Int)
  deriving DecidableEq, Repr

/-- The result of a search that has met a key outside the range. -/
def OutOfRangeError.code : OutOfRangeError → FtCode
  | .rejected => .foundButRejected
  | .other code => .other code

/-- A cursor, and how it looks at leaf entries. -/
structure FtCursor (Key Entry Val : Type) where
  /-- The row that the cursor is at, if it is set. -/
  key : Option Key
  val : Option Val
  isTemporary : Bool
  /-- What the cursor is shown of a leaf entry, which is nothing when its row is deleted. -/
  leVal : Entry → Option Val
  direction : Int
  /-- The least key of the range that the cursor is restricted to, or none. -/
  rangeLockLeftKey : Option Key
  rangeLockRightKey : Option Key
  outOfRangeError : Option OutOfRangeError
  /--
  Whether to stop, given how many deleted entries were passed over in one basement node.

  The answer may depend on all these numbers so far, the latest of which is the first of the list.
  -/
  interruptCb : Option (List Nat → Bool)

/-- A call of the caller's function, and what the function finds when it looks at the cursor. -/
structure GetfCall (Key Val : Type) where
  position : Option Key
  key : Option Key
  val : Option Val
  lockOnly : Bool
  deriving DecidableEq, Repr

/--
The caller's function.

Its answer may depend on all calls so far, the latest of which is the first of the list.
-/
abbrev FtGetCallback (Key Val : Type) : Type := List (GetfCall Key Val) → FtCode

/-- What a search changes as it goes. -/
structure SearchState (Key Entry Val : Type) where
  search : FtSearch Key
  cursor : FtCursor Key Entry Val
  calls : List (GetfCall Key Val)
  /-- The basement nodes searched, latest first, as child numbers; no step reads this. -/
  searched : List (List Nat)
  /-- What the cursor was asked about interrupting the search, latest first. -/
  interrupts : List Nat := []

variable {Key Entry Val : Type}

/-- Call the caller's function. -/
def SearchState.getf (state : SearchState Key Entry Val) (getf : FtGetCallback Key Val)
    (key : Option Key) (val : Option Val) (lockOnly : Bool) :
    FtCode × SearchState Key Entry Val :=
  let calls := { position := state.cursor.key, key, val, lockOnly } :: state.calls
  (getf calls, { state with calls })

variable [LinearOrder Key]

/-- Whether a key is outside the range that a cursor is restricted to, as far as it has to look. -/
def FtCursor.outOfRange (cursor : FtCursor Key Entry Val) (key : Key) : Bool :=
  (cursor.rangeLockLeftKey.any (decide <| key < ·) && decide (cursor.direction ≤ 0)) ||
    (cursor.rangeLockRightKey.any (decide <| · < key) && decide (0 ≤ cursor.direction))

/-- Check a key against the range that a cursor is restricted to. -/
def ftCursorCheckRestrictedRange (cursor : FtCursor Key Entry Val) (key : Key) :
    FtCode × FtCursor Key Entry Val :=
  match cursor.outOfRangeError with
  | some error =>
    if cursor.outOfRange key then (error.code, cursor) else (.ok, { cursor with direction := 0 })
  | none => (.ok, { cursor with direction := 0 })

/-- The direction of a cursor that goes along with a search. -/
def FtSearchDirection.sign : FtSearchDirection → Int
  | .left => 1
  | .right => -1

/--
Go on through the basement node while the caller wants one more row.

The entries are those that follow in the direction of the search.
The key and value that are returned are the last that were looked at.
-/
def ftCursorShortcut (getf : FtGetCallback Key Val) (direction : Int) :
    List (Key × Entry) → FtCode → Key × Val → SearchState Key Entry Val →
      FtCode × (Key × Val) × SearchState Key Entry Val
  | [], r, found, state => (r, found, state)
  | (key, le) :: rest, _, found, state =>
    match state.cursor.leVal le with
    | none => ftCursorShortcut getf direction rest .ok found state
    | some val =>
      let (r, cursor) := ftCursorCheckRestrictedRange { state.cursor with direction } key
      -- A row has been delivered already, so this is no error.
      if r ≠ .ok then (.ok, (key, val), { state with cursor })
      else
        let (r, state) := { state with cursor }.getf getf (some key) (some val) false
        if r = .cursorContinue then ftCursorShortcut getf direction rest r (key, val) state
        else (r, (key, val), state)

/--
Pass over deleted entries, looking at the bound of the search at every sixty-fourth.

The result is how many were passed over, with the entry that is not deleted, if there is one.
-/
def skipDeleted (search : FtSearch Key) (leVal : Entry → Option Val) :
    Key → Nat → List (Key × Entry) → Nat × Option ((Key × Val) × List (Key × Entry))
  | _, nDeleted, [] => (nDeleted, none)
  | previous, nDeleted, (key, le) :: rest =>
    if nDeleted % 64 = 0 ∧ searchContinue search previous = false then (nDeleted, none)
    else
      match leVal le with
      | some val => (nDeleted, some ((key, val), rest))
      | none => skipDeleted search leVal key (nDeleted + 1) rest

/-- The first entry of a basement node that a search finds and its cursor sees. -/
def findInBasementNode (search : FtSearch Key) (leVal : Entry → Option Val)
    (bn : List (Key × Entry)) : Nat × Option ((Key × Val) × List (Key × Entry)) :=
  let entries := match search.direction with
    | .left => bn
    | .right => bn.reverse
  match entries.dropWhile fun entry => !search.compare.holds entry.1 with
  | [] => (0, none)
  | (key, le) :: rest =>
    match leVal le with
    | some val => (0, some ((key, val), rest))
    | none => skipDeleted search leVal key 1 rest

/-- Tell how many deleted entries were passed over, if there were any, and ask whether to stop. -/
def SearchState.interrupt (nDeleted : Nat) (state : SearchState Key Entry Val) :
    Bool × SearchState Key Entry Val :=
  match state.cursor.interruptCb with
  | none => (false, state)
  | some interruptCb =>
    if nDeleted = 0 then (false, state)
    else
      let interrupts := nDeleted :: state.interrupts
      (interruptCb interrupts, { state with interrupts })

/-- Pass an entry that is not deleted to the caller's function, and move the cursor to it. -/
def gotAGoodValue (getf : FtGetCallback Key Val) (canBulkFetch : Bool) (found : Key × Val)
    (rest : List (Key × Entry)) (state : SearchState Key Entry Val) :
    FtCode × SearchState Key Entry Val :=
  let (key, val) := found
  let (r, cursor) := ftCursorCheckRestrictedRange state.cursor key
  let state := { state with cursor }
  let (r, state) := if r = .ok then state.getf getf (some key) (some val) false else (r, state)
  if r = .ok ∨ r = .cursorContinue then
    let (r, (key, val), state) :=
      if r = .cursorContinue ∧ canBulkFetch then
        ftCursorShortcut getf state.search.direction.sign rest .ok (key, val) state
      else (r, (key, val), state)
    let cursor := if state.cursor.isTemporary then { state.cursor with key := none, val := none }
      else { state.cursor with key := some key, val := some val }
    (if r = .cursorContinue then .ok else r, { state with cursor })
  else (r, state)

/-- Search one basement node. -/
def ftSearchBasementNode (getf : FtGetCallback Key Val) (canBulkFetch : Bool)
    (bn : List (Key × Entry)) (state : SearchState Key Entry Val) :
    FtCode × SearchState Key Entry Val :=
  let (nDeleted, found) := findInBasementNode state.search state.cursor.leVal bn
  let (interrupted, state) := state.interrupt nDeleted
  match found with
  | none => (if interrupted then .interrupted else .notFound, state)
  -- Where something was found the answer about interrupting does not matter.
  | some (found, rest) => gotAGoodValue getf canBulkFetch found rest state

/--
Lock the keys up to the end of a basement node in which nothing was found.

At the end of the tree the call is made without a key.
-/
def lockUpToPivot (getf : FtGetCallback Key Val) (bounds : PivotBounds Key)
    (state : SearchState Key Entry Val) : FtCode × SearchState Key Entry Val :=
  let pivot := match state.search.direction with
    | .left => bounds.ubi
    | .right => bounds.lbe
  state.getf getf pivot none true

/-- What a node makes of the result of searching one of its children. -/
def searchedChild {Child : Type} (getf : FtGetCallback Key Val)
    (node : Partitioned Key Child) (isLeaf : Bool) (bounds : PivotBounds Key)
    (childToSearch : Nat) : FtCode × SearchState Key Entry Val → FtCode × SearchState Key Entry Val
  | (r, state) =>
    if r ≠ .notFound then (r, state)
    else
      let (rr, state) := if isLeaf then lockUpToPivot getf bounds state else (.ok, state)
      if rr ≠ .ok then (rr, state)
      else
        let search := maybeSearchSaveBound node childToSearch state.search
        -- Messages may not have been applied on another path, so the search starts again.
        (if searchTryAgain node childToSearch search then .tryAgain else .notFound,
          { state with search })

/-- Search a node. -/
def ftSearchNode (getf : FtGetCallback Key Val) (canBulkFetch : Bool) :
    (height : Nat) → FtNode Key Entry height → PivotBounds Key → List Nat → Nat →
      SearchState Key Entry Val → Option (FtCode × SearchState Key Entry Val)
  | 0, node, bounds, path, childToSearch, state => do
    let bn : List (Key × Entry) ← node.children[childToSearch]?
    let state := { state with searched := (childToSearch :: path) :: state.searched }
    pure (searchedChild getf node true (bounds.nextBounds node childToSearch) childToSearch
      (ftSearchBasementNode getf canBulkFetch bn state))
  | height + 1, node, bounds, path, childToSearch, state => do
    let child : FtNode Key Entry height ← node.children[childToSearch]?
    let nextBounds := bounds.nextBounds node childToSearch
    let result ← ftSearchNode getf canBulkFetch height child nextBounds (childToSearch :: path)
      (ftSearchWhichChild child state.search) state
    pure (searchedChild getf node false nextBounds childToSearch result)

/-- Search from the root, again and again while there is more to be searched. -/
def ftSearchTries (getf : FtGetCallback Key Val) (canBulkFetch : Bool) {height : Nat}
    (root : FtNode Key Entry height) :
    Nat → SearchState Key Entry Val → Option (FtCode × SearchState Key Entry Val)
  | 0, _ => none
  | fuel + 1, state => do
    let (r, state) ← ftSearchNode getf canBulkFetch height root .infiniteBounds []
      (ftSearchWhichChild root state.search) state
    if r = .tryAgain then ftSearchTries getf canBulkFetch root fuel state else pure (r, state)

/-- Perform a search, with so much fuel for the number of tries. -/
def ftSearch (getf : FtGetCallback Key Val) (canBulkFetch : Bool) {height : Nat}
    (root : FtNode Key Entry height) (fuel : Nat) (search : FtSearch Key)
    (cursor : FtCursor Key Entry Val) : Option (FtCode × SearchState Key Entry Val) := do
  let (r, state) ← ftSearchTries getf canBulkFetch root fuel
    { search, cursor, calls := [], searched := [] }
  if r = .foundButRejected then pure (.notFound, state)
  else if r = .notFound then
    -- The caller's function has to be called even when there is nothing.
    let (r2, state) := state.getf getf none none false
    pure (if r2 ≠ .ok then r2 else .notFound, state)
  else pure (r, state)

end Tokuft
