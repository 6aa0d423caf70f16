import Tokuft.Library.Runs
import Tokuft.Locktree.MigrateLaws

/-! A concurrent tree in use is a search tree of exactly the ranges inserted and not removed. -/

namespace Tokuft

variable {Key : Type}

/-- Free a locked subtree with everything in it. -/
def LockedKeyrange.removeAll (lkr : LockedKeyrange Key) : Option (LockedKeyrange Key) := do
  -- Only the root may be freed while it is locked.
  invariant (lkr.frames.length = 0)
  return { lkr with subtree := .nil }

/-- Call a function on the locks that overlap the range, and list the calls. -/
def LockedKeyrange.calls [LinearOrder Key] (lkr : LockedKeyrange Key)
    (fn : List (RowLock Key) → RowLock Key → Bool) : LockedKeyrange Key × List (RowLock Key) :=
  lkr.iterate (fun called lock => (called ++ [lock], fn called lock)) []

/-- A tree is free, or a part of it is locked. -/
inductive ConcurrentTree (Key : Type) where
  | released (root : Treenode Key)
  | locked (lkr : LockedKeyrange Key)

/-- The whole tree. -/
def ConcurrentTree.root : ConcurrentTree Key → Treenode Key
  | .released root => root
  | .locked lkr => lkr.release

/-- A tree, with the locks that were inserted and not removed. -/
structure TreeWorld (Key : Type) where
  tree : ConcurrentTree Key
  stored : List (RowLock Key)

/-- What is done with a tree, where a function may decide by the calls before how to go on. -/
inductive TreeEvent (Key : Type) where
  | prepare
  | acquire (range : Keyrange Key)
  | iterate (fn : List (RowLock Key) → RowLock Key → Bool)
  | insert (lock : RowLock Key)
  | remove (range : Keyrange Key)
  | removeAll
  | release

namespace TreeWorld

variable [LinearOrder Key]

/-- At first the tree is empty. -/
def start : TreeWorld Key where
  tree := .released .nil
  stored := []

variable [BoundedOrder Key]

/-- Do something with the tree, and keep the list of what is stored. -/
def next (world : TreeWorld Key) : TreeEvent Key → Option (TreeWorld Key)
  | .prepare =>
    match world.tree with
    | .released root => some { world with tree := .locked (LockedKeyrange.prepare root) }
    | .locked _ => none
  | .acquire range =>
    match world.tree with
    | .released _ => none
    | .locked lkr => (lkr.acquire range).map fun lkr => { world with tree := .locked lkr }
  | .iterate fn =>
    match world.tree with
    | .released _ => none
    | .locked lkr => some { world with tree := .locked (lkr.calls fn).1 }
  | .insert lock =>
    match world.tree with
    | .released _ => none
    | .locked lkr => (lkr.insert lock).map fun lkr =>
      { tree := .locked lkr, stored := lock :: world.stored }
  | .remove range =>
    match world.tree with
    | .released _ => none
    | .locked lkr => (lkr.remove range).map fun lkr =>
      { tree := .locked lkr, stored := world.stored.filter fun lock => lock.range ≠ range }
  | .removeAll =>
    match world.tree with
    | .released _ => none
    | .locked lkr => lkr.removeAll.map fun removed =>
      -- The effect is on the ranges that the locked range represents.
      { tree := .locked removed
        stored := world.stored.filter fun lock => !lkr.range.overlaps lock.range }
  | .release =>
    match world.tree with
    | .released _ => none
    | .locked lkr => some { world with tree := .released lkr.release }

/-- What callers may do: work on what they locked, with ranges that are free or stored as needed. -/
def Allowed (world : TreeWorld Key) : TreeEvent Key → Prop
  | .prepare => ∃ root, world.tree = .released root
  -- A part is searched for from the root, which is the one that has to be locked.
  | .acquire range => range.Ordered ∧ ∃ lkr, world.tree = .locked lkr ∧ lkr.frames = []
  | .iterate _ => ∃ lkr, world.tree = .locked lkr
  | .insert lock => lock.range.Ordered ∧
      (∀ other ∈ world.stored, lock.range.overlaps other.range = false) ∧
      ∃ lkr, world.tree = .locked lkr ∧ lkr.range.overlaps lock.range = true
  | .remove range => (∃ lock ∈ world.stored, lock.range = range) ∧
      ∃ lkr, world.tree = .locked lkr ∧ lkr.range.overlaps range = true
  | .removeAll => ∃ lkr, world.tree = .locked lkr
  | .release => ∃ lkr, world.tree = .locked lkr

/-- Everything is removed at once only when the locked range represents all that is stored. -/
def Clear (world : TreeWorld Key) : TreeEvent Key → Prop
  | .removeAll => ∀ lkr, world.tree = .locked lkr →
      ∀ lock ∈ world.stored, lkr.range.overlaps lock.range = true
  | _ => True

/-- What may be done is done. -/
def Step (world : TreeWorld Key) (event : TreeEvent Key) (after : TreeWorld Key) : Prop :=
  world.Allowed event ∧ world.next event = some after

/-- What may be done is done, and nothing is removed that the locked range does not represent. -/
def ClearStep (world : TreeWorld Key) (event : TreeEvent Key) (after : TreeWorld Key) : Prop :=
  world.Clear event ∧ Step world event after

end TreeWorld

variable [LinearOrder Key]

namespace Treenode

/-- What is left of a node lies before its range, and what is right of it behind. -/
def IsSearchTree : Treenode Key → Prop
  | nil => True
  | node left _ lock right _ =>
    (∀ other ∈ left.locks, other.range.Before lock.range) ∧
      (∀ other ∈ right.locks, lock.range.Before other.range) ∧
      left.IsSearchTree ∧ right.IsSearchTree

/-- A tree whose locks are in order is a search tree. -/
theorem isSearchTree_of_locksOk {tree : Treenode Key} (ok : LocksOk tree.locks) :
    tree.IsSearchTree := by
  -- By induction on the tree, whose locks are in order from left to right.
  induction tree with
  | nil => trivial
  | node left leftEst lock right rightEst ihLeft ihRight =>
    obtain ⟨leftOk, restOk, across⟩ := LocksOk.append.mp ok
    obtain ⟨-, rightOk, behind⟩ := LocksOk.cons.mp restOk
    exact ⟨fun other member => across other member lock List.mem_cons_self, behind,
      ihLeft leftOk, ihRight rightOk⟩

/-- Whatever a function answers, it is called on locks that overlap the range, in order. -/
theorem traverseOverlaps_calls (fn : List (RowLock Key) → RowLock Key → Bool)
    (range : Keyrange Key) (tree : Treenode Key) (called : List (RowLock Key)) :
    ∃ calls, (tree.traverseOverlaps (fun called lock => (called ++ [lock], fn called lock)) range
        called).2 = called ++ calls ∧
      calls.Sublist (tree.locks.filter fun lock => range.overlaps lock.range) := by
  -- By induction on the tree: what is passed over does not overlap the range.
  induction tree generalizing called with
  | nil => exact ⟨[], (List.append_nil called).symm, List.Sublist.refl _⟩
  | node left leftEst here right rightEst ihLeft ihRight =>
    obtain ⟨leftCalls, leftEq, leftSub⟩ := ihLeft called
    simp only [traverseOverlaps, locks, List.filter_append, List.filter_cons]
    split
    · rename_i same
      have overlap : range.overlaps here.range = true := by simp [Keyrange.overlaps, same]
      refine ⟨[here], rfl, ?_⟩
      rw [if_pos overlap]
      exact List.Sublist.trans (List.Sublist.cons_cons here (List.nil_sublist _))
        (List.sublist_append_right _ _)
    · exact ⟨leftCalls, leftEq, leftSub.trans (List.sublist_append_left _ _)⟩
    · obtain ⟨rightCalls, rightEq, rightSub⟩ := ihRight called
      refine ⟨rightCalls, rightEq, rightSub.trans ?_⟩
      split
      · exact (List.sublist_cons_self _ _).trans (List.sublist_append_right _ _)
      · exact List.sublist_append_right _ _
    · rename_i overlaps
      have overlap : range.overlaps here.range = true := by simp [Keyrange.overlaps, overlaps]
      rw [if_pos overlap, leftEq]
      split
      · obtain ⟨rightCalls, rightEq, rightSub⟩ := ihRight (called ++ leftCalls ++ [here])
        refine ⟨leftCalls ++ here :: rightCalls, ?_,
          leftSub.append (List.Sublist.cons_cons here rightSub)⟩
        show (right.traverseOverlaps _ range (called ++ leftCalls ++ [here])).2 = _
        rw [rightEq, List.append_assoc, List.append_assoc, List.singleton_append]
      · refine ⟨leftCalls ++ [here], (List.append_assoc _ _ _),
          leftSub.append (List.Sublist.cons_cons here (List.nil_sublist _))⟩

end Treenode

namespace LockedKeyrange

variable {lkr : LockedKeyrange Key}

/-- A range that overlaps the locked one, and no lock, may take a lock. -/
theorem Ok.admits_of_overlaps (ok : lkr.Ok) {range : Keyrange Key}
    (overlap : lkr.range.overlaps range = true)
    (alone : ∀ lock ∈ lkr.release.locks, range.overlaps lock.range = false)
    (ordered : range.Ordered) (lkrOrdered : lkr.range.Ordered) : lkr.Admits range := by
  obtain ⟨key, inLkr, inRange⟩ := (Keyrange.overlaps_iff_shared lkrOrdered ordered).mp overlap
  rw [locks_release] at alone
  have apart {lock : RowLock Key} (member : lock ∈ outerLeft lkr.frames ++ lkr.subtree.locks ++
      outerRight lkr.frames) : range.Before lock.range ∨ lock.range.Before range := by
    by_contra both
    rw [not_or] at both
    have wrong := Keyrange.overlaps_iff.mpr both
    rw [alone lock member] at wrong
    cases wrong
  have lockOrdered {lock : RowLock Key} (member : lock ∈ outerLeft lkr.frames ++
      lkr.subtree.locks ++ outerRight lkr.frames) : lock.range.Ordered := by
    rw [← locks_release] at member
    exact ok.locksOk.ordered lock member
  -- A lock on the wrong side would lie between the range and a key of it.
  constructor
  · intro lock member
    have inAll := List.mem_append_left (outerRight lkr.frames)
      (List.mem_append_left lkr.subtree.locks member)
    refine (apart inAll).resolve_left fun before => ?_
    have up := lt_of_lt_of_le before (lockOrdered inAll)
    exact absurd (lt_of_le_of_lt (le_trans inLkr.1 inRange.2) (lt_trans up
      (ok.leftBefore lock member))) (lt_irrefl _)
  · intro lock member
    have inAll := List.mem_append_right (outerLeft lkr.frames ++ lkr.subtree.locks) member
    refine (apart inAll).resolve_right fun before => ?_
    have down := lt_of_le_of_lt (lockOrdered inAll) before
    exact absurd (lt_of_le_of_lt (le_trans inRange.1 inLkr.2) (lt_trans
      (ok.rightBehind lock member) down)) (lt_irrefl _)

/-- Without anything to pass on the way, the locked part is the whole tree. -/
theorem frames_eq_nil_of_represented (ok : lkr.Ok)
    (all : ∀ lock ∈ lkr.release.locks, lkr.range.overlaps lock.range = true) : lkr.frames = [] := by
  -- A node that was passed on the way holds a lock apart from the range.
  by_contra below
  obtain ⟨lock, member, alone⟩ := ok.staysFull below
  have inAll : lock ∈ lkr.release.locks := by
    rw [locks_release]
    exact List.mem_append_left _ (List.mem_append_right _ member)
  rw [all lock inAll] at alone
  cases alone

/-- A function is called on locks that overlap the range, in order, and on all if it goes on. -/
theorem calls_ok (ok : lkr.Ok) (ordered : lkr.range.Ordered)
    (fn : List (RowLock Key) → RowLock Key → Bool) :
    (lkr.calls fn).1.Ok ∧ (lkr.calls fn).1.range = lkr.range ∧
      (lkr.calls fn).1.release.locks = lkr.release.locks ∧
      (lkr.calls fn).2.Sublist
        (lkr.release.locks.filter fun lock => lkr.range.overlaps lock.range) ∧
      ((∀ called lock, fn called lock = true) →
        (lkr.calls fn).2 = lkr.release.locks.filter fun lock => lkr.range.overlaps lock.range) := by
  have kept := Treenode.locks_traverseOverlaps
    (fun called lock => (called ++ [lock], fn called lock)) lkr.range lkr.subtree []
  have same : (lkr.calls fn).1.release.locks = lkr.release.locks := by
    rw [locks_release, locks_release]
    simp only [calls, iterate, kept]
  refine ⟨⟨by rw [same]; exact ok.locksOk, ok.leftBefore, ok.rightBehind, fun below => ?_⟩, rfl,
    same, ?_, fun goesOn => ?_⟩
  · obtain ⟨lock, member, alone⟩ := ok.staysFull below
    refine ⟨lock, ?_, alone⟩
    show lock ∈ (lkr.subtree.traverseOverlaps _ lkr.range []).1.locks
    rw [kept]
    exact member
  · obtain ⟨calls, called, sub⟩ := Treenode.traverseOverlaps_calls fn lkr.range lkr.subtree []
    rw [← ok.filter_subtree]
    show (lkr.subtree.traverseOverlaps _ lkr.range []).2.Sublist _
    rw [called]
    exact sub
  · -- A function that always goes on never has had enough.
    have stays : Treenode.StaysDone
        (fun (called : List (RowLock Key)) lock => (called ++ [lock], fn called lock)) := by
      intro called lock done
      have done : fn called lock = false := done
      rw [goesOn called lock] at done
      cases done
    have folded (locks called : List (RowLock Key)) :
        locks.foldl (fun called lock => called ++ [lock]) called = called ++ locks := by
      induction locks generalizing called with
      | nil => exact (List.append_nil called).symm
      | cons lock rest ih => rw [List.foldl_cons, ih, List.append_assoc, List.singleton_append]
    exact (iterate_ok stays ok ordered []).2.2.2.trans (folded _ [])

end LockedKeyrange

namespace TreeWorld

variable {world : TreeWorld Key}

/-- The tree is in order, also the part of it that is locked, and holds what is stored. -/
structure Good (world : TreeWorld Key) : Prop where
  locksOk : LocksOk world.tree.root.locks
  lkr : ∀ lkr, world.tree = .locked lkr → lkr.Ok ∧ lkr.range.Ordered
  stored : ∀ lock, lock ∈ world.tree.root.locks ↔ lock ∈ world.stored

/-- A part of the tree is in order when it is locked. -/
theorem Good.of_locked {lkr : LockedKeyrange Key} {stored : List (RowLock Key)} (ok : lkr.Ok)
    (ordered : lkr.range.Ordered) (same : ∀ lock, lock ∈ lkr.release.locks ↔ lock ∈ stored) :
    Good { tree := .locked lkr, stored } := by
  refine ⟨ok.locksOk, fun other isLocked => ?_, same⟩
  cases isLocked
  exact ⟨ok, ordered⟩

/-- A range that is stored belongs to one lock. -/
theorem Good.eq_of_range (good : Good world) {lock other : RowLock Key}
    (member : lock ∈ world.tree.root.locks) (otherMember : other ∈ world.tree.root.locks)
    (same : lock.range = other.range) : lock = other := by
  refine good.locksOk.eq_of_overlaps member otherMember ?_
  have ordered := good.locksOk.ordered lock member
  have key := Keyrange.left_mem_keys ordered
  exact (Keyrange.overlaps_iff_shared ordered (good.locksOk.ordered other otherMember)).mpr
    ⟨_, key, same ▸ key⟩

variable [BoundedOrder Key]

/-- A tree holds what is stored, and every part of it what overlaps its range. -/
structure Exact (world : TreeWorld Key) : Prop where
  searchTree : world.tree.root.IsSearchTree
  disjoint : world.tree.root.locks.Pairwise fun lock other =>
    lock.range.overlaps other.range = false
  stored : ∀ lock, lock ∈ world.tree.root.locks ↔ lock ∈ world.stored
  /-- What overlaps a locked range is in the subtree that was found for it. -/
  found : ∀ lkr, world.tree = .locked lkr → ∀ lock ∈ world.stored,
    lkr.range.overlaps lock.range = true → lock ∈ lkr.subtree.locks
  /-- A function is called in ascending order on what is stored and overlaps. -/
  called : ∀ lkr, world.tree = .locked lkr → ∀ fn,
    ((lkr.calls fn).2.Pairwise fun lock other => lock.range.Before other.range) ∧
    (∀ lock ∈ (lkr.calls fn).2, lock ∈ world.stored ∧ lkr.range.overlaps lock.range = true) ∧
    ((∀ called lock, fn called lock = true) → ∀ lock ∈ world.stored,
      lkr.range.overlaps lock.range = true → lock ∈ (lkr.calls fn).2)
  /-- What may be done is done, and no invariant fires. -/
  done : ∀ event, world.Allowed event → world.Clear event → (world.next event).isSome

/-- Whatever may be done is done, and keeps the tree in order. -/
theorem next_good (good : Good world) {event : TreeEvent Key} (allowed : world.Allowed event)
    (clear : world.Clear event) : ∃ after, world.next event = some after ∧ Good after := by
  -- One case for each operation, by the law of its function.
  obtain ⟨tree, stored⟩ := world
  cases event with
  | prepare =>
    obtain ⟨root, rfl⟩ := allowed
    exact ⟨_, rfl, Good.of_locked (LockedKeyrange.prepare_ok good.locksOk) bot_le good.stored⟩
  | acquire range =>
    obtain ⟨ordered, ⟨frames, subtree, wide⟩, rfl, rfl⟩ := allowed
    obtain ⟨lkr, acquired, ok, same, whole⟩ :=
      LockedKeyrange.acquire_ok wide (show LocksOk subtree.locks from good.locksOk) ordered
    refine ⟨{ tree := .locked lkr, stored }, ?_,
      Good.of_locked ok (by rw [same]; exact ordered) fun lock => ?_⟩
    · simp only [next, acquired, Option.map_some]
    · rw [whole]
      exact good.stored lock
  | iterate fn =>
    obtain ⟨lkr, rfl⟩ := allowed
    obtain ⟨ok, ordered⟩ := good.lkr lkr rfl
    obtain ⟨callsOk, range, same, -⟩ := LockedKeyrange.calls_ok ok ordered fn
    refine ⟨_, rfl, Good.of_locked callsOk (by rw [range]; exact ordered) fun lock => ?_⟩
    rw [same]
    exact good.stored lock
  | insert lock =>
    obtain ⟨ordered, alone, lkr, rfl, overlap⟩ := allowed
    obtain ⟨ok, lkrOrdered⟩ := good.lkr lkr rfl
    have free : ∀ other ∈ lkr.release.locks, lock.range.overlaps other.range = false :=
      fun other member => alone other ((good.stored other).mp member)
    obtain ⟨inserted, done, insertedOk, range, -, put, -⟩ := LockedKeyrange.insert_ok lock ok
      ordered (ok.admits_of_overlaps overlap free ordered lkrOrdered) fun other member =>
        free other (by
          rw [LockedKeyrange.locks_release]
          exact List.mem_append_left _ (List.mem_append_right _ member))
    refine ⟨{ tree := .locked inserted, stored := lock :: stored }, ?_,
      Good.of_locked insertedOk (by rw [range]; exact lkrOrdered) fun other => ?_⟩
    · simp only [next, done, Option.map_some]
    · rw [put.mem, List.mem_cons]
      exact or_congr_right (good.stored other)
  | remove range =>
    obtain ⟨⟨lock, inStored, rfl⟩, lkr, rfl, overlap⟩ := allowed
    obtain ⟨ok, ordered⟩ := good.lkr lkr rfl
    have member := (good.stored lock).mpr inStored
    obtain ⟨removed, done, removedOk, same, -, taken, -⟩ :=
      LockedKeyrange.remove_ok ok member overlap
    refine ⟨{ tree := .locked removed, stored := stored.filter fun other =>
        other.range ≠ lock.range }, ?_,
      Good.of_locked removedOk (by rw [same]; exact ordered) fun other => ?_⟩
    · simp only [next, done, Option.map_some]
    · rw [taken.mem ok.locksOk.nodup, List.mem_filter, decide_eq_true_eq]
      constructor
      · rintro ⟨there, different⟩
        exact ⟨(good.stored other).mp there, fun sameRange =>
          different (good.eq_of_range there member sameRange)⟩
      · rintro ⟨there, different⟩
        exact ⟨(good.stored other).mpr there, fun isLock => different (by rw [isLock])⟩
  | removeAll =>
    obtain ⟨lkr, rfl⟩ := allowed
    obtain ⟨ok, ordered⟩ := good.lkr lkr rfl
    have represented : ∀ lock ∈ lkr.release.locks, lkr.range.overlaps lock.range = true :=
      fun lock member => clear lkr rfl lock ((good.stored lock).mp member)
    have atRoot := LockedKeyrange.frames_eq_nil_of_represented ok represented
    have nothing : ({ lkr with subtree := .nil } : LockedKeyrange Key).release.locks = [] := by
      rw [LockedKeyrange.locks_release, atRoot]
      rfl
    refine ⟨{ tree := .locked { lkr with subtree := .nil }
              stored := stored.filter fun lock => !lkr.range.overlaps lock.range }, ?_,
      Good.of_locked ⟨by rw [nothing]; exact LocksOk.nil, ok.leftBefore, ok.rightBehind,
        fun below => absurd atRoot below⟩ ordered fun lock => ?_⟩
    · have length : lkr.frames.length = 0 := by rw [atRoot]; rfl
      simp only [next, LockedKeyrange.removeAll, invariant_of length, bind_runs, Option.map_some]
    · rw [nothing, List.mem_filter, Bool.not_eq_true']
      refine iff_of_false List.not_mem_nil fun both => ?_
      have overlap := clear lkr rfl lock both.1
      rw [overlap] at both
      cases both.2
  | release =>
    obtain ⟨lkr, rfl⟩ := allowed
    exact ⟨_, rfl, good.locksOk, fun other wrong => (by cases wrong), good.stored⟩

/-- In order, a tree is as it should be. -/
theorem Good.exact (good : Good world) : Exact world where
  searchTree := Treenode.isSearchTree_of_locksOk good.locksOk
  disjoint := good.locksOk.apart.imp fun before => by
    rw [Bool.eq_false_iff]
    exact fun overlap => (Keyrange.overlaps_iff.mp overlap).1 before
  stored := good.stored
  found := by
    intro lkr isLocked lock member overlap
    have inTree := (good.stored lock).mpr member
    rw [isLocked] at inTree
    exact (good.lkr lkr isLocked).1.mem_subtree inTree overlap
  called := by
    intro lkr isLocked fn
    obtain ⟨ok, ordered⟩ := good.lkr lkr isLocked
    obtain ⟨-, -, -, sub, all⟩ := LockedKeyrange.calls_ok ok ordered fn
    have inStored (lock : RowLock Key) : lock ∈ lkr.release.locks ↔ lock ∈ world.stored := by
      have same := good.stored lock
      rwa [isLocked] at same
    refine ⟨(ok.locksOk.apart.sublist List.filter_sublist).sublist sub, fun lock member => ?_,
      fun goesOn lock member overlap => ?_⟩
    · obtain ⟨there, overlap⟩ := List.mem_filter.mp (sub.subset member)
      exact ⟨(inStored lock).mp there, overlap⟩
    · rw [all goesOn, List.mem_filter]
      exact ⟨(inStored lock).mpr member, overlap⟩
  done := by
    intro event allowed clear
    obtain ⟨after, next, -⟩ := next_good good allowed clear
    rw [next]
    rfl

/-- In every clear run the tree stays a search tree of exactly what is stored. -/
theorem searchTree_exact {events : List (TreeEvent Key)} (run : Runs ClearStep start events world) :
    Exact world := by
  -- By induction on the run.
  refine Good.exact (run.invariant ?_ fun good taken => ?_)
  · exact ⟨LocksOk.nil, fun lkr wrong => (by cases wrong), fun lock => Iff.rfl⟩
  · obtain ⟨clear, allowed, done⟩ := taken
    obtain ⟨after, next, afterGood⟩ := next_good good allowed clear
    rw [done] at next
    rw [Option.some.inj next]
    exact afterGood

/-- Three rows of one transaction, each left of the one before, in a tree that is locked. -/
def threeRows : TreeWorld (Fin 10) :=
  let first : Treenode (Fin 10) := .node .nil 0 ⟨⟨1, 1⟩, 1⟩ .nil 0
  { tree := .locked (LockedKeyrange.prepare
      (.node (.node first 1 ⟨⟨2, 2⟩, 1⟩ .nil 0) 1 ⟨⟨5, 5⟩, 1⟩ .nil 0))
    stored := [⟨⟨1, 1⟩, 1⟩, ⟨⟨2, 2⟩, 1⟩, ⟨⟨5, 5⟩, 1⟩] }

/-- Inserting the three rows leads there. -/
theorem threeRows_run : ∃ events, Runs ClearStep start events threeRows := by
  have overlap (range : Keyrange (Fin 10)) :
      (LockedKeyrange.prepare (Treenode.nil : Treenode (Fin 10))).range.overlaps range = true :=
    Keyrange.overlaps_iff.mpr ⟨not_top_lt, not_lt_bot⟩
  have prepared := Runs.next .start (show ClearStep (start : TreeWorld (Fin 10)) .prepare _ from
    ⟨trivial, ⟨_, rfl⟩, rfl⟩)
  have first := Runs.next prepared (show ClearStep _ (.insert ⟨⟨5, 5⟩, 1⟩) _ from
    ⟨trivial, ⟨by decide, by decide, _, rfl, overlap _⟩, rfl⟩)
  have second := Runs.next first (show ClearStep _ (.insert ⟨⟨2, 2⟩, 1⟩) _ from
    ⟨trivial, ⟨by decide, by decide, _, rfl, overlap _⟩, rfl⟩)
  exact ⟨_, Runs.next second (show ClearStep _ (.insert ⟨⟨1, 1⟩, 1⟩) threeRows from
    ⟨trivial, ⟨by decide, by decide, _, rfl, overlap _⟩, rfl⟩)⟩

/-- The three rows are found in the tree, and the first of them below the second. -/
theorem searchTree_exact_threeRows : Exact threeRows ∧
    ∃ world, threeRows.next (.acquire ⟨1, 1⟩) = some world ∧ Exact world := by
  obtain ⟨events, run⟩ := threeRows_run
  have acquired := (show ClearStep threeRows (.acquire ⟨1, 1⟩) _ from
    ⟨trivial, ⟨by decide, _, rfl, rfl⟩, rfl⟩)
  exact ⟨searchTree_exact run, _, acquired.2.2, searchTree_exact (run.next acquired)⟩

/-- Removing everything from a part of the tree stops, or removes what the part
does not represent. -/
theorem removeAll_unrepresented :
    (∃ events, ∃ world : TreeWorld (Fin 10), Runs Step start events world ∧
      world.Allowed .removeAll ∧ world.next .removeAll = none) ∧
    ∃ events, ∃ world : TreeWorld (Fin 10), Runs Step start events world ∧
      world.stored ≠ [] ∧ world.tree.root.locks = [] := by
  obtain ⟨events, clear⟩ := threeRows_run
  have run : Runs Step start events threeRows := clear.mono fun taken => taken.2
  constructor
  · have acquired : Step threeRows (.acquire ⟨1, 1⟩) _ := ⟨⟨by decide, _, rfl, rfl⟩, rfl⟩
    exact ⟨_, _, run.next acquired, ⟨_, rfl⟩, rfl⟩
  · have acquired : Step threeRows (.acquire ⟨5, 5⟩) _ := ⟨⟨by decide, _, rfl, rfl⟩, rfl⟩
    have removed := (run.next acquired).next (show Step _ .removeAll _ from ⟨⟨_, rfl⟩, rfl⟩)
    exact ⟨_, _, removed, by decide, rfl⟩

end TreeWorld

end Tokuft
