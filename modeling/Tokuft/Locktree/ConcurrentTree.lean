import Tokuft.Locktree.TreenodeLaws

/-! A locked part of the tree: the subtree that holds every lock overlapping a range. -/

namespace Tokuft

variable {Key : Type}

/-- A step down the tree: the node passed, its estimate for the child taken, and its other child. -/
structure Frame (Key : Type) where
  wentLeft : Bool
  est : Nat
  lock : RowLock Key
  other : Treenode Key
  otherEst : Nat
  deriving DecidableEq, Repr

/-- Put a child back below the node that was passed. -/
def Frame.plug (frame : Frame Key) (child : Treenode Key) : Treenode Key :=
  if frame.wentLeft then .node child frame.est frame.lock frame.other frame.otherEst
  else .node frame.other frame.otherEst frame.lock child frame.est

/-- A range with the subtree that is locked for it, and the way from there back to the root. -/
structure LockedKeyrange (Key : Type) where
  frames : List (Frame Key)
  subtree : Treenode Key
  range : Keyrange Key

namespace LockedKeyrange

/-- The tree when the subtree is back in its place. -/
def release (lkr : LockedKeyrange Key) : Treenode Key :=
  lkr.frames.foldl (fun child frame => frame.plug child) lkr.subtree

/-- The locks to the left of the subtree. -/
def outerLeft : List (Frame Key) → List (RowLock Key)
  | [] => []
  | frame :: frames =>
    outerLeft frames ++ if frame.wentLeft then [] else frame.other.locks ++ [frame.lock]

/-- The locks to the right of the subtree. -/
def outerRight : List (Frame Key) → List (RowLock Key)
  | [] => []
  | frame :: frames =>
    (if frame.wentLeft then frame.lock :: frame.other.locks else []) ++ outerRight frames

/-- The locks of the tree are those of the subtree between the outer ones. -/
theorem locks_release (lkr : LockedKeyrange Key) :
    lkr.release.locks = outerLeft lkr.frames ++ lkr.subtree.locks ++ outerRight lkr.frames := by
  -- By induction on the frames.
  obtain ⟨frames, subtree, range⟩ := lkr
  unfold release
  dsimp only
  induction frames generalizing subtree with
  | nil => simp [outerLeft, outerRight]
  | cons frame frames ih =>
    rw [List.foldl_cons, ih]
    cases way : frame.wentLeft <;>
      simp [Frame.plug, way, Treenode.locks, outerLeft, outerRight]

/-- Locking the root locks the whole tree. -/
def prepare [LinearOrder Key] [BoundedOrder Key] (tree : Treenode Key) : LockedKeyrange Key where
  frames := []
  subtree := tree
  range := .infinite

variable [LinearOrder Key]

/-- Descend to the node below which everything that overlaps a range lies. -/
def findNodeWithOverlappingChild (range : Keyrange Key) : Nat → List (Frame Key) →
    Treenode Key → Option (List (Frame Key) × Treenode Key)
  | fuel + 1, frames, .node left leftEst here right rightEst =>
    match range.compare here.range with
    | .lessThan =>
      match left.maybeRebalance with
      | .nil => some (frames, .node .nil leftEst here right rightEst)
      | child@(.node _ _ lock _ _) =>
        let est := child.depthEstimate
        if range.overlaps lock.range then some (frames, .node child est here right rightEst)
        else findNodeWithOverlappingChild range fuel
          ({ wentLeft := true, est := est, lock := here, other := right, otherEst := rightEst }
            :: frames) child
    | .greaterThan =>
      match right.maybeRebalance with
      | .nil => some (frames, .node left leftEst here .nil rightEst)
      | child@(.node _ _ lock _ _) =>
        let est := child.depthEstimate
        if range.overlaps lock.range then some (frames, .node left leftEst here child est)
        else findNodeWithOverlappingChild range fuel
          ({ wentLeft := false, est := est, lock := here, other := left, otherEst := leftEst }
            :: frames) child
    | _ => none
  | _, _, _ => none

/-- Lock the smallest subtree that is sure to hold every lock overlapping a range. -/
def acquire (lkr : LockedKeyrange Key) (range : Keyrange Key) : Option (LockedKeyrange Key) :=
  match lkr.subtree with
  | .nil => some { lkr with range := range }
  | .node left leftEst here right rightEst =>
    if here.range.overlaps range then some { lkr with range := range }
    else do
      let (frames, subtree) ← findNodeWithOverlappingChild range lkr.subtree.size lkr.frames
        (.node left leftEst here right rightEst)
      return { frames := frames, subtree := subtree, range := range }

/-- Call a function on the locks that overlap the range. -/
def iterate {State : Type} (lkr : LockedKeyrange Key)
    (fn : State → RowLock Key → State × Bool) (state : State) : LockedKeyrange Key × State :=
  let (subtree, state) := lkr.subtree.traverseOverlaps fn lkr.range state
  ({ lkr with subtree := subtree }, state)

/-- Insert a lock, which an empty root takes as its own. -/
def insert (lkr : LockedKeyrange Key) (lock : RowLock Key) : Option (LockedKeyrange Key) := do
  let subtree ← lkr.subtree.insert lock
  return { lkr with subtree := subtree }

/-- Remove the lock on a range, after which only the root of the whole tree may be empty. -/
def remove (lkr : LockedKeyrange Key) (range : Keyrange Key) : Option (LockedKeyrange Key) := do
  invariant (lkr.subtree.size ≠ 0)
  let subtree ← lkr.subtree.remove range
  invariant (subtree.size = 0 → lkr.frames.length = 0)
  return { lkr with subtree := subtree }

/-- The subtree holds whatever overlaps the range, and never becomes empty below the root. -/
structure Ok (lkr : LockedKeyrange Key) : Prop where
  locksOk : LocksOk lkr.release.locks
  leftBefore : ∀ lock ∈ outerLeft lkr.frames, lock.range.Before lkr.range
  rightBehind : ∀ lock ∈ outerRight lkr.frames, lkr.range.Before lock.range
  staysFull : lkr.frames ≠ [] →
    ∃ lock ∈ lkr.subtree.locks, lkr.range.overlaps lock.range = false

variable {tree : Treenode Key} {lock : RowLock Key} {range : Keyrange Key}
  {lkr : LockedKeyrange Key}

omit [LinearOrder Key] in
/-- A tree with a lock is not empty. -/
theorem size_ne_zero_of_mem (member : lock ∈ tree.locks) : tree.size ≠ 0 := by
  rw [tree.size_eq_length]
  exact Nat.ne_of_gt (List.length_pos_of_mem member)

/-- The descent ends at a node with everything that overlaps the range below it. -/
theorem findNode_ok (ordered : range.Ordered) :
    ∀ {fuel : Nat} (frames : List (Frame Key)) (tree : Treenode Key),
      LocksOk (outerLeft frames ++ tree.locks ++ outerRight frames) → tree.size ≤ fuel →
      (∀ lock ∈ outerLeft frames, lock.range.Before range) →
      (∀ lock ∈ outerRight frames, range.Before lock.range) →
      (∃ left leftEst here right rightEst, tree = .node left leftEst here right rightEst ∧
        range.overlaps here.range = false) →
      ∃ frames' subtree, findNodeWithOverlappingChild range fuel frames tree =
          some (frames', subtree) ∧
        outerLeft frames' ++ subtree.locks ++ outerRight frames' =
          outerLeft frames ++ tree.locks ++ outerRight frames ∧
        (∀ lock ∈ outerLeft frames', lock.range.Before range) ∧
        (∀ lock ∈ outerRight frames', range.Before lock.range) ∧
        ∃ lock ∈ subtree.locks, range.overlaps lock.range = false := by
  intro fuel
  induction fuel with
  | zero =>
    rintro frames tree ok enough leftBefore rightBehind
      ⟨left, leftEst, here, right, rightEst, rfl, alone⟩
    simp [Treenode.size] at enough
  | succ fuel ih =>
    rintro frames tree ok enough leftBefore rightBehind
      ⟨left, leftEst, here, right, rightEst, rfl, alone⟩
    simp only [Treenode.size] at enough
    have inner := (LocksOk.append.mp (LocksOk.append.mp ok).1).2.1
    obtain ⟨leftOk, restOk, across⟩ := LocksOk.append.mp inner
    obtain ⟨hereOrdered, rightOk, hereBefore⟩ := LocksOk.cons.mp restOk
    simp only [findNodeWithOverlappingChild]
    cases side : range.compare here.range with
    | lessThan =>
      have before := Keyrange.compare_eq_lessThan.mp side
      cases child : left.maybeRebalance with
      | nil =>
        have empty : left.locks = [] := by
          rw [← left.locks_maybeRebalance, child]
          rfl
        exact ⟨_, _, rfl, by simp [Treenode.locks, empty], leftBefore, rightBehind, here,
          by simp [Treenode.locks], alone⟩
      | node childLeft childLeftEst childLock childRight childRightEst =>
        have same := left.locks_maybeRebalance
        rw [child] at same
        dsimp only
        split
        · exact ⟨_, _, rfl, by simp only [Treenode.locks] at same ⊢; simp [same], leftBefore,
            rightBehind, here, by simp [Treenode.locks], alone⟩
        · -- The child is passed too, so everything from here on lies behind the range.
          rename_i childAlone
          obtain ⟨frames', subtree, found, whole, before', behind', still⟩ :=
            ih ({ wentLeft := true, est := _, lock := here, other := right
                  otherEst := rightEst } :: frames)
              (.node childLeft childLeftEst childLock childRight childRightEst)
              (by simp only [outerLeft, outerRight, if_true, List.append_nil, same]
                  simpa [Treenode.locks] using ok)
              (by rw [← child, Treenode.size_maybeRebalance]; omega)
              (by simpa [outerLeft] using leftBefore)
              (by
                intro lock member
                simp only [outerRight, if_true, List.mem_append, List.mem_cons] at member
                rcases member with (rfl | inRight) | outer
                · exact before
                · exact lt_of_lt_of_le before (le_trans hereOrdered (hereBefore lock inRight).le)
                · exact rightBehind lock outer)
              ⟨_, _, _, _, _, rfl, by simpa using childAlone⟩
          refine ⟨frames', subtree, found, ?_, before', behind', still⟩
          rw [whole, same]
          simp [outerLeft, outerRight, Treenode.locks]
    | greaterThan =>
      have behind := (Keyrange.compare_eq_greaterThan ordered hereOrdered).mp side
      cases child : right.maybeRebalance with
      | nil =>
        have empty : right.locks = [] := by
          rw [← right.locks_maybeRebalance, child]
          rfl
        exact ⟨_, _, rfl, by simp [Treenode.locks, empty], leftBefore, rightBehind, here,
          by simp [Treenode.locks], alone⟩
      | node childLeft childLeftEst childLock childRight childRightEst =>
        have same := right.locks_maybeRebalance
        rw [child] at same
        dsimp only
        split
        · exact ⟨_, _, rfl, by simp only [Treenode.locks] at same ⊢; simp [same], leftBefore,
            rightBehind, here, by simp [Treenode.locks], alone⟩
        · rename_i childAlone
          obtain ⟨frames', subtree, found, whole, before', behind', still⟩ :=
            ih ({ wentLeft := false, est := _, lock := here, other := left
                  otherEst := leftEst } :: frames)
              (.node childLeft childLeftEst childLock childRight childRightEst)
              (by simp only
                [outerLeft, outerRight, Bool.false_eq_true, if_false, List.nil_append, same]
                  simpa [Treenode.locks] using ok)
              (by rw [← child, Treenode.size_maybeRebalance]; omega)
              (by
                intro lock member
                simp only [outerLeft, Bool.false_eq_true, if_false, List.mem_append,
                  List.mem_singleton] at member
                rcases member with outer | inLeft | rfl
                · exact leftBefore lock outer
                · exact lt_of_lt_of_le (across lock inLeft here List.mem_cons_self)
                    (le_trans hereOrdered behind.le)
                · exact behind)
              (by simpa [outerRight] using rightBehind)
              ⟨_, _, _, _, _, rfl, by simpa using childAlone⟩
          refine ⟨frames', subtree, found, ?_, before', behind', still⟩
          rw [whole, same]
          simp [outerLeft, outerRight, Treenode.locks]
    | equals => simp [Keyrange.overlaps, side] at alone
    | overlaps => simp [Keyrange.overlaps, side] at alone

/-- A locked root is in order when its locks are. -/
theorem prepare_ok [BoundedOrder Key] (ok : LocksOk tree.locks) :
    (prepare tree).Ok where
  locksOk := ok
  leftBefore := by simp [prepare, outerLeft]
  rightBehind := by simp [prepare, outerRight]
  staysFull := by simp [prepare]

/-- Any range can be acquired in a tree whose root is locked. -/
theorem acquire_ok (wide : Keyrange Key) (ok : LocksOk tree.locks) (ordered : range.Ordered) :
    ∃ lkr, acquire { frames := [], subtree := tree, range := wide } range = some lkr ∧ lkr.Ok ∧
      lkr.range = range ∧ lkr.release.locks = tree.locks := by
  have atRoot : Ok { frames := [], subtree := tree, range := range } :=
    ⟨ok, by simp [outerLeft], by simp [outerRight], by simp⟩
  unfold acquire
  dsimp only
  split
  · exact ⟨_, rfl, atRoot, rfl, rfl⟩
  · rename_i left leftEst here right rightEst
    split
    · exact ⟨_, rfl, atRoot, rfl, rfl⟩
    · rename_i alone
      obtain ⟨frames, subtree, found, whole, before, behind, still⟩ :=
        findNode_ok ordered [] (.node left leftEst here right rightEst)
          (by simpa [outerLeft, outerRight] using ok) (le_refl _) (by simp [outerLeft])
          (by simp [outerRight])
          ⟨_, _, _, _, _, rfl, by rw [Keyrange.overlaps_comm]; simpa using alone⟩
      refine ⟨{ frames := frames, subtree := subtree, range := range }, by simp [found],
        ⟨?_, before, behind, fun _ => still⟩, rfl, ?_⟩
      · rw [locks_release, whole]
        simpa [outerLeft, outerRight] using ok
      · rw [locks_release, whole]
        simp [outerLeft, outerRight]

/-- Whatever overlaps the range is in the locked subtree. -/
theorem Ok.mem_subtree (ok : lkr.Ok) (member : lock ∈ lkr.release.locks)
    (overlap : lkr.range.overlaps lock.range = true) :
    lock ∈ lkr.subtree.locks := by
  obtain ⟨notBefore, notBehind⟩ := Keyrange.overlaps_iff.mp overlap
  rw [locks_release, List.mem_append, List.mem_append] at member
  rcases member with (inLeft | inside) | inRight
  · exact absurd (ok.leftBefore lock inLeft) notBehind
  · exact inside
  · exact absurd (ok.rightBehind lock inRight) notBefore

/-- The locks that overlap the range are the same in the subtree and in the whole tree. -/
theorem Ok.filter_subtree (ok : lkr.Ok) :
    lkr.subtree.locks.filter (fun lock => lkr.range.overlaps lock.range) =
      lkr.release.locks.filter (fun lock => lkr.range.overlaps lock.range) := by
  -- The locks left and right of the subtree do not overlap the range.
  have noLeft : (outerLeft lkr.frames).filter (fun lock => lkr.range.overlaps lock.range) = [] := by
    rw [List.filter_eq_nil_iff]
    intro lock member overlap
    exact (Keyrange.overlaps_iff.mp overlap).2 (ok.leftBefore lock member)
  have noRight : (outerRight lkr.frames).filter
      (fun lock => lkr.range.overlaps lock.range) = [] := by
    rw [List.filter_eq_nil_iff]
    intro lock member overlap
    exact (Keyrange.overlaps_iff.mp overlap).1 (ok.rightBehind lock member)
  rw [locks_release, List.filter_append, List.filter_append, noLeft, noRight]
  simp

/-- The locks of the subtree are in order. -/
theorem Ok.subtreeOk (ok : lkr.Ok) : LocksOk lkr.subtree.locks := by
  have whole := ok.locksOk
  rw [locks_release] at whole
  exact (LocksOk.append.mp (LocksOk.append.mp whole).1).2.1

/-- An iteration feeds a function all locks that overlap the range, and changes none. -/
theorem iterate_ok {State : Type} {fn : State → RowLock Key → State × Bool}
    (stays : Treenode.StaysDone fn) (ok : lkr.Ok) (ordered : lkr.range.Ordered) (state : State) :
    (lkr.iterate fn state).1.Ok ∧ (lkr.iterate fn state).1.range = lkr.range ∧
      (lkr.iterate fn state).1.release.locks = lkr.release.locks ∧
      (lkr.iterate fn state).2 =
        (lkr.release.locks.filter (fun lock => lkr.range.overlaps lock.range)).foldl
          (fun state lock => (fn state lock).1) state := by
  -- The walk rebalances, but moves no lock past another one.
  have kept := Treenode.locks_traverseOverlaps fn lkr.range lkr.subtree state
  have same : (lkr.iterate fn state).1.release.locks = lkr.release.locks := by
    rw [locks_release, locks_release]
    simp [iterate, kept]
  refine ⟨⟨by rw [same]; exact ok.locksOk, ok.leftBefore, ok.rightBehind, ?_⟩, rfl, same, ?_⟩
  · intro below
    obtain ⟨lock, member, alone⟩ := ok.staysFull below
    exact ⟨lock, by simpa [iterate, kept] using member, alone⟩
  · rw [← ok.filter_subtree]
    exact Treenode.traverseOverlaps_state stays ordered ok.subtreeOk state

/-- A range may take a lock between the outer locks on either side. -/
def Admits (lkr : LockedKeyrange Key) (range : Keyrange Key) : Prop :=
  (∀ lock ∈ outerLeft lkr.frames, lock.range.Before range) ∧
    ∀ lock ∈ outerRight lkr.frames, range.Before lock.range

/-- The range itself may take a lock. -/
theorem Ok.admits (ok : lkr.Ok) : lkr.Admits lkr.range :=
  ⟨ok.leftBefore, ok.rightBehind⟩

/-- A range that may take a lock still may after it is extended by a lock of the subtree. -/
theorem Admits.extend (ok : lkr.Ok)
    (admits : lkr.Admits range) (member : lock ∈ lkr.subtree.locks) :
    lkr.Admits (range.extend lock.range) := by
  -- The locks around the subtree lie apart from those in it.
  have whole := ok.locksOk
  rw [locks_release] at whole
  obtain ⟨leftAndInner, -, acrossRight⟩ := LocksOk.append.mp whole
  obtain ⟨-, -, acrossLeft⟩ := LocksOk.append.mp leftAndInner
  rw [Admits, Keyrange.extend_eq]
  constructor
  · intro outer inLeft
    exact lt_min (admits.1 outer inLeft) (acrossLeft outer inLeft lock member)
  · intro outer inRight
    exact max_lt (admits.2 outer inRight)
      (acrossRight lock (List.mem_append_right _ member) outer inRight)

/-- A lock that overlaps the range can be removed. -/
theorem remove_ok (ok : lkr.Ok) (member : lock ∈ lkr.release.locks)
    (overlap : lkr.range.overlaps lock.range = true) :
    ∃ removed, lkr.remove lock.range = some removed ∧ removed.Ok ∧
      removed.range = lkr.range ∧ removed.frames = lkr.frames ∧
      TakenOut lock lkr.release.locks removed.release.locks ∧
      TakenOut lock lkr.subtree.locks removed.subtree.locks := by
  have inside := ok.mem_subtree member overlap
  obtain ⟨subtree, done, front, back, before, after⟩ :=
    Treenode.remove_takenOut ok.subtreeOk inside
  have taken : TakenOut lock lkr.release.locks
      ({ lkr with subtree := subtree } : LockedKeyrange Key).release.locks := by
    refine ⟨outerLeft lkr.frames ++ front, back ++ outerRight lkr.frames, ?_, ?_⟩
    · rw [locks_release, before]
      simp
    · rw [locks_release]
      simp [after]
  -- Below the root a lock that does not overlap the range is left.
  have still : lkr.frames ≠ [] →
      ∃ other ∈ subtree.locks, lkr.range.overlaps other.range = false := by
    intro below
    obtain ⟨other, there, alone⟩ := ok.staysFull below
    refine ⟨other, ?_, alone⟩
    rw [before, List.mem_append, List.mem_cons] at there
    rw [after, List.mem_append]
    rcases there with inFront | rfl | inBack
    · exact Or.inl inFront
    · simp [alone] at overlap
    · exact Or.inr inBack
  have emptyAtRoot : subtree.size = 0 → lkr.frames.length = 0 := by
    intro empty
    by_contra below
    obtain ⟨other, there, -⟩ := still (fun none => below (by simp [none]))
    exact size_ne_zero_of_mem there empty
  refine ⟨{ lkr with subtree := subtree }, ?_, ⟨?_, ok.leftBefore, ok.rightBehind, still⟩, rfl,
    rfl, taken, front, back, before, after⟩
  · simp only [remove, done, invariant_of (size_ne_zero_of_mem inside), invariant_of emptyAtRoot,
      bind_runs]
  · obtain ⟨first, last, whole, rest⟩ := taken
    rw [rest]
    refine ok.locksOk.sublist ?_
    rw [whole]
    exact List.Sublist.append_left (List.sublist_cons_self _ _) _

/-- A lock that overlaps no other can be inserted where its range is admitted. -/
theorem insert_ok (lock : RowLock Key) (ok : lkr.Ok) (ordered : lock.range.Ordered)
    (admits : lkr.Admits lock.range)
    (alone : ∀ other ∈ lkr.subtree.locks, lock.range.overlaps other.range = false) :
    ∃ inserted, lkr.insert lock = some inserted ∧ inserted.Ok ∧ inserted.range = lkr.range ∧
      inserted.frames = lkr.frames ∧ PutIn lock lkr.release.locks inserted.release.locks ∧
      PutIn lock lkr.subtree.locks inserted.subtree.locks := by
  -- What is put into the subtree is put into the whole tree at the same place.
  obtain ⟨subtree, done, put⟩ :=
    Treenode.insertFrom_putIn ordered lkr.subtree ok.subtreeOk (le_refl _) alone
  have whole : PutIn lock lkr.release.locks
      ({ lkr with subtree := subtree } : LockedKeyrange Key).release.locks := by
    rw [locks_release, locks_release]
    exact put.within _ _ admits.1 admits.2
  refine ⟨{ lkr with subtree := subtree }, by simp [insert, Treenode.insert, done],
    ⟨whole.ok ok.locksOk ordered, ok.leftBefore, ok.rightBehind, ?_⟩, rfl, rfl, whole, put⟩
  intro below
  obtain ⟨other, there, apart⟩ := ok.staysFull below
  exact ⟨other, put.mem.mpr (Or.inr there), apart⟩

end LockedKeyrange

end Tokuft
