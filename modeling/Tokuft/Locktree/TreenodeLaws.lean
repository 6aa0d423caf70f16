import Tokuft.Locktree.Treenode

/-! The locks of a tree in order: what insertion, removal and traversal do to them. -/

namespace Tokuft

variable {Key : Type}

namespace Treenode

/-- The size of a tree is the number of its locks. -/
theorem size_eq_length (tree : Treenode Key) : tree.size = tree.locks.length := by
  induction tree with
  | nil => rfl
  | node left leftEst lock right rightEst ihLeft ihRight =>
    simp [size, locks, ihLeft, ihRight, Nat.add_assoc]

/-- A right rotation keeps the locks in order. -/
theorem locks_rotateRight (lock : RowLock Key) (right : Treenode Key) (rightEst : Nat)
    (left : Treenode Key) :
    (rotateRight lock right rightEst left).locks = left.locks ++ lock :: right.locks := by
  -- A node without a left child is not rotated.
  cases left with
  | nil => simp [rotateRight, locks]
  | node childLeft childLeftEst childLock childRight childRightEst =>
    cases childRight with
    | nil => simp [rotateRight, locks]
    | node grandLeft grandLeftEst grandLock grandRight grandRightEst =>
      simp only [rotateRight]
      split <;> simp [locks]

/-- A left rotation keeps the locks in order. -/
theorem locks_rotateLeft (left : Treenode Key) (leftEst : Nat) (lock : RowLock Key)
    (right : Treenode Key) :
    (rotateLeft left leftEst lock right).locks = left.locks ++ lock :: right.locks := by
  -- A node without a right child is not rotated.
  cases right with
  | nil => simp [rotateLeft, locks]
  | node childLeft childLeftEst childLock childRight childRightEst =>
    cases childLeft with
    | nil => simp [rotateLeft, locks]
    | node grandLeft grandLeftEst grandLock grandRight grandRightEst =>
      simp only [rotateLeft]
      split <;> simp [locks]

/-- Rebalancing keeps the locks in order. -/
@[simp] theorem locks_maybeRebalance (tree : Treenode Key) :
    tree.maybeRebalance.locks = tree.locks := by
  -- A child that is much deeper is rotated up, after a rotation of its own where that helps.
  cases tree with
  | nil => rfl
  | node left leftEst lock right rightEst =>
    simp only [maybeRebalance]
    split
    · rw [locks_rotateRight, locks]
    · split
      · rw [locks_rotateLeft, locks]
      · rfl

/-- Rebalancing keeps the number of nodes. -/
@[simp] theorem size_maybeRebalance (tree : Treenode Key) :
    tree.maybeRebalance.size = tree.size := by
  simp [size_eq_length]

end Treenode

/-- Ranges that lie one behind the other, each with its ends in order. -/
structure LocksOk [LinearOrder Key] (locks : List (RowLock Key)) : Prop where
  apart : locks.Pairwise fun earlier later => earlier.range.Before later.range
  ordered : ∀ lock ∈ locks, lock.range.Ordered

namespace LocksOk

variable [LinearOrder Key]

/-- Parts of a list of locks that are in order are in order. -/
theorem append {front back : List (RowLock Key)} :
    LocksOk (front ++ back) ↔ LocksOk front ∧ LocksOk back ∧
      ∀ earlier ∈ front, ∀ later ∈ back, earlier.range.Before later.range := by
  -- Order within both parts and order across them are what there is.
  constructor
  · rintro ⟨apart, ordered⟩
    obtain ⟨frontApart, backApart, across⟩ := List.pairwise_append.mp apart
    exact ⟨⟨frontApart, fun lock member => ordered lock (List.mem_append_left _ member)⟩,
      ⟨backApart, fun lock member => ordered lock (List.mem_append_right _ member)⟩, across⟩
  · rintro ⟨front, back, across⟩
    refine ⟨List.pairwise_append.mpr ⟨front.apart, back.apart, across⟩, ?_⟩
    intro lock member
    rcases List.mem_append.mp member with member | member
    · exact front.ordered lock member
    · exact back.ordered lock member

/-- A lock in front of others lies before them. -/
theorem cons {lock : RowLock Key} {back : List (RowLock Key)} :
    LocksOk (lock :: back) ↔ lock.range.Ordered ∧ LocksOk back ∧
      ∀ later ∈ back, lock.range.Before later.range := by
  constructor
  · rintro ⟨apart, ordered⟩
    obtain ⟨across, backApart⟩ := List.pairwise_cons.mp apart
    exact ⟨ordered lock List.mem_cons_self,
      ⟨backApart, fun later member => ordered later (List.mem_cons_of_mem _ member)⟩, across⟩
  · rintro ⟨first, back, across⟩
    refine ⟨List.pairwise_cons.mpr ⟨across, back.apart⟩, ?_⟩
    intro later member
    rcases List.mem_cons.mp member with rfl | member
    · exact first
    · exact back.ordered later member

/-- No locks are in order. -/
theorem nil : LocksOk ([] : List (RowLock Key)) := ⟨List.Pairwise.nil, by simp⟩

/-- Leaving out some locks keeps the others in order. -/
theorem sublist {few many : List (RowLock Key)} (ok : LocksOk many) (less : few.Sublist many) :
    LocksOk few :=
  ⟨ok.apart.sublist less, fun lock member => ok.ordered lock (less.subset member)⟩

/-- Two locks of a list that share a key are the same lock. -/
theorem eq_of_overlaps {list : List (RowLock Key)} (ok : LocksOk list) {lock other : RowLock Key}
    (member : lock ∈ list) (otherMember : other ∈ list)
    (overlap : lock.range.overlaps other.range = true) : lock = other := by
  -- By induction on the list: locks at different places lie before one another.
  obtain ⟨notBefore, notBehind⟩ := Keyrange.overlaps_iff.mp overlap
  induction list with
  | nil => cases member
  | cons first rest ih =>
    obtain ⟨-, restOk, across⟩ := cons.mp ok
    rcases List.mem_cons.mp member with rfl | member
    · rcases List.mem_cons.mp otherMember with rfl | otherMember
      · rfl
      · exact absurd (across other otherMember) notBefore
    · rcases List.mem_cons.mp otherMember with isFirst | otherMember
      · exact absurd (isFirst ▸ across lock member) notBehind
      · exact ih restOk member otherMember

end LocksOk

/-- A list with one more lock, in its place among the others. -/
def PutIn [LinearOrder Key] (lock : RowLock Key) (before after : List (RowLock Key)) : Prop :=
  ∃ front back, before = front ++ back ∧ after = front ++ lock :: back ∧
    (∀ earlier ∈ front, earlier.range.Before lock.range) ∧
    ∀ later ∈ back, lock.range.Before later.range

variable {lock : RowLock Key} {before after : List (RowLock Key)}

/-- A lock that is put among others in order leaves them in order. -/
theorem PutIn.ok [LinearOrder Key] (put : PutIn lock before after) (ok : LocksOk before)
    (ordered : lock.range.Ordered) :
    LocksOk after := by
  -- The lock lies behind those in front of it, and before those at its back.
  obtain ⟨front, back, rfl, rfl, earlier, later⟩ := put
  obtain ⟨frontOk, backOk, across⟩ := LocksOk.append.mp ok
  refine LocksOk.append.mpr ⟨frontOk, LocksOk.cons.mpr ⟨ordered, backOk, later⟩, ?_⟩
  intro first inFront second inBack
  rcases List.mem_cons.mp inBack with rfl | inBack
  · exact earlier first inFront
  · exact across first inFront second inBack

/-- The locks after one was put in are that one and those from before. -/
theorem PutIn.mem [LinearOrder Key] {other : RowLock Key} (put : PutIn lock before after) :
    other ∈ after ↔ other = lock ∨ other ∈ before := by
  obtain ⟨front, back, rfl, rfl, -, -⟩ := put
  simp only [List.mem_append, List.mem_cons]
  tauto

/-- A lock may be put in between outer locks that lie on either side of it. -/
theorem PutIn.within [LinearOrder Key] (put : PutIn lock before after)
    (left right : List (RowLock Key)) (earlier : ∀ first ∈ left, first.range.Before lock.range)
    (later : ∀ last ∈ right, lock.range.Before last.range) :
    PutIn lock (left ++ before ++ right) (left ++ after ++ right) := by
  obtain ⟨front, back, rfl, rfl, inFront, inBack⟩ := put
  refine ⟨left ++ front, back ++ right, by simp, by simp, ?_, ?_⟩
  · intro first member
    rcases List.mem_append.mp member with member | member
    · exact earlier first member
    · exact inFront first member
  · intro last member
    rcases List.mem_append.mp member with member | member
    · exact inBack last member
    · exact later last member

/-- A list with one lock taken out of its place. -/
def TakenOut (lock : RowLock Key) (before after : List (RowLock Key)) : Prop :=
  ∃ front back, before = front ++ lock :: back ∧ after = front ++ back

namespace Treenode

variable [LinearOrder Key]

/-- A range that overlaps no lock of a tree can be inserted. -/
theorem insertFrom_putIn (ordered : lock.range.Ordered) :
    ∀ {fuel : Nat} (tree : Treenode Key), LocksOk tree.locks → tree.size ≤ fuel →
      (∀ other ∈ tree.locks, lock.range.overlaps other.range = false) →
      ∃ inserted, insertFrom fuel tree lock = some inserted ∧
        PutIn lock tree.locks inserted.locks := by
  intro fuel
  induction fuel with
  | zero =>
    intro tree ok enough alone
    cases tree with
    | nil => exact ⟨_, rfl, [], [], rfl, rfl, by simp, by simp⟩
    | node => simp [size] at enough
  | succ fuel ih =>
    intro tree ok enough alone
    cases tree with
    | nil => exact ⟨_, rfl, [], [], rfl, rfl, by simp, by simp⟩
    | node left leftEst here right rightEst =>
      simp only [size] at enough
      obtain ⟨leftOk, restOk, across⟩ := LocksOk.append.mp ok
      obtain ⟨hereOrdered, rightOk, hereBefore⟩ := LocksOk.cons.mp restOk
      have hereApart := alone here (by simp [locks])
      cases side : lock.range.compare here.range with
      | lessThan =>
        -- The lock belongs on the left, and lies before everything from here on.
        have before := Keyrange.compare_eq_lessThan.mp side
        obtain ⟨inserted, done, put⟩ := ih left.maybeRebalance (by simpa using leftOk)
          (by simp; omega)
          (fun other member => alone other (List.mem_append_left _ (by simpa using member)))
        rw [locks_maybeRebalance] at put
        refine ⟨node inserted _ here right rightEst, by simp only [insertFrom, side, done,
          Option.bind_eq_bind, Option.bind_some, Option.pure_def]; rfl, ?_⟩
        have within := put.within [] (here :: right.locks) (by simp) ?_
        · simpa [locks] using within
        · intro last member
          rcases List.mem_cons.mp member with rfl | member
          · exact before
          · exact lt_of_lt_of_le before (le_trans hereOrdered (hereBefore last member).le)
      | greaterThan =>
        have behind := (Keyrange.compare_eq_greaterThan ordered hereOrdered).mp side
        obtain ⟨inserted, done, put⟩ := ih right.maybeRebalance (by simpa using rightOk)
          (by simp; omega)
          (fun other member => alone other (List.mem_append_right _
            (List.mem_cons_of_mem _ (by simpa using member))))
        rw [locks_maybeRebalance] at put
        refine ⟨node left leftEst here inserted _, by simp only [insertFrom, side, done,
          Option.bind_eq_bind, Option.bind_some, Option.pure_def]; rfl, ?_⟩
        have within := put.within (left.locks ++ [here]) [] ?_ (by simp)
        · simpa [locks] using within
        · intro first member
          rcases List.mem_append.mp member with member | member
          · have beforeHere := across first member here List.mem_cons_self
            exact lt_of_lt_of_le beforeHere (le_trans hereOrdered behind.le)
          · rw [List.mem_singleton.mp member]
            exact behind
      | equals => simp [Keyrange.overlaps, side] at hereApart
      | overlaps => simp [Keyrange.overlaps, side] at hereApart

omit [LinearOrder Key] in
/-- Detaching the rightmost lock takes the last one of the list. -/
theorem locks_detachRightmost (left : Treenode Key) (leftEst : Nat) (lock : RowLock Key)
    (right : Treenode Key) (est : Nat) :
    (detachRightmost left leftEst lock right est).2.1.locks ++
        [(detachRightmost left leftEst lock right est).1] =
      left.locks ++ lock :: right.locks := by
  induction right generalizing left leftEst lock est with
  | nil => simp [detachRightmost, locks]
  | node childLeft childLeftEst childLock childRight childRightEst _ ih =>
    have inner := ih childLeft childLeftEst childLock
      (node childLeft childLeftEst childLock childRight childRightEst).depthEstimate
    simp [detachRightmost, locks, inner]

omit [LinearOrder Key] in
/-- Detaching the leftmost lock takes the first one of the list. -/
theorem locks_detachLeftmost (lock : RowLock Key) (right : Treenode Key) (rightEst : Nat)
    (left : Treenode Key) (est : Nat) :
    (detachLeftmost lock right rightEst left est).1 ::
        (detachLeftmost lock right rightEst left est).2.1.locks =
      left.locks ++ lock :: right.locks := by
  induction left generalizing lock right rightEst est with
  | nil => simp [detachLeftmost, locks]
  | node childLeft childLeftEst childLock childRight childRightEst ih _ =>
    have inner := ih childLock childRight childRightEst
      (node childLeft childLeftEst childLock childRight childRightEst).depthEstimate
    simp only [detachLeftmost, locks, ← List.cons_append, inner]

omit [LinearOrder Key] in
/-- Removing the lock of a root leaves the locks on either side of it. -/
theorem locks_removeRootOfSubtree (left : Treenode Key) (leftEst : Nat) (right : Treenode Key)
    (rightEst : Nat) :
    (removeRootOfSubtree left leftEst right rightEst).locks = left.locks ++ right.locks := by
  -- The nearest lock of a child takes the place of the root.
  cases left with
  | nil =>
    cases right with
    | nil => rfl
    | node childLeft childLeftEst childLock childRight childRightEst =>
      have detached := locks_detachLeftmost childLock childRight childRightEst childLeft
        (node childLeft childLeftEst childLock childRight childRightEst).depthEstimate
      simp only [removeRootOfSubtree, locks, List.nil_append, detached]
  | node childLeft childLeftEst childLock childRight childRightEst =>
    have detached := locks_detachRightmost childLeft childLeftEst childLock childRight
      (node childLeft childLeftEst childLock childRight childRightEst).depthEstimate
    simp only [removeRootOfSubtree, locks, ← detached, List.append_assoc, List.singleton_append]

/-- A lock that is in a tree can be removed from it. -/
theorem remove_takenOut {tree : Treenode Key} (ok : LocksOk tree.locks)
    (member : lock ∈ tree.locks) :
    ∃ removed, tree.remove lock.range = some removed ∧
      TakenOut lock tree.locks removed.locks := by
  induction tree with
  | nil => simp [locks] at member
  | node left leftEst here right rightEst ihLeft ihRight =>
    obtain ⟨leftOk, restOk, across⟩ := LocksOk.append.mp ok
    obtain ⟨hereOrdered, rightOk, hereBefore⟩ := LocksOk.cons.mp restOk
    have ordered := ok.ordered lock member
    rcases List.mem_append.mp member with inLeft | inRest
    · -- A lock on the left lies before the root's.
      obtain ⟨removed, done, front, back, same, rest⟩ := ihLeft leftOk inLeft
      have side := Keyrange.compare_eq_lessThan.mpr (across lock inLeft here List.mem_cons_self)
      refine ⟨node removed removed.depthEstimate here right rightEst,
        by simp [remove, side, done], front, back ++ here :: right.locks, ?_, ?_⟩
      · simp [locks, same]
      · simp [locks, rest]
    · rcases List.mem_cons.mp inRest with rfl | inRight
      · refine ⟨removeRootOfSubtree left leftEst right rightEst,
          by simp only [remove, Keyrange.compare_self hereOrdered], left.locks, right.locks, rfl,
          locks_removeRootOfSubtree _ _ _ _⟩
      · obtain ⟨removed, done, front, back, same, rest⟩ := ihRight rightOk inRight
        have side := (Keyrange.compare_eq_greaterThan ordered hereOrdered).mpr
          (hereBefore lock inRight)
        refine ⟨node left leftEst here removed removed.depthEstimate,
          by simp [remove, side, done], left.locks ++ here :: front, back, ?_, ?_⟩
        · simp [locks, same]
        · simp [locks, rest]

omit [LinearOrder Key] in
/-- A function that has had enough stays as it is. -/
def StaysDone {State : Type} (fn : State → RowLock Key → State × Bool) : Prop :=
  ∀ {state lock}, (fn state lock).2 = false → ∀ other,
    (fn (fn state lock).1 other).1 = (fn state lock).1

variable {State : Type}

omit [LinearOrder Key] in
/-- A function that stays as it is folds any further locks into nothing. -/
theorem StaysDone.foldl {fn : State → RowLock Key → State × Bool} (stays : StaysDone fn)
    {state : State} (done : (fn state lock).2 = false) (others : List (RowLock Key)) :
    others.foldl (fun state lock => (fn state lock).1) (fn state lock).1 = (fn state lock).1 := by
  induction others with
  | nil => rfl
  | cons other others ih => rw [List.foldl_cons, stays done other, ih]

/-- A traversal leaves the locks as they are. -/
theorem locks_traverseOverlaps (fn : State → RowLock Key → State × Bool) (range : Keyrange Key)
    (tree : Treenode Key) (state : State) :
    (tree.traverseOverlaps fn range state).1.locks = tree.locks := by
  -- By induction on the tree, whose subtrees only rebalance.
  induction tree generalizing state with
  | nil => rfl
  | node left leftEst here right rightEst ihLeft ihRight =>
    simp only [traverseOverlaps]
    split
    · rfl
    · simp [locks, ihLeft]
    · simp [locks, ihRight]
    · split <;> simp [locks, ihLeft, ihRight]

/-- A traversal feeds a function the locks that overlap the range, in order. -/
theorem traverseOverlaps_state {fn : State → RowLock Key → State × Bool} (stays : StaysDone fn)
    {range : Keyrange Key} (ordered : range.Ordered) {tree : Treenode Key} (ok : LocksOk tree.locks)
    (state : State) :
    (tree.traverseOverlaps fn range state).2 =
      (tree.locks.filter (fun lock => range.overlaps lock.range)).foldl
        (fun state lock => (fn state lock).1) state := by
  induction tree generalizing state with
  | nil => rfl
  | node left leftEst here right rightEst ihLeft ihRight =>
    obtain ⟨leftOk, restOk, across⟩ := LocksOk.append.mp ok
    obtain ⟨hereOrdered, rightOk, hereBefore⟩ := LocksOk.cons.mp restOk
    have notLeft (apart : ∀ lock ∈ left.locks, lock.range.Before range) :
        left.locks.filter (fun lock => range.overlaps lock.range) = [] := by
      rw [List.filter_eq_nil_iff]
      intro lock member overlap
      exact (Keyrange.overlaps_iff.mp overlap).2 (apart lock member)
    have notRight (apart : ∀ lock ∈ right.locks, range.Before lock.range) :
        right.locks.filter (fun lock => range.overlaps lock.range) = [] := by
      rw [List.filter_eq_nil_iff]
      intro lock member overlap
      exact (Keyrange.overlaps_iff.mp overlap).1 (apart lock member)
    have leftBefore (end_le : here.range.left ≤ range.left) :
        ∀ lock ∈ left.locks, lock.range.Before range :=
      fun lock member => lt_of_lt_of_le (across lock member here List.mem_cons_self) end_le
    have rightBehind (end_le : range.right ≤ here.range.right) :
        ∀ lock ∈ right.locks, range.Before lock.range :=
      fun lock member => lt_of_le_of_lt end_le (hereBefore lock member)
    simp only [traverseOverlaps, locks, List.filter_append, List.filter_cons, List.foldl_append]
    split
    · -- A range that is locked as such overlaps nothing else.
      rename_i same
      have equal := Keyrange.eq_of_compare_eq_equals same
      rw [notLeft (leftBefore (by rw [equal])), notRight (rightBehind (by rw [equal]))]
      simp [Keyrange.overlaps, same]
    · rename_i less
      have before := Keyrange.compare_eq_lessThan.mp less
      rw [notRight (rightBehind (le_trans before.le hereOrdered)), ihLeft leftOk]
      simp [Keyrange.overlaps, less]
    · rename_i greater
      have behind := (Keyrange.compare_eq_greaterThan ordered hereOrdered).mp greater
      rw [notLeft (leftBefore (le_trans hereOrdered behind.le)), ihRight rightOk]
      simp [Keyrange.overlaps, greater]
    · rename_i overlap
      have inside : range.overlaps here.range = true := by simp [Keyrange.overlaps, overlap]
      simp only [inside, if_true, List.foldl_cons, ihLeft leftOk]
      split
      · rw [ihRight rightOk]
      · -- Having had enough, the function ignores what is on the right.
        rename_i done
        rw [stays.foldl (by simpa using done)]

end Treenode

end Tokuft
