import Mathlib.Data.List.Basic

/-! Binary trees that keep their values in order, with the number of values below each node. -/

namespace Tokuft

/-- A tree whose nodes carry the number of nodes below and including them. -/
inductive WeightTree (α : Type) where
  | null
  | node (weight : Nat) (left : WeightTree α) (label : α) (right : WeightTree α)
  deriving DecidableEq, Repr

/-- Inserting up to the end of a first list inserts there. -/
theorem insertIdx_append_left {α : Type} (label : α) : ∀ {first second : List α} {idx : Nat},
    idx ≤ first.length →
      (first ++ second).insertIdx idx label = first.insertIdx idx label ++ second := by
  -- By induction on the first list.
  intro first
  induction first with
  | nil =>
    intro second idx inside
    have zero : idx = 0 := Nat.le_zero.mp inside
    subst zero
    rfl
  | cons head first ih =>
    intro second idx inside
    cases idx with
    | zero => rfl
    | succ idx =>
      rw [List.cons_append, List.insertIdx_succ_cons, List.insertIdx_succ_cons, List.cons_append,
        ih (Nat.le_of_succ_le_succ inside)]

/-- Inserting behind a first list inserts into the second. -/
theorem insertIdx_append_right {α : Type} (label : α) : ∀ {first second : List α} {idx : Nat},
    first.length ≤ idx →
      (first ++ second).insertIdx idx label =
        first ++ second.insertIdx (idx - first.length) label := by
  -- By induction on the first list.
  intro first
  induction first with
  | nil => exact fun _ => rfl
  | cons head first ih =>
    intro second idx behind
    cases idx with
    | zero => cases behind
    | succ idx =>
      rw [List.cons_append, List.insertIdx_succ_cons, ih (Nat.le_of_succ_le_succ behind),
        List.cons_append, List.length_cons, Nat.add_sub_add_right]

namespace WeightTree

variable {α β : Type}

/-- The weight of a tree, as its root carries it. -/
def nweight : WeightTree α → Nat
  | null => 0
  | node weight _ _ _ => weight

/-- The labels in order. -/
def toList : WeightTree α → List α
  | null => []
  | node _ left label right => left.toList ++ label :: right.toList

/-- The tree has no nodes. -/
def isNull : WeightTree α → Bool
  | null => true
  | node _ _ _ _ => false

/-- Every node carries the number of nodes below and including it. -/
def Weighted : WeightTree α → Prop
  | null => True
  | node weight left _ right =>
    weight = left.nweight + right.nweight + 1 ∧ left.Weighted ∧ right.Weighted

variable {tree : WeightTree α}

@[simp] theorem nweight_null : (null : WeightTree α).nweight = 0 := rfl

@[simp] theorem nweight_node (weight : Nat) (left : WeightTree α) (label : α)
    (right : WeightTree α) : (node weight left label right).nweight = weight := rfl

@[simp] theorem toList_null : (null : WeightTree α).toList = [] := rfl

@[simp] theorem toList_node (weight : Nat) (left : WeightTree α) (label : α)
    (right : WeightTree α) :
    (node weight left label right).toList = left.toList ++ label :: right.toList := rfl

/-- A tree that carries its weights has as many labels as its root says. -/
theorem Weighted.length : ∀ {tree : WeightTree α}, tree.Weighted →
    tree.toList.length = tree.nweight := by
  -- By induction on the tree.
  intro tree
  induction tree with
  | null => exact fun _ => rfl
  | node weight left label right leftIH rightIH =>
    rintro ⟨sum, first, second⟩
    simp only [toList_node, List.length_append, List.length_cons, leftIH first, rightIH second,
      nweight_node]
    omega

/-- A tree without weight is empty. -/
theorem Weighted.null_of_nweight (weighted : tree.Weighted) (zero : tree.nweight = 0) :
    tree.isNull = true := by
  cases tree with
  | null => rfl
  | node weight left label right =>
    obtain ⟨sum, -, -⟩ := weighted
    simp only [nweight_node] at zero
    omega

/-- Only an empty tree has no labels. -/
theorem toList_of_isNull (none : tree.isNull = true) : tree.toList = [] := by
  cases tree with
  | null => rfl
  | node => cases none

/-- The label at a place. -/
def fetch : WeightTree α → Nat → Option α
  | null, _ => none
  | node _ left label right, idx =>
    if idx < left.nweight then left.fetch idx
    else if idx = left.nweight then some label
    else right.fetch (idx - left.nweight - 1)

/-- Fetching by weights reads the list of labels. -/
theorem fetch_eq : ∀ {tree : WeightTree α}, tree.Weighted → ∀ idx : Nat,
    tree.fetch idx = tree.toList[idx]? := by
  -- The weight on the left tells which side the place is on.
  intro tree
  induction tree with
  | null => exact fun _ _ => rfl
  | node weight left label right leftIH rightIH =>
    rintro ⟨-, first, second⟩ idx
    have size := first.length
    simp only [fetch, toList, List.getElem?_append, size]
    by_cases low : idx < left.nweight
    · rw [if_pos low, if_pos low, leftIH first]
    · rw [if_neg low, if_neg low]
      by_cases here : idx = left.nweight
      · simp [here]
      · obtain ⟨rest, same⟩ : ∃ rest, idx - left.nweight = rest + 1 :=
          ⟨idx - left.nweight - 1, by omega⟩
        rw [if_neg here, rightIH second, same]
        rfl

/-- Change the label at a place. -/
def modifyAt (change : α → α) : WeightTree α → Nat → Option (WeightTree α)
  | null, _ => none
  | node weight left label right, idx =>
    if idx < left.nweight then
      (left.modifyAt change idx).map fun left => node weight left label right
    else if idx = left.nweight then some (node weight left (change label) right)
    else (right.modifyAt change (idx - left.nweight - 1)).map fun right =>
      node weight left label right

/-- Changing the label at a place changes that place of the list. -/
theorem modifyAt_eq (change : α → α) : ∀ {tree : WeightTree α}, tree.Weighted → ∀ {idx : Nat},
    idx < tree.nweight → ∃ after label, tree.modifyAt change idx = some after ∧
      after.Weighted ∧ after.nweight = tree.nweight ∧ tree.toList[idx]? = some label ∧
      after.toList = tree.toList.set idx (change label) := by
  -- By induction on the tree: the place is on the left, at the root or on the right.
  intro tree
  induction tree with
  | null => exact fun _ _ inside => absurd inside (Nat.not_lt_zero _)
  | node weight left label right leftIH rightIH =>
    rintro ⟨sum, first, second⟩ idx inside
    have size := first.length
    rw [nweight_node] at inside
    by_cases low : idx < left.nweight
    · obtain ⟨after, found, changed, weighted, same, read, list⟩ := leftIH first low
      refine ⟨node weight after label right, found, ?_, ⟨?_, weighted, second⟩, rfl, ?_, ?_⟩
      · rw [modifyAt, if_pos low, changed]
        rfl
      · rw [same]
        exact sum
      · rw [toList_node, List.getElem?_append_left (by omega), read]
      · rw [toList_node, toList_node, list, List.set_append, if_pos (by omega)]
    by_cases here : idx = left.nweight
    · refine ⟨node weight left (change label) right, label, ?_, ⟨sum, first, second⟩, rfl, ?_, ?_⟩
      · rw [modifyAt, if_neg low, if_pos here]
      · rw [toList_node, List.getElem?_append_right (by omega), size, here, Nat.sub_self]
        rfl
      · rw [toList_node, toList_node, List.set_append, if_neg (by omega), size, here, Nat.sub_self]
        rfl
    · obtain ⟨after, found, changed, weighted, same, read, list⟩ :=
        rightIH second (show idx - left.nweight - 1 < right.nweight by omega)
      obtain ⟨rest, next⟩ : ∃ rest, idx - left.nweight = rest + 1 :=
        ⟨idx - left.nweight - 1, by omega⟩
      have rest' : idx - left.nweight - 1 = rest := by omega
      rw [rest'] at changed read list
      refine ⟨node weight left label after, found, ?_, ⟨?_, first, weighted⟩, rfl, ?_, ?_⟩
      · rw [modifyAt, if_neg low, if_neg here, rest', changed]
        rfl
      · rw [same]
        exact sum
      · rw [toList_node, List.getElem?_append_right (by omega), size, next]
        exact read
      · rw [toList_node, toList_node, list, List.set_append, if_neg (by omega), size, next]
        rfl

/-- Whether a node with such weights below it has to be rebalanced. -/
def willNeedRebalance (weightLeft weightRight : Nat) : Bool :=
  1 + weightLeft < (1 + 1 + weightRight) / 2 || 1 + weightRight < (1 + 1 + weightLeft) / 2

/-- The way to the highest node that has to be rebalanced: this one, or one on a side of it. -/
def rebalancePath (here side : Bool) (below : Option (List Bool)) : Option (List Bool) :=
  if here then some [] else below.map (side :: ·)

/-- Insert a label at a place, with the way to the highest node that has to be rebalanced. -/
def insertAt (label : α) : WeightTree α → Nat → Option (WeightTree α × Option (List Bool))
  | null, idx => if idx = 0 then some (node 1 null label null, none) else none
  | node weight left n right, idx =>
    if idx ≤ left.nweight then do
      let here := willNeedRebalance (left.nweight + 1) right.nweight
      let (left, path) ← left.insertAt label idx
      return (node (weight + 1) left n right, rebalancePath here false path)
    else do
      let here := willNeedRebalance left.nweight (right.nweight + 1)
      let (right, path) ← right.insertAt label (idx - left.nweight - 1)
      return (node (weight + 1) left n right, rebalancePath here true path)

/-- A way leads to a node of the tree. -/
def Leads : List Bool → WeightTree α → Prop
  | _, null => False
  | [], node _ _ _ _ => True
  | false :: path, node _ left _ _ => Leads path left
  | true :: path, node _ _ _ right => Leads path right

/-- A way to a node below leads there from this one. -/
theorem leads_rebalancePath {weight : Nat} {left right : WeightTree α} {label : α}
    {here : Bool} (side : Bool) {below : Option (List Bool)}
    (leads : ∀ path, below = some path → Leads path (if side then right else left)) :
    ∀ path, rebalancePath here side below = some path →
      Leads path (node weight left label right) := by
  -- A path that ends here leads anywhere, another one goes on below.
  intro path found
  cases here with
  | true =>
    cases found
    trivial
  | false =>
    obtain ⟨rest, below, rfl⟩ := Option.map_eq_some_iff.mp found
    cases side with
    | false => exact leads rest below
    | true => exact leads rest below

/-- Inserting at a place inserts into the list there. -/
theorem insertAt_eq (label : α) : ∀ {tree : WeightTree α}, tree.Weighted → ∀ {idx : Nat},
    idx ≤ tree.nweight → ∃ after path, tree.insertAt label idx = some (after, path) ∧
      after.Weighted ∧ after.nweight = tree.nweight + 1 ∧
      after.toList = tree.toList.insertIdx idx label ∧
      ∀ way, path = some way → Leads way after := by
  -- By induction on the tree: the place is on the left, or behind the root.
  intro tree
  induction tree with
  | null =>
    intro _ idx inside
    have zero : idx = 0 := Nat.le_zero.mp inside
    subst zero
    exact ⟨_, _, rfl, ⟨rfl, trivial, trivial⟩, rfl, rfl, nofun⟩
  | node weight left n right leftIH rightIH =>
    rintro ⟨sum, first, second⟩ idx inside
    have size := first.length
    rw [nweight_node] at inside
    by_cases low : idx ≤ left.nweight
    · obtain ⟨after, path, inserted, weighted, grown, list, leads⟩ := leftIH first low
      refine ⟨node (weight + 1) after n right,
        rebalancePath (willNeedRebalance (left.nweight + 1) right.nweight) false path, ?_,
        ⟨?_, weighted, second⟩, rfl, ?_, leads_rebalancePath false leads⟩
      · rw [insertAt, if_pos low, inserted]
        rfl
      · omega
      · rw [toList_node, toList_node, list, insertIdx_append_left label (by omega)]
    · obtain ⟨after, path, inserted, weighted, grown, list, leads⟩ :=
        rightIH second (show idx - left.nweight - 1 ≤ right.nweight by omega)
      refine ⟨node (weight + 1) left n after,
        rebalancePath (willNeedRebalance left.nweight (right.nweight + 1)) true path, ?_,
        ⟨?_, first, weighted⟩, rfl, ?_, leads_rebalancePath true leads⟩
      · rw [insertAt, if_neg low, inserted]
        rfl
      · omega
      · obtain ⟨rest, next⟩ : ∃ rest, idx - left.nweight = rest + 1 :=
          ⟨idx - left.nweight - 1, by omega⟩
        have rest' : idx - left.nweight - 1 = rest := by omega
        rw [rest'] at list
        rw [toList_node, toList_node, list, insertIdx_append_right label (by omega), size, next,
          List.insertIdx_succ_cons]

/-- Delete the label at a place: what is left, the label, and the way to the highest node that has
to be rebalanced. A node with children on both sides takes what it keeps of the next label. -/
def deleteAt (replace : α → α → α) :
    WeightTree α → Nat → Option (WeightTree α × α × Option (List Bool))
  | null, _ => none
  | node weight left n right, idx =>
    if idx < left.nweight then do
      let here := willNeedRebalance (left.nweight - 1) right.nweight
      let (left, deleted, path) ← left.deleteAt replace idx
      return (node (weight - 1) left n right, deleted, rebalancePath here false path)
    else if idx = left.nweight then
      if left.isNull then some (right, n, none)
      else if right.isNull then some (left, n, none)
      else do
        let here := willNeedRebalance left.nweight (right.nweight - 1)
        let (right, next, path) ← right.deleteAt replace 0
        return (node (weight - 1) left (replace n next) right, n, rebalancePath here true path)
    else do
      let here := willNeedRebalance left.nweight (right.nweight - 1)
      let (right, deleted, path) ← right.deleteAt replace (idx - left.nweight - 1)
      return (node (weight - 1) left n right, deleted, rebalancePath here true path)

/-- What is left when the label at a place is deleted. -/
structure Deleted (replace : α → α → α) (tree : WeightTree α) (idx : Nat) (after : WeightTree α)
    (path : Option (List Bool)) : Prop where
  weighted : after.Weighted
  nweight : after.nweight + 1 = tree.nweight
  /-- What a node takes from the next label is deleted from the list at the place. -/
  taken : ∀ {β : Type} (view : α → β), (∀ n next, view (replace n next) = view next) →
    after.toList.map view = (tree.toList.map view).eraseIdx idx
  /-- What a node keeps when it takes the next label is what was there, with something missing. -/
  kept : ∀ {β : Type} (view : α → β), (∀ n next, view (replace n next) = view n) →
    (after.toList.map view).Sublist (tree.toList.map view)
  leads : ∀ way, path = some way → Leads way after

/-- Deleting on the left of a node deletes below it. -/
theorem Deleted.left {replace : α → α → α} {weight : Nat} {left right after : WeightTree α} {n : α}
    {idx : Nat} {path : Option (List Bool)} {here : Bool}
    (weighted : (node weight left n right).Weighted)
    (inside : idx < left.nweight) (deleted : Deleted replace left idx after path) :
    Deleted replace (node weight left n right) idx (node (weight - 1) after n right)
      (rebalancePath here false path) := by
  obtain ⟨sum, first, second⟩ := weighted
  have size := first.length
  have shrunk := deleted.nweight
  refine ⟨⟨by omega, deleted.weighted, second⟩, ?_, ?_, ?_,
    leads_rebalancePath false deleted.leads⟩
  · rw [nweight_node, nweight_node]
    omega
  · intro β view takes
    rw [toList_node, toList_node, List.map_append, List.map_append, deleted.taken view takes,
      List.eraseIdx_append_of_lt_length (by rw [List.length_map]; omega)]
  · intro β view keeps
    rw [toList_node, toList_node, List.map_append, List.map_append]
    exact (deleted.kept view keeps).append (List.Sublist.refl _)

/-- Deleting on the right of a node deletes below it. -/
theorem Deleted.right {replace : α → α → α} {weight : Nat} {left right after : WeightTree α} {n : α}
    {idx : Nat} {path : Option (List Bool)} {here : Bool}
    (weighted : (node weight left n right).Weighted)
    (deleted : Deleted replace right idx after path) :
    Deleted replace (node weight left n right) (left.nweight + (idx + 1))
      (node (weight - 1) left n after) (rebalancePath here true path) := by
  obtain ⟨sum, first, second⟩ := weighted
  have size := first.length
  have shrunk := deleted.nweight
  refine ⟨⟨by omega, first, deleted.weighted⟩, ?_, ?_, ?_,
    leads_rebalancePath true deleted.leads⟩
  · rw [nweight_node, nweight_node]
    omega
  · intro β view takes
    rw [toList_node, toList_node, List.map_append, List.map_append,
      List.eraseIdx_append_of_length_le (by rw [List.length_map]; omega), List.length_map, size,
      Nat.add_sub_cancel_left, List.map_cons, List.map_cons, List.eraseIdx_cons_succ,
      deleted.taken view takes]
  · intro β view keeps
    rw [toList_node, toList_node, List.map_append, List.map_append]
    exact (List.Sublist.refl _).append ((deleted.kept view keeps).cons_cons _)

/-- Deleting at a place deletes from the list there. -/
theorem deleteAt_eq (replace : α → α → α) : ∀ {tree : WeightTree α}, tree.Weighted →
    ∀ {idx : Nat}, idx < tree.nweight →
      ∃ after label path, tree.deleteAt replace idx = some (after, label, path) ∧
        tree.toList[idx]? = some label ∧ Deleted replace tree idx after path := by
  intro tree
  induction tree with
  | null => exact fun _ _ inside => absurd inside (Nat.not_lt_zero _)
  | node weight left n right leftIH rightIH =>
    intro whole idx inside
    obtain ⟨sum, first, second⟩ := whole
    have size := first.length
    rw [nweight_node] at inside
    by_cases low : idx < left.nweight
    · obtain ⟨after, label, path, done, read, deleted⟩ := leftIH first low
      refine ⟨_, label,
        rebalancePath (willNeedRebalance (left.nweight - 1) right.nweight) false path, ?_, ?_,
        deleted.left ⟨sum, first, second⟩ low⟩
      · rw [deleteAt, if_pos low, done]
        rfl
      · rw [toList_node, List.getElem?_append_left (by omega), read]
    by_cases here : idx = left.nweight
    · subst here
      have read : (node weight left n right).toList[left.nweight]? = some n := by
        rw [toList_node, List.getElem?_append_right (by omega), size, Nat.sub_self]
        rfl
      by_cases noLeft : left.isNull = true
      · -- The right side takes the place of the node.
        have empty := toList_of_isNull noLeft
        have zero : left.nweight = 0 := by
          rw [← size, empty]
          rfl
        refine ⟨right, n, none, ?_, read, second, ?_, ?_, ?_, nofun⟩
        · rw [deleteAt, if_neg (by omega), if_pos rfl, if_pos noLeft]
        · rw [nweight_node]
          omega
        · intro β view _
          rw [toList_node, empty, zero]
          rfl
        · intro β view _
          rw [toList_node, empty]
          exact (List.Sublist.refl _).cons _
      by_cases noRight : right.isNull = true
      · have empty := toList_of_isNull noRight
        have zero : right.nweight = 0 := by
          rw [← second.length, empty]
          rfl
        refine ⟨left, n, none, ?_, read, first, ?_, ?_, ?_, nofun⟩
        · rw [deleteAt, if_neg (by omega), if_pos rfl, if_neg noLeft, if_pos noRight]
        · rw [nweight_node]
          omega
        · intro β view _
          rw [toList_node, empty, List.map_append,
            List.eraseIdx_append_of_length_le (by rw [List.length_map]; omega), List.length_map,
            size, Nat.sub_self]
          simp
        · intro β view _
          rw [toList_node, empty, List.map_append]
          exact List.sublist_append_left _ _
      · -- The node takes the first label on its right, which is deleted there.
        have some : 0 < right.nweight := by
          rcases Nat.eq_zero_or_pos right.nweight with zero | positive
          · exact absurd (second.null_of_nweight zero) noRight
          · exact positive
        obtain ⟨after, next, path, done, readNext, deleted⟩ := rightIH second some
        have shrunk := deleted.nweight
        refine ⟨node (weight - 1) left (replace n next) after, n,
          rebalancePath (willNeedRebalance left.nweight (right.nweight - 1)) true path, ?_, read,
          ⟨by omega, first, deleted.weighted⟩, ?_, ?_, ?_,
          leads_rebalancePath true deleted.leads⟩
        · rw [deleteAt, if_neg (by omega), if_pos rfl, if_neg noLeft, if_neg noRight, done]
          rfl
        · rw [nweight_node, nweight_node]
          omega
        · intro β view takes
          have list := deleted.taken view takes
          obtain ⟨rest, cons⟩ : ∃ rest, right.toList = next :: rest := by
            cases labels : right.toList with
            | nil => simp [labels] at readNext
            | cons head rest =>
              rw [labels] at readNext
              cases readNext
              exact ⟨rest, rfl⟩
          rw [cons, List.map_cons, List.eraseIdx_cons_zero] at list
          rw [toList_node, toList_node, List.map_append, List.map_append,
            List.eraseIdx_append_of_length_le (by rw [List.length_map]; omega), List.length_map,
            size, Nat.sub_self, List.map_cons, List.map_cons, List.eraseIdx_cons_zero, list, takes,
            cons, List.map_cons]
        · intro β view keeps
          rw [toList_node, toList_node, List.map_append, List.map_append, List.map_cons,
            List.map_cons, keeps]
          exact (List.Sublist.refl _).append ((deleted.kept view keeps).cons_cons _)
    · obtain ⟨after, label, path, done, read, deleted⟩ :=
        rightIH second (show idx - left.nweight - 1 < right.nweight by omega)
      obtain ⟨rest, rfl⟩ : ∃ rest, idx = left.nweight + (rest + 1) :=
        ⟨idx - left.nweight - 1, by omega⟩
      have back : left.nweight + (rest + 1) - left.nweight - 1 = rest := by omega
      rw [back] at done read deleted
      refine ⟨_, label,
        rebalancePath (willNeedRebalance left.nweight (right.nweight - 1)) true path, ?_, ?_,
        deleted.right ⟨sum, first, second⟩⟩
      · rw [deleteAt, if_neg low, if_neg here, back, done]
        rfl
      · rw [toList_node, List.getElem?_append_right (by omega), size, Nat.add_sub_cancel_left]
        exact read

/-- Write a value into a cell of an array. -/
def writeCell (cells : List (Option β)) (i : Nat) (value : β) : Option (List (Option β)) :=
  if i < cells.length then some (cells.set i (some value)) else none

/-- Write what is seen of the labels into an array from some cell on. A label stands behind as many
cells as the weight on its left says. -/
def fillArray (view : α → β) : WeightTree α → Nat → List (Option β) → Option (List (Option β))
  | null, _, cells => some cells
  | node _ left label right, base, cells => do
    let cells ← left.fillArray view base cells
    let cells ← writeCell cells (base + left.nweight) (view label)
    right.fillArray view (base + left.nweight + 1) cells

/-- Writing behind a first part changes the first cell of the rest. -/
theorem writeCell_append (first rest : List (Option β)) (old : Option β) (value : β) :
    writeCell (first ++ old :: rest) first.length value = some (first ++ some value :: rest) := by
  rw [writeCell, if_pos (by simp), List.set_append, if_neg (Nat.lt_irrefl _), Nat.sub_self,
    List.set_cons_zero]

/-- The labels are written one after another, over as many cells as the tree weighs. -/
theorem fillArray_eq (view : α → β) : ∀ {tree : WeightTree α}, tree.Weighted →
    ∀ (before behind : List (Option β)) {old : List (Option β)}, old.length = tree.nweight →
      tree.fillArray view before.length (before ++ (old ++ behind)) =
        some (before ++ (tree.toList.map (fun label => some (view label)) ++ behind)) := by
  -- The left side, the label and the right side each write over their own cells.
  intro tree
  induction tree with
  | null =>
    intro _ before behind old room
    rw [List.length_eq_zero_iff.mp room]
    rfl
  | node weight left label right leftIH rightIH =>
    rintro ⟨sum, first, second⟩ before behind old room
    rw [nweight_node] at room
    obtain ⟨one, two, rfl, size⟩ : ∃ one two, old = one ++ two ∧ one.length = left.nweight :=
      ⟨old.take left.nweight, old.drop left.nweight, (List.take_append_drop _ _).symm,
        List.length_take_of_le (by omega)⟩
    rw [List.length_append] at room
    obtain ⟨cell, three, rfl⟩ : ∃ cell three, two = cell :: three := by
      cases two with
      | nil =>
        rw [List.length_nil] at room
        omega
      | cons cell three => exact ⟨cell, three, rfl⟩
    rw [List.length_cons] at room
    have place : before.length + left.nweight =
        (before ++ left.toList.map fun label => some (view label)).length := by
      rw [List.length_append, List.length_map, first.length]
    have next : before.length + left.nweight + 1 =
        (before ++ (left.toList.map (fun label => some (view label)) ++
          [some (view label)])).length := by
      rw [List.length_append, List.length_append, List.length_map, first.length,
        List.length_singleton, Nat.add_assoc]
    have filled := leftIH first before (cell :: (three ++ behind)) size
    have written := writeCell_append
      (before ++ left.toList.map fun label => some (view label)) (three ++ behind) cell (view label)
    have rest := rightIH second
      (before ++ (left.toList.map (fun label => some (view label)) ++ [some (view label)])) behind
      (show three.length = right.nweight by omega)
    rw [← place] at written
    rw [← next] at rest
    simp only [List.append_assoc, List.cons_append, List.nil_append]
      at filled written rest ⊢
    rw [fillArray, filled]
    simp only [Option.bind_eq_bind, Option.bind_some, written, rest, toList_node, List.map_append,
      List.map_cons, List.append_assoc, List.cons_append]

/-- Build a tree from values in order, by halves. The first number only has to be large enough. -/
def rebuild : Nat → List α → WeightTree α
  | 0, _ => null
  | fuel + 1, values =>
    match values[values.length / 2]? with
    | none => null
    | some label =>
      node values.length (rebuild fuel (values.take (values.length / 2))) label
        (rebuild fuel (values.drop (values.length / 2 + 1)))

/-- A tree that is built from values holds them in order. -/
theorem rebuild_eq : ∀ (fuel : Nat) (values : List α), values.length ≤ fuel →
    (rebuild fuel values).Weighted ∧ (rebuild fuel values).toList = values := by
  intro fuel
  induction fuel with
  | zero =>
    intro values enough
    rw [List.length_eq_zero_iff.mp (Nat.le_zero.mp enough)]
    exact ⟨trivial, rfl⟩
  | succ fuel ih =>
    intro values enough
    rw [rebuild]
    cases found : values[values.length / 2]? with
    | none =>
      -- Only of no values is there none in the middle.
      have past := List.getElem?_eq_none_iff.mp found
      rw [List.length_eq_zero_iff.mp (show values.length = 0 by omega)]
      exact ⟨trivial, rfl⟩
    | some label =>
      obtain ⟨inside, read⟩ := List.getElem?_eq_some_iff.mp found
      obtain ⟨first, left⟩ := ih (values.take (values.length / 2))
        (by rw [List.length_take]; omega)
      obtain ⟨second, right⟩ := ih (values.drop (values.length / 2 + 1))
        (by rw [List.length_drop]; omega)
      have size := first.length
      have size' := second.length
      rw [left, List.length_take] at size
      rw [right, List.length_drop] at size'
      refine ⟨⟨by omega, first, second⟩, ?_⟩
      rw [toList_node, left, right, ← read, List.getElem_cons_drop, List.take_append_drop]

/-- Balance a tree through an array of its labels. -/
def rebalance (tree : WeightTree α) : Option (WeightTree α) := do
  let cells ← tree.fillArray id 0 (List.replicate tree.nweight none)
  let labels ← cells.mapM id
  return rebuild tree.nweight labels

/-- Balancing keeps the labels. -/
theorem rebalance_eq (weighted : tree.Weighted) :
    ∃ after, tree.rebalance = some after ∧ after.Weighted ∧ after.toList = tree.toList := by
  -- The labels are copied to an array and built into a tree again.
  have filled := fillArray_eq id weighted [] []
    (List.length_replicate (n := tree.nweight) (a := none))
  simp only [List.nil_append, List.append_nil, List.length_nil, id] at filled
  have read : (tree.toList.map fun label => some label).mapM id = some tree.toList := by
    induction tree.toList with
    | nil => rfl
    | cons label labels ih => simp [List.mapM_cons, ih]
  obtain ⟨balanced, list⟩ := rebuild_eq tree.nweight _ (Nat.le_of_eq weighted.length)
  refine ⟨_, ?_, balanced, list⟩
  simp only [rebalance, filled, read, Option.bind_eq_bind, Option.bind_some, Option.pure_def]

/-- Balance the tree that a way leads to. -/
def rebalanceAt : List Bool → WeightTree α → Option (WeightTree α)
  | _, null => none
  | [], node weight left label right => (node weight left label right).rebalance
  | false :: path, node weight left label right =>
    (left.rebalanceAt path).map fun left => node weight left label right
  | true :: path, node weight left label right =>
    (right.rebalanceAt path).map fun right => node weight left label right

/-- Balancing a part of a tree keeps the labels. -/
theorem rebalanceAt_eq : ∀ {path : List Bool} {tree : WeightTree α}, tree.Weighted →
    Leads path tree → ∃ after, tree.rebalanceAt path = some after ∧ after.Weighted ∧
      after.toList = tree.toList := by
  -- The induction goes along the way.
  intro path
  induction path with
  | nil =>
    intro tree weighted leads
    cases tree with
    | null => exact absurd leads id
    | node weight left label right => exact rebalance_eq weighted
  | cons side path ih =>
    intro tree weighted leads
    cases tree with
    | null => cases side <;> exact absurd leads id
    | node weight left label right =>
      obtain ⟨sum, first, second⟩ := weighted
      cases side with
      | false =>
        obtain ⟨after, balanced, weighted, list⟩ := ih first leads
        refine ⟨node weight after label right, ?_, ⟨?_, weighted, second⟩, ?_⟩
        · rw [rebalanceAt, balanced]
          rfl
        · rw [← weighted.length, list, first.length]
          exact sum
        · rw [toList_node, toList_node, list]
      | true =>
        obtain ⟨after, balanced, weighted, list⟩ := ih second leads
        refine ⟨node weight left label after, ?_, ⟨?_, first, weighted⟩, ?_⟩
        · rw [rebalanceAt, balanced]
          rfl
        · rw [← weighted.length, list, second.length]
          exact sum
        · rw [toList_node, toList_node, list]

end WeightTree

end Tokuft
