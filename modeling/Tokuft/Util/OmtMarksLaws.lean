import Tokuft.Util.OmtMarks

/-! The bits of a tree tell exactly which of its places were visited since marks were deleted. -/

namespace Tokuft

variable {α σ : Type}

/-- The places of the labels that are visited until a visit says to stop. -/
def visitedPlaces (f : α → Nat → σ → Int × σ) : List (α × Nat) → σ → List Nat
  | [], _ => []
  | (label, idx) :: rest, extra =>
    idx :: if (f label idx extra).1 ≠ 0 then [] else visitedPlaces f rest (f label idx extra).2

/-- Labels after others are visited only when nothing said to stop. -/
theorem visitedPlaces_append (f : α → Nat → σ → Int × σ) :
    ∀ (first second : List (α × Nat)) (extra : σ),
      visitedPlaces f (first ++ second) extra = visitedPlaces f first extra ++
        if (WeightTree.visit f first extra).1 ≠ 0 then []
        else visitedPlaces f second (WeightTree.visit f first extra).2 := by
  -- By induction on the first labels, each of which may stop the visit.
  intro first
  induction first with
  | nil => exact fun _ _ => rfl
  | cons head first ih =>
    intro second extra
    obtain ⟨label, idx⟩ := head
    rw [List.cons_append, visitedPlaces, visitedPlaces, WeightTree.visit]
    by_cases stop : (f label idx extra).1 ≠ 0
    · simp only [if_pos stop]
      rfl
    · simp only [if_neg stop, ih, List.cons_append]

/-- Only places of labels are visited. -/
theorem mem_visitedPlaces {f : α → Nat → σ → Int × σ} {place : Nat} :
    ∀ {entries : List (α × Nat)} {extra : σ}, place ∈ visitedPlaces f entries extra →
      ∃ entry ∈ entries, entry.2 = place := by
  -- By induction on the labels.
  intro entries
  induction entries with
  | nil => exact nofun
  | cons head entries ih =>
    intro extra member
    obtain ⟨label, idx⟩ := head
    rw [visitedPlaces] at member
    rcases List.mem_cons.mp member with here | later
    · exact ⟨_, List.mem_cons_self, here.symm⟩
    · split at later
      · cases later
      · obtain ⟨entry, among, same⟩ := ih later
        exact ⟨entry, List.mem_cons_of_mem _ among, same⟩

/-- The places in a range of a list. -/
theorem mem_inRange {left right idx : Nat} {labels : List α} {entry : α × Nat} :
    entry ∈ WeightTree.inRange left right labels idx →
      left ≤ entry.2 ∧ entry.2 < right ∧ idx ≤ entry.2 ∧ entry.2 < idx + labels.length := by
  intro member
  obtain ⟨among, inside⟩ := List.mem_filter.mp member
  have bounds := List.mem_zipIdx among
  simp only [Bool.and_eq_true, decide_eq_true_eq] at inside
  omega

/-- The first place of a range is visited. -/
theorem first_visited (f : α → Nat → σ → Int × σ) {left right idx : Nat} (labels : List α)
    (extra : σ) (nonempty : left < right) (reached : idx < right)
    (inside : left < idx + labels.length) (labelled : 0 < labels.length) :
    ∃ place ∈ visitedPlaces f (WeightTree.inRange left right labels idx) extra,
      idx ≤ place ∧ place < idx + labels.length := by
  cases entries : WeightTree.inRange left right labels idx with
  | nil =>
    -- The larger one of the two bounds is a place in the range.
    have within : max left idx - idx < labels.length := by omega
    have among : (labels[max left idx - idx], max left idx) ∈
        WeightTree.inRange left right labels idx := by
      refine List.mem_filter.mpr ⟨List.mem_iff_getElem.mpr ⟨max left idx - idx, ?_, ?_⟩, ?_⟩
      · rw [List.length_zipIdx]
        omega
      · rw [List.getElem_zipIdx]
        congr 1
        omega
      · simp only [Bool.and_eq_true, decide_eq_true_eq]
        omega
    rw [entries] at among
    cases among
  | cons head rest =>
    have member : head ∈ WeightTree.inRange left right labels idx := by simp [entries]
    have bounds := mem_inRange member
    exact ⟨head.2, by simp [visitedPlaces], bounds.2.2⟩

/-- More places are marked. -/
def addPlaces (marks : Nat → Bool) (places : List Nat) (place : Nat) : Bool :=
  marks place || decide (place ∈ places)

/-- Marking places one after another. -/
theorem addPlaces_append (marks : Nat → Bool) (first second : List Nat) :
    addPlaces marks (first ++ second) = addPlaces (addPlaces marks first) second := by
  funext place
  simp [addPlaces, Bool.or_assoc]

/-- Marking no places. -/
theorem addPlaces_nil (marks : Nat → Bool) : addPlaces marks [] = marks := by
  funext place
  simp [addPlaces]

namespace WeightTree

/-- Something in a tree is marked. -/
def anyMarked (tree : WeightTree (OmtNode α)) : Bool := tree.toList.any OmtNode.marked

@[simp] theorem anyMarked_node (weight : Nat) (before behind : WeightTree (OmtNode α))
    (n : OmtNode α) : (node weight before n behind).anyMarked =
      (before.anyMarked || (n.marked || behind.anyMarked)) := by
  simp [anyMarked]

/-- Every node tells whether there are marks below it. -/
def Consistent : WeightTree (OmtNode α) → Prop
  | null => True
  | node _ before n behind =>
    n.marksBelow = (before.anyMarked || behind.anyMarked) ∧ before.Consistent ∧ behind.Consistent

/-- The marked nodes are those at given places. -/
def Marking (marks : Nat → Bool) : WeightTree (OmtNode α) → Nat → Prop
  | null, _ => True
  | node _ before n behind, idx =>
    before.Marking marks idx ∧ n.marked = marks (idx + before.nweight) ∧
      behind.Marking marks (idx + before.nweight + 1)

variable {marks marks' : Nat → Bool} {tree : WeightTree (OmtNode α)} {idx : Nat}

variable {places : List Nat}

/-- Only the places of a tree matter for it. -/
theorem Marking.congr : ∀ {tree : WeightTree (OmtNode α)} {idx : Nat}, tree.Weighted →
    tree.Marking marks idx →
    (∀ place, idx ≤ place → place < idx + tree.nweight → marks' place = marks place) →
    tree.Marking marks' idx := by
  -- By induction on the tree, whose parts are at places of their own.
  intro tree
  induction tree with
  | null => exact fun _ _ _ => trivial
  | node weight before n behind beforeIH behindIH =>
    rintro idx ⟨sum, first, second⟩ ⟨marking, here, marking'⟩ same
    rw [nweight_node] at same
    refine ⟨beforeIH first marking fun place low high => same place low (by omega), ?_,
      behindIH second marking' fun place low high => same place (by omega) (by omega)⟩
    rw [here, same _ (by omega) (by omega)]

/-- Marking places outside of a tree changes nothing in it. -/
theorem Marking.outside (marking : tree.Marking marks idx) (weighted : tree.Weighted)
    (apart : ∀ place ∈ places, place < idx ∨ idx + tree.nweight ≤ place) :
    tree.Marking (addPlaces marks places) idx := by
  refine marking.congr weighted fun place low high => ?_
  have missing : place ∉ places := fun member => by
    have := apart place member
    omega
  simp [addPlaces, missing]

/-- Something is marked if a place is. -/
theorem Marking.anyMarked : ∀ {tree : WeightTree (OmtNode α)} {idx : Nat}, tree.Weighted →
    tree.Marking marks idx →
    (tree.anyMarked = true ↔ ∃ place, idx ≤ place ∧ place < idx + tree.nweight ∧
      marks place = true) := by
  intro tree
  induction tree with
  | null =>
    intro idx _ _
    refine ⟨nofun, ?_⟩
    rintro ⟨place, low, high, -⟩
    rw [nweight_null] at high
    omega
  | node weight before n behind beforeIH behindIH =>
    rintro idx ⟨sum, first, second⟩ ⟨marking, here, marking'⟩
    rw [anyMarked_node, Bool.or_eq_true, Bool.or_eq_true, beforeIH first marking,
      behindIH second marking', here, nweight_node]
    constructor
    · rintro (⟨place, low, high, marked⟩ | marked | ⟨place, low, high, marked⟩)
      · exact ⟨place, low, by omega, marked⟩
      · exact ⟨_, by omega, by omega, marked⟩
      · exact ⟨place, by omega, by omega, marked⟩
    · -- A place is on the left, at the node or on the right.
      rintro ⟨place, low, high, marked⟩
      rcases Nat.lt_trichotomy place (idx + before.nweight) with less | same | more
      · exact .inl ⟨place, low, less, marked⟩
      · exact .inr (.inl (same ▸ marked))
      · exact .inr (.inr ⟨place, by omega, by omega, marked⟩)

/-- A tree with other bits. -/
structure Remarked (tree after : WeightTree (OmtNode α)) : Prop where
  weighted : after.Weighted
  nweight : after.nweight = tree.nweight
  labels : after.toList.map (fun n => (n.idx, n.value)) =
    tree.toList.map fun n => (n.idx, n.value)

/-- A tree has its own bits. -/
theorem Remarked.refl (weighted : tree.Weighted) : Remarked tree tree := ⟨weighted, rfl, rfl⟩

/-- Other bits in the parts of a tree are other bits in the tree. -/
theorem Remarked.node {weight : Nat} {before behind before' behind' : WeightTree (OmtNode α)}
    {n n' : OmtNode α} (sum : weight = before.nweight + behind.nweight + 1)
    (first : Remarked before before') (same : (n'.idx, n'.value) = (n.idx, n.value))
    (second : Remarked behind behind') :
    Remarked (node weight before n behind) (node weight before' n' behind') := by
  refine ⟨⟨?_, first.weighted, second.weighted⟩, rfl, ?_⟩
  · rw [first.nweight, second.nweight]
    exact sum
  · rw [toList_node, toList_node, List.map_append, List.map_append, List.map_cons, List.map_cons,
      first.labels, second.labels, same]

/-- Visiting a single label. -/
theorem visit_single (f : α → Nat → σ → Int × σ) (label : α) (idx : Nat) (extra : σ) :
    visit f [(label, idx)] extra = f label idx extra := by
  rw [visit]
  by_cases stop : (f label idx extra).1 ≠ 0
  · simp only [if_pos stop]
  · simp only [if_neg stop, visit]
    exact Prod.ext (Decidable.not_not.mp stop).symm rfl

/-- Marks of some places on a tree that had other bits. -/
structure Bits (marks : Nat → Bool) (tree : WeightTree (OmtNode α)) (idx : Nat)
    (after : WeightTree (OmtNode α)) : Prop where
  remarked : Remarked tree after
  consistent : after.Consistent
  marking : after.Marking marks idx

variable {after : WeightTree (OmtNode α)}

/-- A tree has its own bits. -/
theorem Bits.refl (weighted : tree.Weighted) (consistent : tree.Consistent)
    (marking : tree.Marking marks idx) : Bits marks tree idx tree :=
  ⟨.refl weighted, consistent, marking⟩

/-- Places outside of a tree have no bits in it. -/
theorem Bits.outside (bits : Bits marks tree idx after)
    (apart : ∀ place ∈ places, place < idx ∨ idx + tree.nweight ≤ place) :
    Bits (addPlaces marks places) tree idx after := by
  refine ⟨bits.remarked, bits.consistent, bits.marking.outside bits.remarked.weighted ?_⟩
  rw [bits.remarked.nweight]
  exact apart

/-- Bits of the parts of a tree are bits of the tree. -/
theorem Bits.node {weight : Nat} {before behind before' behind' : WeightTree (OmtNode α)}
    {n n' : OmtNode α} (sum : weight = before.nweight + behind.nweight + 1)
    (first : Bits marks before idx before') (same : (n'.idx, n'.value) = (n.idx, n.value))
    (marked : n'.marked = marks (idx + before.nweight))
    (below : n'.marksBelow = (before'.anyMarked || behind'.anyMarked))
    (second : Bits marks behind (idx + before.nweight + 1) behind') :
    Bits marks (node weight before n behind) idx (node weight before' n' behind') := by
  refine ⟨.node sum first.remarked same second.remarked,
    ⟨below, first.consistent, second.consistent⟩, first.marking, ?_, ?_⟩
  · rw [first.remarked.nweight]
    exact marked
  · rw [first.remarked.nweight]
    exact second.marking

/-- Only an empty tree has no weight. -/
theorem Weighted.positive (weighted : tree.Weighted) (isNode : tree.isNull = false) :
    0 < tree.nweight := by
  rcases Nat.eq_zero_or_pos tree.nweight with zero | positive
  · rw [weighted.null_of_nweight zero] at isNode
    cases isNode
  · exact positive

/-- When the places of a range are visited and marked, something is marked. -/
theorem Bits.visited {f : α → Nat → σ → Int × σ} {left right : Nat} {extra : σ}
    (weighted : tree.Weighted) (isNode : tree.isNull = false) (nonempty : left < right)
    (reached : idx < right) (inside : left < idx + tree.nweight)
    (bits : Bits (addPlaces marks (visitedPlaces f
      (inRange left right (tree.toList.map OmtNode.value) idx) extra)) tree idx after) :
    after.anyMarked = true := by
  -- The first place of the range is visited at least, and it is in the tree.
  have length : (tree.toList.map OmtNode.value).length = tree.nweight := by
    rw [List.length_map, weighted.length]
  have positive := weighted.positive isNode
  obtain ⟨place, visited, low, high⟩ := first_visited f
    (tree.toList.map OmtNode.value) extra nonempty reached
    (by omega) (by omega)
  refine (bits.marking.anyMarked bits.remarked.weighted).mpr ⟨place, low, ?_, ?_⟩
  · rw [bits.remarked.nweight]
    omega
  · simp [addPlaces, visited]

/-- A side that was walked is one with marks in it. -/
theorem map_marked {walk : Option (WeightTree (OmtNode α) × Int × σ)}
    {side : WeightTree (OmtNode α)} {result : Int × σ} (walked : walk = some (side, result)) :
    (walk.map fun (side, r, extra) => (side, true, r, extra)) = some (side, true, result) := by
  rw [walked]
  rfl

/-- Visiting and marking a range of a tree visits the values of the list whose places are in it, and
marks those that are visited. -/
theorem iterateAndMarkRange_eq (f : α → Nat → σ → Int × σ) {left right : Nat}
    (nonempty : left < right) : ∀ {tree : WeightTree (OmtNode α)} (idx : Nat) {marks : Nat → Bool}
    (extra : σ), tree.Weighted → tree.isNull = false → idx < right → left < idx + tree.nweight →
    tree.Consistent → tree.Marking marks idx →
    ∃ after, tree.iterateAndMarkRange f left right idx extra = some (after,
        visit f (inRange left right (tree.toList.map OmtNode.value) idx) extra) ∧
      Bits (addPlaces marks (visitedPlaces f
        (inRange left right (tree.toList.map OmtNode.value) idx) extra)) tree idx after := by
  -- A side is walked exactly when the range reaches it, and then something in it is marked.
  intro tree
  induction tree with
  | null =>
    intro _ _ _ _ isNode
    cases isNode
  | node weight before n behind beforeIH behindIH =>
    rintro idx marks extra ⟨sum, first, second⟩ - reached inside ⟨told, cons, cons'⟩
      ⟨marking, here, marking'⟩
    rw [nweight_node] at inside
    have length : (before.toList.map OmtNode.value).length = before.nweight := by
      rw [List.length_map, first.length]
    have length' : (behind.toList.map OmtNode.value).length = behind.nweight := by
      rw [List.length_map, second.length]
    have entries : inRange left right
        ((node weight before n behind).toList.map OmtNode.value) idx =
        inRange left right (before.toList.map OmtNode.value) idx ++
          ((if left ≤ idx + before.nweight ∧ idx + before.nweight < right then
            [(n.value, idx + before.nweight)] else []) ++
          inRange left right (behind.toList.map OmtNode.value) (idx + before.nweight + 1)) := by
      rw [toList_node, List.map_append, List.map_cons, inRange_append, inRange_cons, length]
      split <;> rfl
    -- The left side.
    obtain ⟨side, below, walked, bits, told'⟩ : ∃ side below,
        (if left < idx + before.nweight ∧ before.isNull = false then
          (before.iterateAndMarkRange f left right idx extra).map fun (side, r, extra) =>
            (side, true, r, extra)
        else some (before, n.marksBelow, 0, extra)) = some (side, below,
          visit f (inRange left right (before.toList.map OmtNode.value) idx) extra) ∧
        Bits (addPlaces marks (visitedPlaces f
          (inRange left right (before.toList.map OmtNode.value) idx) extra)) before idx side ∧
        below = (side.anyMarked || behind.anyMarked) := by
      split
      case isTrue goes =>
        obtain ⟨side, walked, bits⟩ := beforeIH idx extra first goes.2 reached goes.1 cons marking
        refine ⟨side, true, map_marked walked, bits, ?_⟩
        rw [bits.visited first goes.2 nonempty reached goes.1, Bool.true_or]
      case isFalse passes =>
        have empty : inRange left right (before.toList.map OmtNode.value) idx = [] := by
          cases isNull : before.isNull with
          | true =>
            rw [toList_of_isNull isNull]
            rfl
          | false =>
            have outside : ¬ left < idx + before.nweight := fun goes => passes ⟨goes, isNull⟩
            exact inRange_nil (.inr (by omega))
        refine ⟨before, n.marksBelow, by rw [empty]; rfl, ?_, told⟩
        rw [empty]
        exact (Bits.refl first cons marking).outside fun _ absent => by cases absent
    have placesLeft : ∀ place ∈ visitedPlaces f
        (inRange left right (before.toList.map OmtNode.value) idx) extra,
        place < idx + before.nweight := by
      intro place member
      obtain ⟨entry, among, rfl⟩ := mem_visitedPlaces member
      have bounds := mem_inRange among
      omega
    rw [entries, visit_append, visitedPlaces_append, addPlaces_append]
    simp only [iterateAndMarkRange, walked, Option.bind_some]
    generalize visit f (inRange left right (before.toList.map OmtNode.value) idx) extra =
      result
    generalize visitedPlaces f (inRange left right (before.toList.map OmtNode.value) idx) extra =
      places at bits placesLeft ⊢
    obtain ⟨r, extra⟩ := result
    have nodeAfter : n.marked = addPlaces marks places (idx + before.nweight) := by
      have missing : idx + before.nweight ∉ places := fun member =>
        Nat.lt_irrefl _ (placesLeft _ member)
      simp [addPlaces, missing, here]
    have behindAfter : Bits (addPlaces marks places) behind (idx + before.nweight + 1) behind :=
      (Bits.refl second cons' marking').outside fun place member => by
        have := placesLeft place member
        omega
    generalize addPlaces marks places = marks at bits nodeAfter behindAfter ⊢
    by_cases stop : r ≠ 0
    · -- Something on the left said to stop.
      simp only [if_pos stop, addPlaces_nil]
      exact ⟨_, rfl, .node sum bits rfl nodeAfter told' behindAfter⟩
    simp only [if_neg stop]
    -- The right side comes when the node did not say to stop.
    have finish {marks : Nat → Bool} (marked : Bool) (extra : σ) (bits : Bits marks before idx side)
        (here : marked = marks (idx + before.nweight))
        (behindBits : Bits marks behind (idx + before.nweight + 1) behind) :
        ∃ after, (if idx + before.nweight + 1 < right ∧ behind.isNull = false then
            (behind.iterateAndMarkRange f left right (idx + before.nweight + 1) extra).map
              fun (last, r, extra) => (WeightTree.node weight side
                { n with marked := marked, marksBelow := true } last, r, extra)
          else some (.node weight side { n with marked := marked, marksBelow := below } behind, 0,
            extra)) = some (after, visit f
              (inRange left right (behind.toList.map OmtNode.value) (idx + before.nweight + 1))
              extra) ∧
          Bits (addPlaces marks (visitedPlaces f
            (inRange left right (behind.toList.map OmtNode.value) (idx + before.nweight + 1))
            extra)) (.node weight before n behind) idx after := by
      split
      case isTrue goes =>
        obtain ⟨last, walked, lastBits⟩ := behindIH _ extra second goes.2 goes.1 (by omega) cons'
          behindBits.marking
        have some := lastBits.visited second goes.2 nonempty goes.1 (by omega)
        have apart : ∀ place ∈ visitedPlaces f (inRange left right
            (behind.toList.map OmtNode.value) (idx + before.nweight + 1)) extra,
            idx + before.nweight < place := by
          intro place member
          obtain ⟨entry, among, rfl⟩ := mem_visitedPlaces member
          have bounds := mem_inRange among
          omega
        refine ⟨.node weight side { n with marked := marked, marksBelow := true } last,
          by rw [walked]; rfl, .node sum (bits.outside fun place member => .inr ?_) rfl ?_ ?_
          lastBits⟩
        · have := apart place member
          omega
        · rw [addPlaces, decide_eq_false fun member => Nat.lt_irrefl _ (apart _ member),
            Bool.or_false]
          exact here
        · rw [some, Bool.or_true]
      case isFalse passes =>
        have empty : inRange left right (behind.toList.map OmtNode.value)
            (idx + before.nweight + 1) = [] := by
          cases isNull : behind.isNull with
          | true =>
            rw [toList_of_isNull isNull]
            rfl
          | false =>
            have outside : ¬ idx + before.nweight + 1 < right := fun goes =>
              passes ⟨goes, isNull⟩
            exact inRange_nil (.inl (by omega))
        rw [empty]
        refine ⟨_, rfl, ?_⟩
        rw [visitedPlaces, addPlaces_nil]
        exact .node sum bits rfl here told' behindBits
    by_cases within : left ≤ idx + before.nweight ∧ idx + before.nweight < right
    · simp only [if_pos within, visit_append, visit_single, visitedPlaces_append, addPlaces_append]
      have own : visitedPlaces f [(n.value, idx + before.nweight)] extra =
          [idx + before.nweight] := by simp [visitedPlaces]
      have marked : true = addPlaces marks [idx + before.nweight] (idx + before.nweight) := by
        simp [addPlaces]
      have bits : Bits (addPlaces marks [idx + before.nweight]) before idx side :=
        bits.outside fun place member => .inr (by simp at member; omega)
      have behindAfter : Bits (addPlaces marks [idx + before.nweight]) behind
          (idx + before.nweight + 1) behind :=
        behindAfter.outside fun place member => .inl (by simp at member; omega)
      rw [own]
      generalize f n.value (idx + before.nweight) extra = result
      obtain ⟨r, extra⟩ := result
      by_cases stop : r ≠ 0
      · simp only [if_pos stop, addPlaces_nil]
        exact ⟨_, rfl, .node sum bits rfl marked told' behindAfter⟩
      · simp only [if_neg stop]
        exact finish true extra bits marked behindAfter
    · simp only [if_neg within, List.nil_append, if_neg (Decidable.not_not.mpr (Eq.refl (0 : Int)))]
      exact finish n.marked extra bits nodeAfter behindAfter

end WeightTree

/-- The values of a list at marked places, with their places. -/
def markedAt (marks : Nat → Bool) (values : List α) (idx : Nat) : List (α × Nat) :=
  (values.zipIdx idx).filter fun entry => marks entry.2

/-- The values of a list at places that are not marked. -/
def dropMarked (marks : Nat → Bool) (values : List α) (idx : Nat) : List α :=
  ((values.zipIdx idx).filter fun entry => !marks entry.2).map Prod.fst

/-- The marked places of a list split at a value. -/
theorem markedAt_node (marks : Nat → Bool) (first second : List α) (value : α) (idx : Nat) :
    markedAt marks (first ++ value :: second) idx = markedAt marks first idx ++
      ((if marks (idx + first.length) then [(value, idx + first.length)] else []) ++
        markedAt marks second (idx + first.length + 1)) := by
  simp only [markedAt, List.zipIdx_append, List.zipIdx_cons, List.filter_append, List.filter_cons]
  split <;> rfl

/-- The first marked place, and the others. -/
theorem markedAt_cons (marks : Nat → Bool) (value : α) (values : List α) (idx : Nat) :
    markedAt marks (value :: values) idx =
      if marks idx then (value, idx) :: markedAt marks values (idx + 1)
      else markedAt marks values (idx + 1) := by
  simp only [markedAt, List.zipIdx_cons, List.filter_cons]

/-- The first place that is not marked, and the others. -/
theorem dropMarked_cons (marks : Nat → Bool) (value : α) (values : List α) (idx : Nat) :
    dropMarked marks (value :: values) idx =
      if marks idx then dropMarked marks values (idx + 1)
      else value :: dropMarked marks values (idx + 1) := by
  simp only [dropMarked, List.zipIdx_cons, List.filter_cons]
  cases marks idx <;> rfl

namespace WeightTree

variable {marks : Nat → Bool}

/-- Where no node is marked, no place is. -/
theorem Marking.none {tree : WeightTree (OmtNode α)} {idx : Nat} (weighted : tree.Weighted)
    (marking : tree.Marking marks idx) (clear : tree.anyMarked = false) :
    markedAt marks (tree.toList.map OmtNode.value) idx = [] := by
  -- A marked place would have marked its node.
  refine List.filter_eq_nil_iff.mpr fun entry member marked => ?_
  have bounds := List.mem_zipIdx member
  rw [List.length_map, weighted.length] at bounds
  have := (marking.anyMarked weighted).mpr ⟨entry.2, bounds.1, by omega, marked⟩
  rw [clear] at this
  cases this

/-- Where no node is marked, none tells that there are marks. -/
theorem Consistent.unmarked : ∀ {tree : WeightTree (OmtNode α)}, tree.Consistent →
    tree.anyMarked = false → Unmarked tree := by
  -- By induction on the tree: a node tells of the marks below it.
  intro tree
  induction tree with
  | null => exact fun _ _ => nofun
  | node weight before n behind beforeIH behindIH =>
    rintro ⟨told, first, second⟩ clear other member
    simp only [anyMarked_node, Bool.or_eq_false_iff] at clear
    rcases List.mem_append.mp member with among | among
    · exact beforeIH first clear.1 other among
    · rcases List.mem_cons.mp among with rfl | among
      · exact ⟨clear.2.1, by rw [told, clear.1, clear.2.2]; rfl⟩
      · exact behindIH second clear.2.2 other among

/-- Nodes without bits are the same when their bits are taken away. -/
theorem clearStolenBits_unmarked {tree : WeightTree (OmtNode α)} (clear : Unmarked tree) :
    tree.toList.map OmtNode.clearStolenBits = tree.toList := by
  have same : ∀ n ∈ tree.toList, n.clearStolenBits = id n := by
    intro n member
    obtain ⟨marked, below⟩ := clear n member
    cases n
    simp only at marked below
    simp [OmtNode.clearStolenBits, marked, below]
  rw [List.map_congr_left same, List.map_id]

/-- Visiting what is marked visits the values at marked places in order. -/
theorem iterateOverMarked_eq (f : α → Nat → σ → Int × σ) :
    ∀ {tree : WeightTree (OmtNode α)} {idx : Nat} (extra : σ), tree.Weighted → tree.Consistent →
      tree.Marking marks idx → tree.iterateOverMarked f idx extra =
        visit f (markedAt marks (tree.toList.map OmtNode.value) idx) extra := by
  intro tree
  induction tree with
  | null => exact fun _ _ _ _ => rfl
  | node weight before n behind beforeIH behindIH =>
    rintro idx extra ⟨sum, first, second⟩ ⟨told, cons, cons'⟩ ⟨marking, here, marking'⟩
    have length : (before.toList.map OmtNode.value).length = before.nweight := by
      rw [List.length_map, first.length]
    -- A side that is passed by has no marks.
    have left (extra : σ) : (if n.marksBelow then before.iterateOverMarked f idx extra
        else (0, extra)) =
          visit f (markedAt marks (before.toList.map OmtNode.value) idx) extra := by
      split
      case isTrue => exact beforeIH extra first cons marking
      case isFalse passes =>
        have none := (Bool.or_eq_false_iff.mp (told.symm.trans (Bool.not_eq_true _ ▸ passes))).1
        rw [marking.none first none]
        rfl
    have right (extra : σ) : (if n.marksBelow then
        behind.iterateOverMarked f (idx + before.nweight + 1) extra else (0, extra)) =
          visit f (markedAt marks (behind.toList.map OmtNode.value) (idx + before.nweight + 1))
            extra := by
      split
      case isTrue => exact behindIH extra second cons' marking'
      case isFalse passes =>
        have none := (Bool.or_eq_false_iff.mp (told.symm.trans (Bool.not_eq_true _ ▸ passes))).2
        rw [marking'.none second none]
        rfl
    have middle (extra : σ) : (if n.marked then f n.value (idx + before.nweight) extra
        else (0, extra)) = visit f (if marks (idx + before.nweight) then
          [(n.value, idx + before.nweight)] else []) extra := by
      rw [here]
      split
      case isTrue => exact (visit_single f _ _ _).symm
      case isFalse => rfl
    simp only [iterateOverMarked, left, middle, right]
    rw [toList_node, List.map_append, List.map_cons, markedAt_node, visit_append, visit_append,
      length]

/-- Taking away all marks tells their places and leaves a tree without bits. -/
theorem unmark_eq : ∀ {tree : WeightTree (OmtNode α)} (idx : Nat), tree.Weighted →
    tree.Consistent → tree.Marking marks idx →
    (tree.unmark idx).2 = (markedAt marks (tree.toList.map OmtNode.value) idx).map Prod.snd ∧
      (tree.unmark idx).1.Weighted ∧ (tree.unmark idx).1.nweight = tree.nweight ∧
      (tree.unmark idx).1.toList = tree.toList.map OmtNode.clearStolenBits := by
  intro tree
  induction tree with
  | null => exact fun _ _ _ _ => ⟨rfl, trivial, rfl, rfl⟩
  | node weight before n behind beforeIH behindIH =>
    rintro idx ⟨sum, first, second⟩ ⟨told, cons, cons'⟩ ⟨marking, here, marking'⟩
    have length : (before.toList.map OmtNode.value).length = before.nweight := by
      rw [List.length_map, first.length]
    have middle : (if n.marked then [idx + before.nweight] else []) =
        (if marks (idx + before.nweight) then [(n.value, idx + before.nweight)] else []).map
          Prod.snd := by
      rw [here]
      split <;> rfl
    rw [toList_node, List.map_append, List.map_cons, markedAt_node, length, List.map_append,
      List.map_append, ← middle, List.map_append, List.map_cons]
    cases below : n.marksBelow with
    | true =>
      obtain ⟨places, weighted, weight', list⟩ := beforeIH idx first cons marking
      obtain ⟨places', weighted', weight'', list'⟩ :=
        behindIH (idx + before.nweight + 1) second cons' marking'
      simp only [unmark, below, if_true, places, places', List.append_assoc, true_and, nweight_node,
        toList_node, list, list', and_true]
      exact ⟨by rw [weight', weight'']; exact sum, weighted, weighted'⟩
    | false =>
      -- Nothing below is marked, and the nodes there have no bits.
      have clear := Bool.or_eq_false_iff.mp (told.symm.trans below)
      rw [marking.none first clear.1, marking'.none second clear.2,
        clearStolenBits_unmarked (cons.unmarked clear.1),
        clearStolenBits_unmarked (cons'.unmarked clear.2)]
      simp only [unmark, below, Bool.false_eq_true, if_false, List.map_nil, List.nil_append,
        List.append_nil, true_and, nweight_node, toList_node, and_true]
      exact ⟨sum, first, second⟩

/-- Bits that agree with the marks pass the check, which counts the marks. -/
theorem verifyMarksConsistent_eq : ∀ {tree : WeightTree (OmtNode α)} (allowMarks : Bool),
    tree.Consistent → (tree.anyMarked = true → allowMarks = true) →
    tree.verifyMarksConsistent allowMarks = some (tree.toList.countP OmtNode.marked) := by
  intro tree
  induction tree with
  | null => exact fun _ _ _ => rfl
  | node weight before n behind beforeIH behindIH =>
    rintro allowMarks ⟨told, first, second⟩ allowed
    have count (side : WeightTree (OmtNode α)) :
        side.anyMarked = decide (0 < side.toList.countP OmtNode.marked) := by
      rw [anyMarked, Bool.eq_iff_iff, List.any_eq_true, decide_eq_true_iff, List.countP_pos_iff]
    have left := beforeIH n.marksBelow first fun marked => by simp [told, marked]
    have right := behindIH n.marksBelow second fun marked => by simp [told, marked]
    rw [anyMarked_node] at allowed
    simp only [verifyMarksConsistent, left, right, bind_runs, toList_node, List.countP_append,
      List.countP_cons]
    simp only [count] at told allowed
    generalize before.toList.countP OmtNode.marked = numLeft at *
    generalize behind.toList.countP OmtNode.marked = numRight at *
    cases below : n.marksBelow with
    | true =>
      -- The marks below are allowed, and so is one on the node.
      rw [below, eq_comm, Bool.or_eq_true, decide_eq_true_iff, decide_eq_true_iff] at told
      have positive : 0 < numLeft + numRight := by omega
      have allowed := allowed (by rcases told with more | more <;> simp [more])
      simp only [if_true, invariant_of positive, invariant_of allowed]
      cases marked : n.marked with
      | true =>
        simp only [if_true, Option.bind_some]
        rfl
      | false =>
        simp only [Bool.false_eq_true, if_false, Option.bind_some]
        rfl
    | false =>
      rw [below, eq_comm, Bool.or_eq_false_iff, decide_eq_false_iff_not,
        decide_eq_false_iff_not] at told
      have none : numLeft + numRight = 0 := by omega
      cases marked : n.marked with
      | true =>
        have allowed := allowed (by simp [marked])
        simp [allowed, none]
        omega
      | false => simp [none]

end WeightTree

end Tokuft
