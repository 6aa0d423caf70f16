import Tokuft.Blocks.MhsInsert

/-! A new hole is joined with its neighbours in order, whichever nodes hold them. -/

namespace Tokuft

namespace MhsRbTree

variable {alignment : Nat} {pred pair succ : Hole}

/-- A hole that starts below infinity ends where its size says, or at infinity. -/
theorem Hole.end_cases (hole : Hole) (finite : hole.offset < mhsMaxVal) :
    (hole.size = mhsMaxVal ∧ hole.end = mhsMaxVal) ∨
      (hole.size ≠ mhsMaxVal ∧ hole.end = hole.offset + hole.size ∧
        hole.offset + hole.size ≤ mhsMaxVal) := by
  -- An infinite size stands for a hole that never ends.
  rcases hole with ⟨offset, size, fits⟩
  simp only at finite
  by_cases infinite : size = mhsMaxVal
  · refine Or.inl ⟨infinite, ?_⟩
    simp [Hole.end, ouAdd, infinite]
  · have notBoth : ¬(offset = mhsMaxVal ∨ size = mhsMaxVal) := by omega
    have bound : size ≤ mhsMaxVal - offset := by
      by_contra large
      simp [ouAdd, notBoth, invariant, large] at fits
    have sum : offset + size ≤ mhsMaxVal := by omega
    refine Or.inr ⟨infinite, ?_, sum⟩
    simp [Hole.end, ouAdd, notBoth, bound]

/-- Where a hole ends is what adding its size to its offset gives. -/
theorem Hole.add_eq (hole : Hole) : ouAdd hole.offset hole.size = some hole.end := by
  rw [Hole.end, Option.some_get]

/-- Numbers are added when they do not overflow. -/
theorem ouAdd_of_le {value other : Nat} (fits : value + other ≤ mhsMaxVal) :
    ouAdd value other = some (value + other) := by
  unfold ouAdd
  split
  · congr 1
    omega
  · have bound : other ≤ mhsMaxVal - value := by omega
    simp [bound]

/-- Anything added to infinity is infinity. -/
@[simp] theorem ouAdd_infinite (other : Nat) : ouAdd mhsMaxVal other = some mhsMaxVal := by
  simp [ouAdd]

/-- Infinity added to anything is infinity. -/
@[simp] theorem ouAdd_infinite_right (value : Nat) : ouAdd value mhsMaxVal = some mhsMaxVal := by
  simp [ouAdd]

/-- A hole is made when its end does not overflow. -/
theorem Hole.make_of_add {offset size last : Nat} (added : ouAdd offset size = some last) :
    ∃ hole, Hole.make offset size = some hole ∧ hole.offset = offset ∧ hole.size = size ∧
      hole.end = last := by
  have fits : (ouAdd offset size).isSome := by rw [added]; rfl
  refine ⟨{ offset, size, fits }, dif_pos fits, rfl, rfl, ?_⟩
  have whole := Hole.add_eq { offset, size, fits }
  rw [added] at whole
  exact (Option.some.inj whole).symm

/-- Numbers that are not both infinite are compared. -/
theorem ouLt_of_lt {value other : Nat} (finite : value < mhsMaxVal ∨ other < mhsMaxVal) :
    ouLt value other = some (decide (value < other)) := by
  have notBoth : ¬(value = mhsMaxVal ∧ other = mhsMaxVal) := by omega
  simp [ouLt, notBoth]

/-- A hole that ends where a new one starts grows by it. -/
theorem growPred_ok (finite : pair.offset < mhsMaxVal) (nonempty : pred.offset < pred.end)
    (touches : pred.end = pair.offset) :
    ∃ hole, growPred pred pair = some hole ∧ hole.offset = pred.offset ∧ hole.end = pair.end := by
  -- The hole before a new one ends, so it is finite.
  have early : pred.offset < mhsMaxVal := by omega
  rcases pred.end_cases early with ⟨-, infinite⟩ | ⟨predFinite, predEnd, predFits⟩
  · omega
  · rcases pair.end_cases finite with ⟨pairInfinite, pairEnd⟩ | ⟨pairFinite, pairEnd, pairFits⟩
    · have added : ouAdd pred.offset mhsMaxVal = some pair.end := by
        rw [ouAdd_infinite_right, pairEnd]
      obtain ⟨hole, made, offset, -, last⟩ := Hole.make_of_add added
      exact ⟨hole, by simp [growPred, pairInfinite, made], offset, last⟩
    · have sum : ouAdd pred.size pair.size = some (pred.size + pair.size) :=
        ouAdd_of_le (by omega)
      have added : ouAdd pred.offset (pred.size + pair.size) = some pair.end := by
        rw [ouAdd_of_le (by omega)]
        congr 1
        omega
      obtain ⟨hole, made, offset, -, last⟩ := Hole.make_of_add added
      exact ⟨hole, by simp [growPred, sum, made], offset, last⟩

/-- A hole that starts where a new one ends grows by it. -/
theorem growSucc_ok (finite : succ.offset < mhsMaxVal) (nonempty : pair.offset < pair.end)
    (touches : pair.end = succ.offset) :
    ∃ hole, growSucc succ pair = some hole ∧ hole.offset = pair.offset ∧ hole.end = succ.end := by
  -- The new hole ends where another one starts, so it is finite.
  have early : pair.offset < mhsMaxVal := by omega
  rcases pair.end_cases early with ⟨-, infinite⟩ | ⟨pairFinite, pairEnd, pairFits⟩
  · omega
  · have notMax : succ.offset ≠ mhsMaxVal := by omega
    have within : pair.size ≤ succ.offset := by omega
    have moved : ouSubAssign succ.offset pair.size = some (succ.offset - pair.size) := by
      simp [ouSubAssign, ouSub, notMax, pairFinite, within]
    have start : succ.offset - pair.size = pair.offset := by omega
    rcases succ.end_cases finite with ⟨succInfinite, succEnd⟩ | ⟨succFinite, succEnd, succFits⟩
    · have added : ouAdd pair.offset mhsMaxVal = some succ.end := by
        rw [ouAdd_infinite_right, succEnd]
      obtain ⟨hole, made, offset, -, last⟩ := Hole.make_of_add added
      exact ⟨hole, by simp [growSucc, moved, start, succInfinite, made], offset, last⟩
    · have sum : ouAdd succ.size pair.size = some (succ.size + pair.size) :=
        ouAdd_of_le (by omega)
      have added : ouAdd pair.offset (succ.size + pair.size) = some succ.end := by
        rw [ouAdd_of_le (by omega)]
        congr 1
        omega
      obtain ⟨hole, made, offset, -, last⟩ := Hole.make_of_add added
      exact ⟨hole, by simp [growSucc, moved, start, sum, made], offset, last⟩

/-- An empty hole may be made anywhere. -/
theorem Hole.make_empty (offset : Nat) (bound : offset ≤ mhsMaxVal) :
    ∃ hole, Hole.make offset 0 = some hole := by
  obtain ⟨hole, made, -⟩ := Hole.make_of_add (ouAdd_of_le (show offset + 0 ≤ mhsMaxVal from bound))
  exact ⟨hole, made⟩

section

variable (finite : succ.offset < mhsMaxVal) (predNonempty : pred.offset < pred.end)
  (nonempty : pair.offset < pair.end) (left : pred.end = pair.offset)
  (right : pair.end = succ.offset)
include finite predNonempty nonempty left right

/-- Three sizes in a row add up to the end of the last one. -/
theorem sizes_add :
    pred.end = pred.offset + pred.size ∧ pair.end = pair.offset + pair.size ∧
      ((succ.size = mhsMaxVal ∧ succ.end = mhsMaxVal) ∨
        (succ.end = succ.offset + succ.size ∧ succ.end ≤ mhsMaxVal)) := by
  have predFinite : pred.offset < mhsMaxVal := by omega
  have pairFinite : pair.offset < mhsMaxVal := by omega
  refine ⟨?_, ?_, ?_⟩
  · rcases pred.end_cases predFinite with ⟨-, infinite⟩ | ⟨-, last, -⟩ <;> omega
  · rcases pair.end_cases pairFinite with ⟨-, infinite⟩ | ⟨-, last, -⟩ <;> omega
  · rcases succ.end_cases finite with infinite | ⟨-, last, fits⟩
    · exact Or.inl infinite
    · exact Or.inr ⟨last, by omega⟩

/-- Between two holes that it touches a new one joins both into the first. -/
theorem absorbIntoPred_ok :
    ∃ hole emptied, absorbIntoPred pred succ pair = some (hole, emptied) ∧
      hole.offset = pred.offset ∧ hole.end = succ.end := by
  -- Only the last of the three may be infinite, and then the whole is.
  obtain ⟨predEnd, pairEnd, ⟨infinite, succEnd⟩ | ⟨succEnd, bound⟩⟩ :=
    sizes_add finite predNonempty nonempty left right
  · have added : ouAdd pred.offset mhsMaxVal = some succ.end := by
      rw [ouAdd_infinite_right, succEnd]
    obtain ⟨hole, made, offset, -, last⟩ := Hole.make_of_add added
    obtain ⟨emptied, empty⟩ := Hole.make_empty mhsMaxVal (Nat.le_refl _)
    exact ⟨hole, emptied, by simp [absorbIntoPred, infinite, made, empty], offset, last⟩
  · have first : ouAdd succ.size pair.size = some (succ.size + pair.size) :=
      ouAdd_of_le (by omega)
    have second : ouAdd pred.size (succ.size + pair.size) =
        some (pred.size + (succ.size + pair.size)) := ouAdd_of_le (by omega)
    have third : ouAdd pair.offset (succ.size + pair.size) =
      some (pair.offset + (succ.size + pair.size)) :=
      ouAdd_of_le (by omega)
    have added : ouAdd pred.offset (pred.size + (succ.size + pair.size)) = some succ.end := by
      rw [ouAdd_of_le (by omega)]
      congr 1
      omega
    obtain ⟨hole, made, offset, -, last⟩ := Hole.make_of_add added
    obtain ⟨emptied, empty⟩ := Hole.make_empty (pair.offset + (succ.size + pair.size)) (by omega)
    exact ⟨hole, emptied, by simp [absorbIntoPred, first, second, third, made, empty], offset, last⟩

/-- Between two holes that it touches a new one joins both into the second. -/
theorem absorbIntoSucc_ok :
    ∃ emptied hole, absorbIntoSucc pred succ pair = some (emptied, hole) ∧
      hole.offset = pred.offset ∧ hole.end = succ.end := by
  -- Only the last of the three may be infinite, and then the whole is.
  obtain ⟨predEnd, pairEnd, whole⟩ := sizes_add finite predNonempty nonempty left right
  have first : ouAdd pred.size pair.size = some (pred.size + pair.size) := ouAdd_of_le (by omega)
  have third : ouAdd pred.offset (pred.size + pair.size) =
    some (pred.offset + (pred.size + pair.size)) :=
    ouAdd_of_le (by omega)
  obtain ⟨emptied, empty⟩ := Hole.make_empty (pred.offset + (pred.size + pair.size)) (by omega)
  rcases whole with ⟨infinite, succEnd⟩ | ⟨succEnd, bound⟩
  · have added : ouAdd pred.offset mhsMaxVal = some succ.end := by
      rw [ouAdd_infinite_right, succEnd]
    obtain ⟨hole, made, offset, -, last⟩ := Hole.make_of_add added
    exact ⟨emptied, hole, by simp [absorbIntoSucc, first, third, infinite, made, empty],
      offset, last⟩
  · have second : ouAdd succ.size (pred.size + pair.size) =
        some (succ.size + (pred.size + pair.size)) := ouAdd_of_le (by omega)
    have added : ouAdd pred.offset (succ.size + (pred.size + pair.size)) = some succ.end := by
      rw [ouAdd_of_le (by omega)]
      congr 1
      omega
    obtain ⟨hole, made, offset, -, last⟩ := Hole.make_of_add added
    exact ⟨emptied, hole, by simp [absorbIntoSucc, first, second, third, made, empty], offset, last⟩

end

/-- Holes that do not overlap touch exactly when one ends where the other starts. -/
theorem touches_of_le {last start : Nat} (finite : start < mhsMaxVal) (apart : last ≤ start) :
    touches last start = some (decide (last = start)) := by
  rw [touches, ouLt_of_lt (Or.inr finite)]
  by_cases same : last = start
  · simp [same]
  · have below : last < start := by omega
    simp [below, same]

/-- A new hole that overlaps neither neighbour is found to touch exactly those at its ends. -/
theorem isNewNodeMergable_ok {pred succ : Option Hole} (finite : pair.offset < mhsMaxVal)
    (early : ∀ hole ∈ pred, hole.offset < hole.end ∧ hole.end ≤ pair.offset)
    (late : ∀ hole ∈ succ, pair.end ≤ hole.offset ∧ hole.offset < mhsMaxVal) :
    isNewNodeMergable pred succ pair =
      some (pred.any fun hole => hole.end = pair.offset,
        succ.any fun hole => pair.end = hole.offset) := by
  -- Each neighbour is asked by itself, if it is there.
  have first : (pred.elim (some false) fun pred =>
      (ouAdd pred.size pred.offset).bind fun endOfPred => touches endOfPred pair.offset) =
      some (pred.any fun hole => hole.end = pair.offset) := by
    cases pred with
    | none => rfl
    | some pred =>
      obtain ⟨nonempty, before⟩ := early pred rfl
      have sum : ouAdd pred.size pred.offset = some pred.end := by
        rcases pred.end_cases (by omega) with ⟨-, infinite⟩ | ⟨-, last, fits⟩
        · omega
        · rw [ouAdd_of_le (by omega), last, Nat.add_comm]
      rw [Option.elim_some, sum, Option.bind_some, touches_of_le finite before]
      rfl
  have second : (succ.elim (some false) fun succ =>
      (ouAdd pair.offset pair.size).bind fun endOfNode => touches endOfNode succ.offset) =
      some (succ.any fun hole => pair.end = hole.offset) := by
    cases succ with
    | none => rfl
    | some succ =>
      obtain ⟨after, bound⟩ := late succ rfl
      rw [Option.elim_some, pair.add_eq, Option.bind_some, touches_of_le bound after]
      rfl
  unfold isNewNodeMergable
  rw [first, second]
  rfl

/-- What becomes of the holes before and after a new one that joins the ones it touches. -/
inductive Joined (early late : List Hole) (pair : Hole) : List Hole → Prop where
  | alone (first : ∀ hole ∈ early.getLast?, hole.end ≠ pair.offset)
      (second : ∀ hole ∈ late.head?, pair.end ≠ hole.offset) :
      Joined early late pair (early ++ pair :: late)
  | left {others : List Hole} {pred hole : Hole} (split : early = others ++ [pred])
      (first : pred.end = pair.offset) (second : ∀ hole ∈ late.head?, pair.end ≠ hole.offset)
      (start : hole.offset = pred.offset) (last : hole.end = pair.end) :
      Joined early late pair (others ++ hole :: late)
  | right {others : List Hole} {succ hole : Hole} (split : late = succ :: others)
      (first : ∀ hole ∈ early.getLast?, hole.end ≠ pair.offset) (second : pair.end = succ.offset)
      (start : hole.offset = pair.offset) (last : hole.end = succ.end) :
      Joined early late pair (early ++ hole :: others)
  | both {others rest : List Hole} {pred succ hole : Hole} (splitEarly : early = others ++ [pred])
      (splitLate : late = succ :: rest) (first : pred.end = pair.offset)
      (second : pair.end = succ.offset) (start : hole.offset = pred.offset)
      (last : hole.end = succ.end) : Joined early late pair (others ++ hole :: rest)

variable {rest : Path}

section

variable {lower upper : Path} {turn : Frame}

/-- The holes above the nearest node and its last turn to the left. -/
theorem turn_right (found : findTurn .right rest = some (lower, turn, upper)) (hole : Hole) :
    before (lower ++ turn.setHole hole :: upper) =
        before upper ++ inorder turn.sibling ++ [hole] ∧
      after (lower ++ turn.setHole hole :: upper) = after lower ++ after upper ∧
      after rest = after lower ++ after upper ∧
      before rest = before upper ++ inorder turn.sibling ++ [turn.data.hole] := by
  obtain ⟨split, side, all⟩ := findTurn_inv found
  have none := before_eq_nil all
  subst split
  refine ⟨?_, ?_, ?_, ?_⟩ <;>
    simp [before_append, after_append, before, after, Frame.setHole, side, none]

/-- The holes above the nearest node and its last turn to the right. -/
theorem turn_left (found : findTurn .left rest = some (lower, turn, upper)) (hole : Hole) :
    after (lower ++ turn.setHole hole :: upper) =
        hole :: (inorder turn.sibling ++ after upper) ∧
      before (lower ++ turn.setHole hole :: upper) = before upper ++ before lower ∧
      before rest = before upper ++ before lower ∧
      after rest = turn.data.hole :: (inorder turn.sibling ++ after upper) := by
  obtain ⟨split, side, all⟩ := findTurn_inv found
  have none := after_eq_nil all
  subst split
  refine ⟨?_, ?_, ?_, ?_⟩ <;>
    simp [before_append, after_append, before, after, Frame.setHole, side, none]

end

/-- A new hole that lies apart from those before and after it. -/
structure Room (early late : List Hole) (pair : Hole) : Prop where
  finite : pair.offset < mhsMaxVal
  nonempty : pair.offset < pair.end
  early : ∀ hole ∈ early, hole.offset < hole.end ∧ hole.end ≤ pair.offset
  late : ∀ hole ∈ late, pair.end ≤ hole.offset ∧ hole.offset < mhsMaxVal

variable {y : Frame} {others : List Hole}

/-- A new node is put into its place, and the tree above it is repaired. -/
theorem insertFixup_new {path : Path} (valid : Valid alignment (plug .nil path)) :
    ∃ tree, insertFixup alignment
        (.node { color := .red, hole := pair, label := { left := 0, right := 0 } } .nil .nil)
        (recalculateMhs alignment (mhsOf alignment
          { color := .red, hole := pair, label := { left := 0, right := 0 } }) path) = some tree ∧
      Valid alignment tree ∧ inorder tree = before path ++ pair :: after path := by
  -- A place below balanced nodes takes a red node, since an empty tree is black.
  obtain ⟨-, labels⟩ := labelled_plug.mp valid.labelled
  obtain ⟨top, balanced⟩ := valid.balanced
  obtain ⟨color, height, redFits, ok, above, fits⟩ := balanced.zoom
  cases ok with
  | nil =>
    have red : Balanced (.node { color := .red, hole := pair, label := { left := 0, right := 0 } }
        .nil .nil) .red 0 := .red rfl .nil .nil
    obtain ⟨tree, repaired, treeOk, same⟩ := @insertFixup_ok alignment _ _ _ _ red
      (balancedPath_of_tint (tint_of_bare (recalculateMhs_bare _ path)) above)
    refine ⟨tree, repaired, same.valid (labelled_plug.mpr ⟨⟨rfl, rfl, trivial, trivial⟩,
      recalculateMhs_labelled labels⟩) treeOk, ?_⟩
    rw [same.holes, inorder_plug]
    simp [inorder]

/-- A new hole is joined with the hole before it and the hole after it. -/
theorem absorbNewNode_both {later : List Hole} (valid : Valid alignment (plug .nil (y :: rest)))
    (room : Room (before (y :: rest)) (after (y :: rest)) pair)
    (splitEarly : before (y :: rest) = others ++ [pred])
    (splitLate : after (y :: rest) = succ :: later) (first : pred.end = pair.offset)
    (second : pair.end = succ.offset) :
    ∃ tree, absorbNewNode alignment y rest pair true true = some tree ∧ Valid alignment tree ∧
      Joined (before (y :: rest)) (after (y :: rest)) pair (inorder tree) := by
  have predOk := room.early pred (by rw [splitEarly]; simp)
  have succOk := room.late succ (by rw [splitLate]; simp)
  cases side : y.dir with
  | left =>
    -- The nearest node holds the hole after the new one.
    have here : after (y :: rest) = y.data.hole :: (inorder y.sibling ++ after rest) := by
      simp [after, side]
    have there : before (y :: rest) = before rest := by simp [before, side]
    rw [here, List.cons.injEq] at splitLate
    obtain ⟨rfl, rfl⟩ := splitLate
    cases found : findTurn .right rest with
    | none =>
      rw [there, before_eq_nil (findTurn_none found)] at splitEarly
      simp at splitEarly
    | some parts =>
      obtain ⟨lower, turn, upper⟩ := parts
      obtain ⟨-, -, afterRest, beforeRest⟩ := turn_right found turn.data.hole
      rw [there, beforeRest] at splitEarly
      obtain ⟨rfl, last⟩ := List.append_inj' splitEarly rfl
      cases last
      obtain ⟨hole, emptied, absorbed, start, ends⟩ :=
        absorbIntoPred_ok succOk.2 predOk.1 room.nonempty first second
      obtain ⟨split, -, -⟩ := findTurn_inv found
      obtain ⟨newBefore, newAfter, -, -⟩ := turn_right found hole
      rw [split] at valid
      obtain ⟨tree, removed, ok, holes⟩ :=
        @absorbBoth_ok alignment upper turn y lower emptied hole valid
      refine ⟨tree, by simp [absorbNewNode, side, found, absorbed, removed], ok, ?_⟩
      rw [holes, newBefore, newAfter, there, here, ← afterRest, List.append_assoc,
        List.singleton_append, beforeRest]
      exact Joined.both rfl rfl first second start ends
  | right =>
    have here : before (y :: rest) = before rest ++ (inorder y.sibling ++ [y.data.hole]) := by
      simp [before, side]
    have there : after (y :: rest) = after rest := by simp [after, side]
    rw [here, ← List.append_assoc] at splitEarly
    obtain ⟨rfl, last⟩ := List.append_inj' splitEarly rfl
    cases last
    cases found : findTurn .left rest with
    | none =>
      rw [there, after_eq_nil (findTurn_none found)] at splitLate
      cases splitLate
    | some parts =>
      obtain ⟨lower, turn, upper⟩ := parts
      obtain ⟨-, -, beforeRest, afterRest⟩ := turn_left found turn.data.hole
      rw [there, afterRest, List.cons.injEq] at splitLate
      obtain ⟨rfl, rfl⟩ := splitLate
      obtain ⟨emptied, hole, absorbed, start, ends⟩ :=
        absorbIntoSucc_ok succOk.2 predOk.1 room.nonempty first second
      obtain ⟨split, -, -⟩ := findTurn_inv found
      obtain ⟨newAfter, newBefore, -, -⟩ := turn_left found hole
      rw [split] at valid
      obtain ⟨tree, removed, ok, holes⟩ :=
        @absorbBoth_ok alignment upper turn y lower emptied hole valid
      refine ⟨tree, by simp [absorbNewNode, side, found, absorbed, removed], ok, ?_⟩
      rw [holes, newBefore, newAfter, there, here, ← beforeRest, afterRest, ← List.append_assoc,
        ← List.append_assoc]
      exact Joined.both rfl rfl first second start ends

section

variable (valid : Valid alignment (plug .nil (y :: rest)))
  (room : Room (before (y :: rest)) (after (y :: rest)) pair)
include valid room

/-- A new hole is joined with the hole before it alone. -/
theorem absorbNewNode_left (splitEarly : before (y :: rest) = others ++ [pred])
    (first : pred.end = pair.offset)
    (second : ∀ hole ∈ (after (y :: rest)).head?, pair.end ≠ hole.offset) :
    ∃ tree, absorbNewNode alignment y rest pair true false = some tree ∧ Valid alignment tree ∧
      Joined (before (y :: rest)) (after (y :: rest)) pair (inorder tree) := by
  -- The hole before is the nearest node, or else the turn further above.
  have predOk := room.early pred (by rw [splitEarly]; simp)
  obtain ⟨hole, grown, start, ends⟩ := growPred_ok room.finite predOk.1 first
  cases side : y.dir with
  | left =>
    have here : after (y :: rest) = y.data.hole :: (inorder y.sibling ++ after rest) := by
      simp [after, side]
    have there : before (y :: rest) = before rest := by simp [before, side]
    cases found : findTurn .right rest with
    | none =>
      rw [there, before_eq_nil (findTurn_none found)] at splitEarly
      simp at splitEarly
    | some parts =>
      obtain ⟨lower, turn, upper⟩ := parts
      obtain ⟨newBefore, newAfter, afterRest, beforeRest⟩ := turn_right found hole
      obtain ⟨split, -, -⟩ := findTurn_inv found
      have splitRest := splitEarly
      rw [there, beforeRest] at splitRest
      obtain ⟨rfl, last⟩ := List.append_inj' splitRest rfl
      cases last
      rw [split, ← List.cons_append] at valid
      obtain ⟨ok, holes⟩ := @growFar_ok alignment upper turn (y :: lower) hole valid
      refine ⟨_, by simp [absorbNewNode, side, found, grown], ok, ?_⟩
      have newEarly : before (y :: (lower ++ turn.setHole hole :: upper)) =
          before upper ++ inorder turn.sibling ++ [hole] := by
        simp only [before, side, List.append_nil]
        exact newBefore
      have newLate : after (y :: (lower ++ turn.setHole hole :: upper)) = after (y :: rest) := by
        rw [here, afterRest, after, newAfter]
        simp [side]
      rw [holes, List.cons_append, newEarly, newLate, List.append_assoc, List.singleton_append]
      exact Joined.left splitEarly first second start ends
  | right =>
    have here : before (y :: rest) = before rest ++ (inorder y.sibling ++ [y.data.hole]) := by
      simp [before, side]
    have splitHere := splitEarly
    rw [here, ← List.append_assoc] at splitHere
    obtain ⟨rfl, last⟩ := List.append_inj' splitHere rfl
    cases last
    obtain ⟨ok, holes⟩ := @growNear_ok alignment y rest hole valid
    refine ⟨_, by simp [absorbNewNode, side, grown], ok, ?_⟩
    have newEarly : before (y.setHole hole :: rest) =
        before rest ++ inorder y.sibling ++ [hole] := by
      simp [before, Frame.setHole, side]
    have newLate : after (y.setHole hole :: rest) = after (y :: rest) := by
      simp [after, Frame.setHole, side]
    rw [holes, newEarly, newLate, List.append_assoc, List.singleton_append]
    exact Joined.left splitEarly first second start ends

/-- A new hole is joined with the hole after it alone. -/
theorem absorbNewNode_right (splitLate : after (y :: rest) = succ :: others)
    (second : pair.end = succ.offset)
    (first : ∀ hole ∈ (before (y :: rest)).getLast?, hole.end ≠ pair.offset) :
    ∃ tree, absorbNewNode alignment y rest pair false true = some tree ∧ Valid alignment tree ∧
      Joined (before (y :: rest)) (after (y :: rest)) pair (inorder tree) := by
  -- The hole after is the nearest node, or else the turn further above.
  have succOk := room.late succ (by rw [splitLate]; simp)
  obtain ⟨hole, grown, start, ends⟩ := growSucc_ok succOk.2 room.nonempty second
  cases side : y.dir with
  | left =>
    have here : after (y :: rest) = y.data.hole :: (inorder y.sibling ++ after rest) := by
      simp [after, side]
    have splitHere := splitLate
    rw [here, List.cons.injEq] at splitHere
    obtain ⟨rfl, rfl⟩ := splitHere
    obtain ⟨ok, holes⟩ := @growNear_ok alignment y rest hole valid
    refine ⟨_, by simp [absorbNewNode, side, grown], ok, ?_⟩
    have newEarly : before (y.setHole hole :: rest) = before (y :: rest) := by
      simp [before, Frame.setHole, side]
    have newLate : after (y.setHole hole :: rest) =
        hole :: (inorder y.sibling ++ after rest) := by
      simp [after, Frame.setHole, side]
    rw [holes, newEarly, newLate]
    exact Joined.right splitLate first second start ends
  | right =>
    have here : before (y :: rest) = before rest ++ (inorder y.sibling ++ [y.data.hole]) := by
      simp [before, side]
    have there : after (y :: rest) = after rest := by simp [after, side]
    cases found : findTurn .left rest with
    | none =>
      rw [there, after_eq_nil (findTurn_none found)] at splitLate
      cases splitLate
    | some parts =>
      obtain ⟨lower, turn, upper⟩ := parts
      obtain ⟨newAfter, newBefore, beforeRest, afterRest⟩ := turn_left found hole
      obtain ⟨split, -, -⟩ := findTurn_inv found
      have splitRest := splitLate
      rw [there, afterRest, List.cons.injEq] at splitRest
      obtain ⟨rfl, rfl⟩ := splitRest
      rw [split, ← List.cons_append] at valid
      obtain ⟨ok, holes⟩ := @growFar_ok alignment upper turn (y :: lower) hole valid
      refine ⟨_, by simp [absorbNewNode, side, found, grown], ok, ?_⟩
      have newLate : after (y :: (lower ++ turn.setHole hole :: upper)) =
          hole :: (inorder turn.sibling ++ after upper) := by
        simp only [after, side, List.nil_append]
        exact newAfter
      have newEarly : before (y :: (lower ++ turn.setHole hole :: upper)) =
          before (y :: rest) := by
        rw [here, beforeRest, before, newBefore]
        simp [side]
      rw [holes, List.cons_append, newEarly, newLate]
      exact Joined.right splitLate first second start ends

end

/-- The neighbours of a place are the last hole before it and the first hole after it. -/
theorem predAndSucc_eq (y : Frame) (rest : Path) :
    predAndSucc y rest = ((before (y :: rest)).getLast?, (after (y :: rest)).head?) := by
  -- One neighbour is the nearest node, and the other one is the turn, if there is one.
  unfold predAndSucc
  cases side : y.dir with
  | left =>
    cases found : findTurn .right rest with
    | none => simp [EDirection.flip, found, before, after, side,
        before_eq_nil (findTurn_none found)]
    | some parts =>
      obtain ⟨lower, turn, upper⟩ := parts
      obtain ⟨-, -, -, beforeRest⟩ := turn_right found turn.data.hole
      simp [EDirection.flip, found, before, after, side, beforeRest]
  | right =>
    cases found : findTurn .left rest with
    | none => simp [EDirection.flip, found, before, after, side, after_eq_nil (findTurn_none found)]
    | some parts =>
      obtain ⟨lower, turn, upper⟩ := parts
      obtain ⟨-, -, -, afterRest⟩ := turn_left found turn.data.hole
      simp [EDirection.flip, found, before, after, side, afterRest]

/-- A neighbour of a kind is there. -/
theorem any_of_mem {found : Option Hole} {hole : Hole} {kind : Hole → Bool} (member : hole ∈ found)
    (holds : kind hole = true) : found.any kind = true := by
  rw [Option.mem_def.mp member]
  exact holds

/-- No neighbour of a kind is there. -/
theorem any_of_none {found : Option Hole} {kind : Hole → Bool}
    (fails : ∀ hole ∈ found, kind hole = false) : found.any kind = false := by
  cases found with
  | none => rfl
  | some hole => exact fails hole rfl

/-- A hole that lies apart from the others is put into the tree and joined with those it touches. -/
theorem insert_ok {root : Tree} {path : Path} (valid : Valid alignment root)
    (descended : descend pair.offset root [] = some path) (same : plug .nil path = root)
    (room : Room (before path) (after path) pair) :
    ∃ tree, insert alignment root pair = some tree ∧ Valid alignment tree ∧
      Joined (before path) (after path) pair (inorder tree) := by
  rw [← same] at valid
  obtain ⟨tree, repaired, ok, holes⟩ := @insertFixup_new alignment pair path valid
  rw [insert, descended, bind_of_some]
  cases path with
  | nil =>
    refine ⟨tree, repaired, ok, ?_⟩
    rw [holes]
    exact Joined.alone (by simp [before]) (by simp [after])
  | cons y rest =>
    have asked := isNewNodeMergable_ok room.finite
      (fun hole member => room.early hole (List.mem_of_mem_getLast? member))
      (fun hole member => room.late hole (List.mem_of_mem_head? member))
    simp only [predAndSucc_eq, asked]
    -- Each of the two neighbours is touched or not.
    by_cases first : ∃ pred ∈ (before (y :: rest)).getLast?, pred.end = pair.offset
    · obtain ⟨pred, last, touches⟩ := first
      obtain ⟨others, splitEarly⟩ := List.getLast?_eq_some_iff.mp last
      have leftMerge : ((before (y :: rest)).getLast?.any fun hole =>
          decide (hole.end = pair.offset)) = true := any_of_mem last (decide_eq_true touches)
      by_cases second : ∃ succ ∈ (after (y :: rest)).head?, pair.end = succ.offset
      · obtain ⟨succ, head, meets⟩ := second
        obtain ⟨later, splitLate⟩ := List.head?_eq_some_iff.mp head
        have rightMerge : ((after (y :: rest)).head?.any fun hole =>
            decide (pair.end = hole.offset)) = true := any_of_mem head (decide_eq_true meets)
        simp only [leftMerge, rightMerge]
        exact absorbNewNode_both valid room splitEarly splitLate touches meets
      · have apart : ∀ hole ∈ (after (y :: rest)).head?, pair.end ≠ hole.offset :=
          fun hole member meets => second ⟨hole, member, meets⟩
        have rightMerge : ((after (y :: rest)).head?.any fun hole =>
            decide (pair.end = hole.offset)) = false :=
          any_of_none fun hole member => decide_eq_false (apart hole member)
        simp only [leftMerge, rightMerge]
        exact absorbNewNode_left valid room splitEarly touches apart
    · have apart : ∀ hole ∈ (before (y :: rest)).getLast?, hole.end ≠ pair.offset :=
        fun hole member touches => first ⟨hole, member, touches⟩
      have leftMerge : ((before (y :: rest)).getLast?.any fun hole =>
          decide (hole.end = pair.offset)) = false :=
        any_of_none fun hole member => decide_eq_false (apart hole member)
      by_cases second : ∃ succ ∈ (after (y :: rest)).head?, pair.end = succ.offset
      · obtain ⟨succ, head, meets⟩ := second
        obtain ⟨later, splitLate⟩ := List.head?_eq_some_iff.mp head
        have rightMerge : ((after (y :: rest)).head?.any fun hole =>
            decide (pair.end = hole.offset)) = true := any_of_mem head (decide_eq_true meets)
        simp only [leftMerge, rightMerge]
        exact absorbNewNode_right valid room splitLate meets apart
      · have apartAfter : ∀ hole ∈ (after (y :: rest)).head?, pair.end ≠ hole.offset :=
          fun hole member meets => second ⟨hole, member, meets⟩
        have rightMerge : ((after (y :: rest)).head?.any fun hole =>
            decide (pair.end = hole.offset)) = false :=
          any_of_none fun hole member => decide_eq_false (apartAfter hole member)
        simp only [leftMerge, rightMerge]
        refine ⟨tree, repaired, ok, ?_⟩
        rw [holes]
        exact Joined.alone apart apartAfter

end MhsRbTree

end Tokuft
