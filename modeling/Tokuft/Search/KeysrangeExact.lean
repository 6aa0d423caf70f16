import Tokuft.Search.Keysrange

/-! The counts of a range are exact in one basement node, and bounded by the estimate in a tree. -/

namespace Tokuft

/-- Subtraction is that of numbers where it does not wrap. -/
structure Subtraction.Exact (arith : Subtraction) : Prop where
  sub32 : ∀ {a b : Nat}, b ≤ a → a < 2 ^ 32 → arith.sub32 a b = some (a - b)
  sub64 : ∀ {a b : Nat}, b ≤ a → a < 2 ^ 64 → arith.sub64 a b = some (a - b)

/-- Subtraction that wraps is exact. -/
theorem Subtraction.wrapping_exact : Subtraction.wrapping.Exact where
  -- The modulus that is added goes away again.
  sub32 {a b} le small := by
    simp only [wrapping, Option.some.injEq]
    omega
  sub64 {a b} le small := by
    simp only [wrapping, Option.some.injEq]
    omega

/-- Subtraction that fails instead of wrapping is exact. -/
theorem Subtraction.checked_exact : Subtraction.checked.Exact where
  sub32 le _ := if_pos le
  sub64 le _ := if_pos le

variable {Key Entry : Type} [LinearOrder Key] {arith : Subtraction}

/-- How many entries lie before a key. -/
def countBelow (bn : List (Key × Entry)) (key : Key) : Nat :=
  bn.countP fun klpair => decide (klpair.1 < key)

/-- How many entries are those of a key. -/
def countAt (bn : List (Key × Entry)) (key : Key) : Nat :=
  bn.countP fun klpair => decide (klpair.1 = key)

/-- How many entries lie strictly between two keys, where an absent key is no bound. -/
def countBetween (bn : List (Key × Entry)) (left right : Option Key) : Nat :=
  bn.countP fun klpair => left.all (fun key => decide (key < klpair.1)) &&
    right.all fun key => decide (klpair.1 < key)

/-- The keys of a basement node increase, and its entries are counted in 32 bits. -/
def BnOrdered (bn : List (Key × Entry)) : Prop :=
  bn.Pairwise (fun a b => a.1 < b.1) ∧ bn.length < 2 ^ 32

variable {bn : List (Key × Entry)}

/-- The sign of a comparison tells the order. -/
theorem compareKeys_cases (a b : Key) :
    (a < b ∧ compareKeys a b = -1) ∨ (a = b ∧ compareKeys a b = 0) ∨
      (b < a ∧ compareKeys a b = 1) := by
  rcases lt_trichotomy a b with less | same | greater
  · exact .inl ⟨less, by simp [compareKeys, less]⟩
  · exact .inr (.inl ⟨same, by simp [compareKeys, same]⟩)
  · exact .inr (.inr ⟨greater, by simp [compareKeys, greater, greater.le]⟩)

/-- Along a basement node the comparison with a key does not fall. -/
theorem signsRise_keyrange (sorted : bn.Pairwise fun a b => a.1 < b.1) (key : Key) :
    SignsRise (keyrangeCompare key) bn := by
  refine sorted.imp fun {a b} less => ?_
  unfold keyrangeCompare
  -- Only a larger key could fall below the smaller one.
  rcases compareKeys_cases a.1 key with ⟨-, first⟩ | ⟨at_, first⟩ | ⟨above, first⟩ <;>
    rcases compareKeys_cases b.1 key with ⟨below, second⟩ | ⟨same, second⟩ | ⟨-, second⟩ <;>
    rw [first, second] <;> try decide
  · exact absurd (less.trans below) (by rw [at_]; exact lt_irrefl key)
  · exact absurd (less.trans below) (lt_asymm above)
  · rw [same] at less
    exact absurd less (lt_asymm above)

/-- Searching a basement node tells how many entries lie before the key and at it. -/
theorem linearZero_counts (sorted : bn.Pairwise fun a b => a.1 < b.1) (key : Key) :
    (linearZero (keyrangeCompare key) bn).2 = countBelow bn key ∧
      (if (linearZero (keyrangeCompare key) bn).1.isSome then 1 else 0) = countAt bn key := by
  -- The induction passes the entries before the key; those after the first other one are larger.
  induction bn with
  | nil => exact ⟨rfl, rfl⟩
  | cons first rest ih =>
    obtain ⟨later, sorted⟩ := List.pairwise_cons.mp sorted
    obtain ⟨below, at_⟩ := ih sorted
    simp only [linearZero, countBelow, countAt] at below at_ ⊢
    rcases compareKeys_cases first.1 key with ⟨less, sign⟩ | ⟨same, sign⟩ | ⟨greater, sign⟩
    · have sign : keyrangeCompare key first = -1 := sign
      have negative : ¬ (0 : Int) ≤ -1 := by decide
      simp only [List.findIdx_cons, sign, decide_eq_false negative, cond_false,
        List.getElem?_cons_succ, List.countP_cons, decide_eq_true less, if_true,
        decide_eq_false less.ne, Bool.false_eq_true, if_false, Nat.add_zero]
      exact ⟨congrArg (· + 1) below, at_⟩
    · have sign : keyrangeCompare key first = 0 := sign
      have none : rest.countP (fun klpair => decide (klpair.1 < key)) = 0 :=
        List.countP_eq_zero.mpr fun klpair member => by
          simpa [← same] using (later klpair member).le
      have other : rest.countP (fun klpair => decide (klpair.1 = key)) = 0 :=
        List.countP_eq_zero.mpr fun klpair member => by
          simpa [← same] using (later klpair member).ne'
      simp [List.findIdx_cons, sign, Option.filter, none, other, same]
    · have sign : keyrangeCompare key first = 1 := sign
      have none : rest.countP (fun klpair => decide (klpair.1 < key)) = 0 :=
        List.countP_eq_zero.mpr fun klpair member => by
          simpa using (greater.trans (later klpair member)).le
      have other : rest.countP (fun klpair => decide (klpair.1 = key)) = 0 :=
        List.countP_eq_zero.mpr fun klpair member => by
          simpa using (greater.trans (later klpair member)).ne'
      simp [List.findIdx_cons, sign, Option.filter, none, other, greater.le, greater.ne']

/-- Searching the array of a basement node tells how many entries lie before the key and at it. -/
theorem bnFindZero_eq (ordered : BnOrdered bn) (key : Key) :
    ∃ found, bnFindZero bn key = some (found, countBelow bn key) ∧
      (if found then 1 else 0) = countAt bn key := by
  have held : Held (fun i => bn[i]?) 0 bn := fun i _ => by rw [Nat.zero_add]
  obtain ⟨below, at_⟩ := linearZero_counts ordered.1 key
  refine ⟨(linearZero (keyrangeCompare key) bn).1.isSome, ?_, at_⟩
  rw [bnFindZero, findZeroArray_eq held (signsRise_keyrange ordered.1 key), ← below]
  rfl

/-- The entries before a key, at it, and behind it up to another key are those before that one. -/
theorem countBetween_add (bn : List (Key × Entry)) (left : Key) (right : Option Key)
    (le : ∀ key, right = some key → left ≤ key)
    (apart : right = some left → countAt bn left = 0) :
    countBelow bn left + countAt bn left + countBetween bn (some left) right =
      (right.map (countBelow bn)).getD bn.length := by
  cases right with
  | none =>
    -- Every entry is before the key, at it or behind it.
    simp only [Option.map_none, Option.getD_none]
    unfold countBelow countAt countBetween
    induction bn with
    | nil => rfl
    | cons first rest ih =>
      have ih := ih (fun impossible => by cases impossible)
      simp only [Option.all_some, Option.all_none, Bool.and_true] at ih
      rcases lt_trichotomy first.1 left with less | same | greater
      · simp [less, less.ne, not_lt_of_gt less] at ih ⊢
        omega
      · simp [same] at ih ⊢
        omega
      · simp [greater, greater.ne', not_lt_of_gt greater] at ih ⊢
        omega
  | some key =>
    simp only [Option.map_some, Option.getD_some]
    rcases (le key rfl).lt_or_eq with less | same
    · unfold countBelow countAt countBetween
      simp only [Option.all_some]
      clear le apart
      induction bn with
      | nil => rfl
      | cons first rest ih =>
        rcases lt_trichotomy first.1 left with before | here | behind
        · simp [before, before.ne, not_lt_of_gt before, before.trans less]
          omega
        · simp [here, less]
          omega
        · by_cases inside : first.1 < key
          · simp [behind, behind.ne', not_lt_of_gt behind, inside]
            omega
          · simp [behind.ne', not_lt_of_gt behind, inside]
            omega
    · -- With equal keys nothing lies between, and nothing is at them.
      subst same
      have none : countBetween bn (some left) (some left) = 0 :=
        List.countP_eq_zero.mpr fun klpair _ => by
          simpa using fun above => le_of_lt above
      rw [apart rfl, none]
      rfl

/-- The entries before a key and at it are no more than all. -/
theorem countBelow_add_countAt (bn : List (Key × Entry)) (key : Key) :
    countBelow bn key + countAt bn key ≤ bn.length := by
  have all := countBetween_add bn key none
    (fun _ impossible => by cases impossible) (fun impossible => by cases impossible)
  simp only [Option.map_none, Option.getD_none] at all
  omega

/-- Where a leftmost key lies in a basement node, and how many entries it has there. -/
def leftIdx (bn : List (Key × Entry)) (left : Option Key) : Nat := (left.map (countBelow bn)).getD 0

/-- How many entries of a basement node are those of a key. -/
def equalTo (bn : List (Key × Entry)) (key : Option Key) : Nat := (key.map (countAt bn)).getD 0

/-- Where a rightmost key lies in a basement node. -/
def rightIdx (bn : List (Key × Entry)) (right : Option Key) : Nat :=
  (right.map (countBelow bn)).getD bn.length

/-- A range has a right key only with a left one, which is no larger; and when the two are one key
there is no entry for it. -/
structure RangeKeys (bn : List (Key × Entry)) (left right : Option Key) : Prop where
  swapped : left ≠ none ∨ right = none
  le : ∀ l r, left = some l → right = some r → l ≤ r
  apart : ∀ key, left = some key → right = some key → countAt bn key = 0

variable {left right : Option Key}

/-- The entries at the left end and between the ends are those up to the right end. -/
theorem RangeKeys.between (keys : RangeKeys bn left right) :
    leftIdx bn left + equalTo bn left + countBetween bn left right = rightIdx bn right ∧
      rightIdx bn right + equalTo bn right ≤ bn.length := by
  constructor
  · cases left with
    | none =>
      -- Without a left key there is no right one, and all entries are between.
      have none : right = none := keys.swapped.resolve_left (by simp)
      subst none
      simp [leftIdx, equalTo, rightIdx, countBetween]
    | some key =>
      exact countBetween_add bn _ _ (fun r found => keys.le key r rfl found)
        fun same => keys.apart key rfl same
  · cases right with
    | none => simp [rightIdx, equalTo]
    | some key => exact countBelow_add_countAt bn key

/-- The keys of a tree increase along pivots and in basement nodes. -/
def KeysOrdered : (height : Nat) → FtNode Key Entry height → Prop
  | 0, leaf => leaf.pivotkeys.Pairwise (· < ·) ∧
      ∀ bn : List (Key × Entry), bn ∈ leaf.children → BnOrdered bn
  | height + 1, node => node.pivotkeys.Pairwise (· < ·) ∧
      ∀ child : FtNode Key Entry height, child ∈ node.children → KeysOrdered height child

/-- The basement node that a key belongs to, or the first one of all. -/
def keyBasement (key : Option Key) : (height : Nat) → FtNode Key Entry height → List (Key × Entry)
  | 0, leaf =>
    match leftChildNumber leaf key with
    | some i => (leafBasement leaf i).getD []
    | none => []
  | height + 1, node =>
    match (leftChildNumber node key).bind (nodeChild node) with
    | some child => keyBasement key height child
    | none => []

section Children

variable {Child : Type} {node : Partitioned Key Child}

/-- A node has the child of every key. -/
theorem leftChildNumber_eq (rise : node.pivotkeys.Pairwise (· < ·)) (key : Option Key) :
    ∃ i, leftChildNumber node key = some i ∧ i < node.children.length ∧
      (∀ k, key = some k → Belongs node.pivotkeys node.children.length k i) ∧
      (key = none → i = 0) := by
  -- The pivots rise, so that every key belongs to one child.
  have sized := node.sized
  cases key with
  | none => exact ⟨0, rfl, by omega, nofun, fun _ => rfl⟩
  | some k =>
    obtain ⟨i, belongs⟩ := exists_belongs (show 0 < node.children.length by omega)
      (by omega) rise k
    refine ⟨i, ftnodeWhichChild_eq rise (by omega) belongs, belongs.inside, ?_, nofun⟩
    intro k' same
    cases same
    exact belongs

/-- A node has the child of every key at the right end of a range. -/
theorem rightChildNumber_eq (rise : node.pivotkeys.Pairwise (· < ·)) (key : Option Key) :
    ∃ i, rightChildNumber node key = some i ∧ i < node.children.length ∧
      (∀ k, key = some k → Belongs node.pivotkeys node.children.length k i) ∧
      (key = none → i = node.children.length - 1) := by
  have sized := node.sized
  cases key with
  | none => exact ⟨_, rfl, by omega, nofun, fun _ => rfl⟩
  | some k =>
    obtain ⟨i, found, inside, belongs, -⟩ := leftChildNumber_eq rise (some k)
    exact ⟨i, found, inside, belongs, nofun⟩

/-- A larger key belongs to the same child or to a later one. -/
theorem Belongs.mono {pivotkeys : List Key} {n : Nat} (enough : n ≤ pivotkeys.length + 1)
    {left right : Key} {i j : Nat} (first : Belongs pivotkeys n left i)
    (second : Belongs pivotkeys n right j) (le : left ≤ right) : i ≤ j := by
  by_contra back
  -- The pivot behind the earlier child would separate the keys the wrong way.
  have inside := first.inside
  obtain ⟨pivot, found⟩ : ∃ pivot, pivotkeys[j]? = some pivot :=
    ⟨_, List.getElem?_eq_getElem (by omega)⟩
  have above := first.above j pivot (by omega) found
  have below := second.below pivot (by omega) found
  exact absurd (above.trans_le (le.trans below)) (lt_irrefl pivot)

/-- The ends of a range are in order among the children of a node. -/
theorem leftChildNumber_le {left right : Option Key} {i j : Nat}
    (le : ∀ l r, left = some l → right = some r → l ≤ r)
    (first : ∀ k, left = some k → Belongs node.pivotkeys node.children.length k i)
    (start : left = none → i = 0) (inside : i < node.children.length)
    (second : ∀ k, right = some k → Belongs node.pivotkeys node.children.length k j)
    (last : right = none → j = node.children.length - 1) : i ≤ j := by
  -- A child in front of another one has smaller keys only.
  cases left with
  | none =>
    rw [start rfl]
    exact Nat.zero_le j
  | some l =>
    cases right with
    | none =>
      rw [last rfl]
      omega
    | some r =>
      have sized := node.sized
      exact (first l rfl).mono (by omega) (second r rfl) (le l r rfl rfl)

end Children

/-- The entries of the basement node of a key are counted in 32 bits. -/
theorem keyBasement_length (key : Option Key) :
    ∀ (height : Nat) (node : FtNode Key Entry height), KeysOrdered height node →
      (keyBasement key height node).length < 2 ^ 32 := by
  -- By induction on the height.
  intro height
  induction height with
  | zero =>
    intro leaf ordered
    obtain ⟨i, first, inside, -⟩ := leftChildNumber_eq ordered.1 key
    obtain ⟨bn, here⟩ : ∃ bn, leafBasement leaf i = some bn :=
      ⟨_, List.getElem?_eq_getElem inside⟩
    simpa [keyBasement, first, here] using (ordered.2 bn (List.mem_of_getElem? here)).2
  | succ height ih =>
    intro node ordered
    obtain ⟨i, first, inside, -⟩ := leftChildNumber_eq ordered.1 key
    obtain ⟨child, here⟩ : ∃ child, nodeChild node i = some child :=
      ⟨_, List.getElem?_eq_getElem inside⟩
    simpa [keyBasement, first, here] using ih child (ordered.2 child (List.mem_of_getElem? here))

/-- What is known of the counts of one query, of which a part lies in a basement node. -/
structure RangeCounts (bn : List (Key × Entry)) (left right : Option Key) (estimate : Nat)
    (range : KeysRange) : Prop where
  total : range.total ≤ estimate + bn.length
  single : range.singleBasementNode = true → range.equalLeft = equalTo bn left ∧
    range.middle = countBetween bn left right ∧ range.equalRight = equalTo bn right
  divided : range.singleBasementNode = false → range.equalRight = 0 ∧ range.greater = 0
  unbounded : right = none → range.equalRight = 0 ∧ range.greater = 0
  leftmost : left = none → range.less = 0 ∧ range.equalLeft = 0

variable {i estimate rowsPerChild n : Nat} {range : KeysRange}

/-- Counting in a basement node is exact when both ends of the range are in it, and leaves the
rest of the node in the middle when not. -/
theorem keysrangeInBasement_eq (isExact : arith.Exact) (ordered : BnOrdered bn)
    (keys : RangeKeys bn left right) (single : Bool) :
    keysrangeInBasement arith bn left right single = some {
      less := leftIdx bn left
      equalLeft := equalTo bn left
      middle := (if single then rightIdx bn right else bn.length) - leftIdx bn left - equalTo bn left
      equalRight := if single then equalTo bn right else 0
      greater := if single then bn.length - rightIdx bn right - equalTo bn right else 0
      singleBasementNode := single } := by
  have size := ordered.2
  obtain ⟨between, inside⟩ := keys.between
  -- The left end, which is before everything when there is no key.
  obtain ⟨foundLeft, searchLeft, atLeft⟩ : ∃ found,
      leftEnd bn left = some (found, leftIdx bn left) ∧
        (if found then 1 else 0) = equalTo bn left := by
    cases left with
    | none => exact ⟨false, rfl, rfl⟩
    | some key => exact bnFindZero_eq ordered key
  -- The right end, which is behind everything when it is not looked for.
  obtain ⟨foundRight, searchRight, atRight⟩ : ∃ found,
      rightEnd bn single right =
          some (found, if single then rightIdx bn right else bn.length) ∧
        (if found then 1 else 0) = (if single then equalTo bn right else 0) := by
    cases single with
    | false => exact ⟨false, rfl, rfl⟩
    | true =>
      cases right with
      | none => exact ⟨false, rfl, rfl⟩
      | some key => exact bnFindZero_eq ordered key
  simp only [keysrangeInBasement, searchLeft, searchRight, bind_runs, atLeft, atRight]
  cases single with
  | false =>
    simp only [Bool.false_eq_true, if_false]
    rw [isExact.sub32 (by omega) size, isExact.sub32 (Nat.le_refl _) size, Option.bind_some,
      isExact.sub64 (by omega) (by omega), Option.bind_some, Option.bind_some,
      isExact.sub64 (by omega) (by omega)]
    simp
  | true =>
    simp only [if_true]
    rw [isExact.sub32 (by omega) (by omega), isExact.sub32 (by omega) size, Option.bind_some,
      isExact.sub64 (by omega) (by omega), Option.bind_some, Option.bind_some,
      isExact.sub64 (by omega) (by omega)]
    rfl

/-- Without a key there is no entry for it. -/
@[simp] theorem equalTo_none (bn : List (Key × Entry)) : equalTo bn none = 0 := rfl

/-- Counting in one partition of a leaf. -/
theorem keysrangeInLeafPartition_eq {leaf : FtNode Key Entry 0} (avail : Nat → Bool) (j : Nat)
    (here : leafBasement leaf i = some bn) (ordered : BnOrdered bn) (small : estimate < 2 ^ 64)
    (keys : RangeKeys bn left right) (before : i ≤ j) (readable : i = j → avail i = true) :
    ∃ range, (∀ arith : Subtraction, arith.Exact →
        keysrangeInLeafPartition arith leaf avail left right i j estimate = some range) ∧
      range.singleBasementNode = (i == j) ∧ RangeCounts bn left right estimate range := by
  have checked : (!(i == j) || avail i) = true := by
    by_cases same : i = j
    · simp [readable same]
    · simp [same]
  obtain ⟨between, inside⟩ := keys.between
  unfold keysrangeInLeafPartition
  simp only [invariant_of keys.swapped, invariant_of before, invariant_of checked, bind_runs]
  by_cases loaded : avail i = true
  · -- The counts are those of the basement node, whose entries are counted once each.
    refine ⟨_, fun arith isExact => by
      rw [if_pos loaded, here]
      exact keysrangeInBasement_eq isExact ordered keys (i == j), rfl, ?_⟩
    refine ⟨?_, fun single => ?_, fun divided => ?_, fun none => ?_, fun none => ?_⟩
    · unfold KeysRange.total
      cases single : i == j with
      | false =>
        simp only [Bool.false_eq_true, if_false]
        omega
      | true =>
        simp only [if_true]
        omega
    · have single : (i == j) = true := single
      simp only [single, if_true, true_and, and_true]
      omega
    · have divided : (i == j) = false := divided
      simp only [divided, Bool.false_eq_true, if_false, and_self]
    · subst none
      simp [rightIdx]
    · subst none
      exact ⟨rfl, rfl⟩
  · -- The guess divides the rows of the partition, of which none is looked at.
    have different : i ≠ j := fun same => loaded (readable same)
    have divided : (i == j) = false := by simp [different]
    have idx : (if left.isNone then 0 else estimate / 2 % 2 ^ 32) ≤ estimate := by
      split <;> omega
    have guess (arith : Subtraction) (isExact : arith.Exact) :
        keysrangeGuess arith left estimate = some {
        less := if left.isNone then 0 else estimate / 2 % 2 ^ 32
        equalLeft := 0
        middle := estimate - if left.isNone then 0 else estimate / 2 % 2 ^ 32
        equalRight := 0
        greater := 0
        singleBasementNode := false } := by
      simp only [keysrangeGuess, isExact.sub64 idx small, Option.bind_eq_bind, Option.bind_some]
      rfl
    refine ⟨_, fun arith isExact => by
      rw [if_neg loaded, invariant_of (by simp [divided])]
      exact guess arith isExact, divided.symm, ?_⟩
    refine ⟨?_, nofun, fun _ => ⟨rfl, rfl⟩, fun _ => ⟨rfl, rfl⟩, ?_⟩
    · unfold KeysRange.total
      simp only
      omega
    · intro none
      subst none
      exact ⟨rfl, rfl⟩

/-- Adding the rows of the other children keeps what is known of the counts. -/
theorem RangeCounts.addSiblings (counts : RangeCounts bn left right rowsPerChild range)
    (inside : i < n) (rows : rowsPerChild * n ≤ estimate) (start : left = none → i = 0)
    (last : right = none → range.singleBasementNode = true → i = n - 1) :
    RangeCounts bn left right estimate (range.addSiblings rowsPerChild i n) := by
  -- The children before, the child and the children behind are all children.
  have parts : rowsPerChild * i + rowsPerChild * (n - i - 1) + rowsPerChild = rowsPerChild * n := by
    rw [← Nat.mul_add, ← Nat.mul_succ]
    congr 1
    omega
  have total := counts.total
  unfold KeysRange.total at total
  unfold KeysRange.addSiblings
  cases single : range.singleBasementNode with
  | true =>
    simp only [if_true]
    refine ⟨?_, fun _ => counts.single single, fun divided => ?_, fun none => ?_, fun none => ?_⟩
    · unfold KeysRange.total
      simp only
      omega
    · cases divided
    · have behind : n - i - 1 = 0 := by
        have := last none single
        omega
      simpa [behind] using counts.unbounded none
    · simpa [start none] using counts.leftmost none
  | false =>
    simp only [Bool.false_eq_true, if_false]
    refine ⟨?_, fun impossible => ?_, fun _ => counts.divided single, counts.unbounded,
      fun none => ?_⟩
    · unfold KeysRange.total
      simp only
      omega
    · cases impossible
    · simpa [start none] using counts.leftmost none

/-- A leaf has the partition in memory that holds both ends of the range. -/
def Readable (left right : Option Key) (mayFindRight : Bool) :
    (height : Nat) → FtNode Key Entry height → (Nat → Bool) → Prop
  | 0, leaf, avail => mayFindRight = true → ∀ i, leftChildNumber leaf left = some i →
      rightChildNumber leaf right = some i → avail i = true
  | _ + 1, _, _ => True

variable {j : Nat}

/-- Pinning a node brings in the partition that holds both ends of the range. -/
theorem pinAvail_readable (pins : KeysrangePins) (left right : Option Key) (mayFindRight : Bool)
    (path : List Nat) (height : Nat) (node : FtNode Key Entry height) :
    Readable left right mayFindRight height node
      (pinAvail pins left right mayFindRight path height node) := by
  cases height with
  | zero =>
    intro may i first second
    simp [pinAvail, may, matchAvail, first, second]
  | succ height => trivial

/-- Counting below a leaf counts in the partition of the left key. -/
theorem keysrangeInternal_leaf (pins : KeysrangePins) {leaf : FtNode Key Entry 0}
    (first : leftChildNumber leaf left = some i) (second : rightChildNumber leaf right = some j)
    (avail : Nat → Bool) (mayFindRight : Bool) (path : List Nat) (estimate : Nat) :
    keysrangeInternal arith pins left right 0 leaf avail mayFindRight path estimate =
      (keysrangeInLeafPartition arith leaf avail left right i
        (if mayFindRight then j else leaf.children.length)
        (estimate / leaf.children.length)).map fun range =>
          some (range.addSiblings (estimate / leaf.children.length) i leaf.children.length) := by
  -- The right end is looked up only where it may be found.
  cases mayFindRight <;>
    simp [keysrangeInternal, first, second, Option.map_eq_bind]

/-- Counting below an internal node counts below the child of the left key. -/
theorem keysrangeInternal_child (pins : KeysrangePins) {height : Nat}
    {node : FtNode Key Entry (height + 1)} {child : FtNode Key Entry height}
    (first : leftChildNumber node left = some i) (second : rightChildNumber node right = some j)
    (here : nodeChild node i = some child) (avail : Nat → Bool) (mayFindRight : Bool)
    (path : List Nat) (estimate : Nat) :
    keysrangeInternal arith pins left right (height + 1) node avail mayFindRight path estimate =
      if pins.tryAgain (path ++ [i]) then some none
      else (keysrangeInternal arith pins left right height child
        (pinAvail pins left right (mayFindRight && i == j) (path ++ [i]) height child)
        (mayFindRight && i == j) (path ++ [i]) (estimate / node.children.length)).map
          (Option.map fun range =>
            range.addSiblings (estimate / node.children.length) i node.children.length) := by
  cases mayFindRight with
  | false =>
    simp only [keysrangeInternal, first, here, Bool.false_eq_true, if_false, Bool.false_and,
      bind_runs]
    split
    · rfl
    · -- What comes back from the child goes on with the rows of the others.
      rcases keysrangeInternal arith pins left right height child _ _ _ _ with _ | _ | range <;> rfl
  | true =>
    simp only [keysrangeInternal, first, second, here, if_true, Bool.true_and, bind_runs]
    split
    · rfl
    · rcases keysrangeInternal arith pins left right height child _ _ _ _ with _ | _ | range <;> rfl

/-- Adding the rows of other children leaves a range what it is. -/
@[simp] theorem KeysRange.addSiblings_single (range : KeysRange) (rowsPerChild i n : Nat) :
    (range.addSiblings rowsPerChild i n).singleBasementNode = range.singleBasementNode := by
  unfold KeysRange.addSiblings
  split <;> rfl

/-- Counting below a node ends with counts of the basement node of the left key, unless some pin
is refused. -/
theorem keysrangeInternal_counts (pins : KeysrangePins) :
    ∀ (height : Nat) (node : FtNode Key Entry height) (avail : Nat → Bool) (mayFindRight : Bool)
      (path : List Nat) (estimate : Nat), KeysOrdered height node → estimate < 2 ^ 64 →
      RangeKeys (keyBasement left height node) left right →
      Readable left right mayFindRight height node avail →
      ((∃ path, pins.tryAgain path = true) ∧ ∀ arith : Subtraction, arith.Exact →
        keysrangeInternal arith pins left right height node avail mayFindRight path estimate =
          some none) ∨
      ∃ range, (∀ arith : Subtraction, arith.Exact →
          keysrangeInternal arith pins left right height node avail mayFindRight path estimate =
            some (some range)) ∧
        RangeCounts (keyBasement left height node) left right estimate range ∧
        (range.singleBasementNode = true → mayFindRight = true) := by
  intro height
  induction height with
  | zero =>
    intro leaf avail mayFindRight path estimate ordered small keys readable
    obtain ⟨i, first, inside, belongs, start⟩ := leftChildNumber_eq ordered.1 left
    obtain ⟨j, second, within, belongsRight, last⟩ := rightChildNumber_eq ordered.1 right
    obtain ⟨bn, here⟩ : ∃ bn, leafBasement leaf i = some bn :=
      ⟨_, List.getElem?_eq_getElem inside⟩
    have basement : keyBasement left 0 leaf = bn := by simp [keyBasement, first, here]
    have bnOrdered : BnOrdered bn := ordered.2 bn (List.mem_of_getElem? here)
    have le : i ≤ j := leftChildNumber_le keys.le belongs start inside belongsRight last
    rw [basement] at keys ⊢
    have few : estimate / leaf.children.length < 2 ^ 64 :=
      Nat.lt_of_le_of_lt (Nat.div_le_self _ _) small
    -- The number of children stands for the right end where it is not looked for.
    obtain ⟨range, counted, single, counts⟩ := keysrangeInLeafPartition_eq avail
      (if mayFindRight then j else leaf.children.length) here bnOrdered few keys
      (by split <;> omega) (by
        intro same
        cases mayFindRight with
        | false => exact absurd same (by simp; omega)
        | true =>
          have same : i = j := same
          exact readable rfl i first (same ▸ second))
    have found : range.singleBasementNode = true → mayFindRight = true ∧ i = j := by
      intro isSingle
      rw [isSingle] at single
      have same := beq_iff_eq.mp single.symm
      cases mayFindRight with
      | false => exact absurd same (by simp; omega)
      | true => exact ⟨rfl, same⟩
    refine .inr ⟨range.addSiblings (estimate / leaf.children.length) i leaf.children.length,
      ?_, ?_, ?_⟩
    · intro arith isExact
      rw [keysrangeInternal_leaf pins first second, counted arith isExact]
      rfl
    · exact counts.addSiblings inside (Nat.div_mul_le_self _ _) start
        fun none isSingle => (found isSingle).2.trans (last none)
    · intro isSingle
      exact (found (by simpa using isSingle)).1
  | succ height ih =>
    intro node avail mayFindRight path estimate ordered small keys readable
    obtain ⟨i, first, inside, belongs, start⟩ := leftChildNumber_eq ordered.1 left
    obtain ⟨j, second, within, belongsRight, last⟩ := rightChildNumber_eq ordered.1 right
    obtain ⟨child, here⟩ : ∃ child, nodeChild node i = some child :=
      ⟨_, List.getElem?_eq_getElem inside⟩
    have basement : keyBasement left (height + 1) node = keyBasement left height child := by
      simp [keyBasement, first, here]
    rw [basement] at keys ⊢
    have few : estimate / node.children.length < 2 ^ 64 :=
      Nat.lt_of_le_of_lt (Nat.div_le_self _ _) small
    simp only [keysrangeInternal_child pins first second here]
    by_cases refused : pins.tryAgain (path ++ [i]) = true
    · exact .inl ⟨⟨_, refused⟩, fun _ _ => if_pos refused⟩
    simp only [if_neg refused]
    -- The rest of the way goes below the child.
    rcases ih child _ (mayFindRight && i == j) (path ++ [i]) (estimate / node.children.length)
      (ordered.2 child (List.mem_of_getElem? here)) few keys
      (pinAvail_readable pins left right _ _ height child) with
      ⟨refused, again⟩ | ⟨range, counted, counts, found⟩
    · refine .inl ⟨refused, fun arith isExact => ?_⟩
      rw [again arith isExact]
      rfl
    · have both : range.singleBasementNode = true → mayFindRight = true ∧ i = j := by
        intro isSingle
        simpa using found isSingle
      refine .inr ⟨range.addSiblings (estimate / node.children.length) i node.children.length,
        ?_, ?_, ?_⟩
      · intro arith isExact
        rw [counted arith isExact]
        rfl
      · exact counts.addSiblings inside (Nat.div_mul_le_self _ _) start
          fun none isSingle => (both isSingle).2.trans (last none)
      · intro isSingle
        exact (both (by simpa using isSingle)).1

/-- What is known of the counts below a node when no pin is refused. -/
theorem RangeCounts.of_internal {pins : KeysrangePins} {height : Nat}
    {node : FtNode Key Entry height} {avail : Nat → Bool} {mayFindRight : Bool} {path : List Nat}
    (isExact : arith.Exact) (ordered : KeysOrdered height node) (small : estimate < 2 ^ 64)
    (keys : RangeKeys (keyBasement left height node) left right)
    (readable : Readable left right mayFindRight height node avail)
    (counted : keysrangeInternal arith pins left right height node avail mayFindRight path estimate =
      some (some range)) :
    RangeCounts (keyBasement left height node) left right estimate range ∧
      (range.singleBasementNode = true → mayFindRight = true) := by
  -- A refused pin would leave no counts.
  rcases keysrangeInternal_counts pins height node avail mayFindRight path estimate ordered small
    keys readable with ⟨-, again⟩ | ⟨_, same, counts⟩
  · rw [again arith isExact] at counted
    cases counted
  · rw [same arith isExact] at counted
    cases counted
    exact counts

/-- A key alone is the left end of a range. -/
theorem RangeKeys.alone (bn : List (Key × Entry)) (key : Key) : RangeKeys bn (some key) none :=
  ⟨.inr rfl, nofun, nofun⟩

/-- Where the right end is not looked for, nothing has to be in memory. -/
theorem Readable.unbounded (left right : Option Key) (height : Nat)
    (node : FtNode Key Entry height) (avail : Nat → Bool) :
    Readable left right false height node avail := by
  cases height with
  | zero => exact nofun
  | succ height => trivial

/-- In two children of a node, the rows up to the left key and from the right key on are different
rows. -/
theorem KeysRange.addSiblings_apart {other : KeysRange} {a b : Nat}
    (first : range.total ≤ rowsPerChild + a) (second : other.total ≤ rowsPerChild + b)
    (before : i < j) (inside : j < n) :
    (range.addSiblings rowsPerChild i n).less + (range.addSiblings rowsPerChild i n).equalLeft +
        ((other.addSiblings rowsPerChild j n).equalLeft +
          (other.addSiblings rowsPerChild j n).middle) ≤ rowsPerChild * n + a + b := by
  -- The children up to the left one and from the right one on are no more than all children.
  have rows : rowsPerChild * i + rowsPerChild + (rowsPerChild * (n - j - 1) + rowsPerChild) ≤
      rowsPerChild * n := by
    rw [← Nat.mul_succ, ← Nat.mul_succ, ← Nat.mul_add]
    exact Nat.mul_le_mul_left _ (by omega)
  unfold KeysRange.total at first second
  unfold KeysRange.addSiblings
  split <;> split <;> simp only <;> omega

/-- In one child of a node, the rows of the other children lie before or behind. -/
theorem KeysRange.addSiblings_same {other : KeysRange} {a b : Nat}
    (below : range.less + range.equalLeft + (other.equalLeft + other.middle) ≤ rowsPerChild + a + b)
    (inside : i < n) :
    (range.addSiblings rowsPerChild i n).less + (range.addSiblings rowsPerChild i n).equalLeft +
        ((other.addSiblings rowsPerChild i n).equalLeft +
          (other.addSiblings rowsPerChild i n).middle) ≤ rowsPerChild * n + a + b := by
  -- The siblings in front, behind and the child itself are all children of the node.
  have rows : rowsPerChild * i + (rowsPerChild * (n - i - 1) + rowsPerChild) =
      rowsPerChild * n := by
    rw [← Nat.mul_succ, ← Nat.mul_add]
    congr 1
    omega
  unfold KeysRange.addSiblings
  split <;> split <;> simp only <;> omega

/-- The counts below a node are those below a child, with the rows of its other children. -/
theorem KeysRange.of_child {refused : Bool} {result : Option (Option KeysRange)}
    {add : KeysRange → KeysRange}
    (counted : (if refused then some none else result.map (Option.map add)) = some (some range)) :
    ∃ part, result = some (some part) ∧ range = add part := by
  cases refused with
  | true => cases counted
  | false =>
    rcases result with _ | _ | part
    · cases counted
    · cases counted
    · cases counted
      exact ⟨part, rfl, rfl⟩

/-- What the counts before and at the left key and those at and behind the right key come to when
the two keys are not in one basement node. -/
theorem keysrangeInternal_pair (isExact : arith.Exact) (pins others : KeysrangePins) {right : Key} :
    ∀ (height : Nat) (node : FtNode Key Entry height) (avail avail' : Nat → Bool)
      (path path' : List Nat) (estimate : Nat) (range other : KeysRange),
      KeysOrdered height node → estimate < 2 ^ 64 →
      RangeKeys (keyBasement left height node) left (some right) →
      Readable left (some right) true height node avail →
      keysrangeInternal arith pins left (some right) height node avail true path estimate =
        some (some range) → range.singleBasementNode = false →
      keysrangeInternal arith others (some right) none height node avail' false path' estimate =
        some (some other) →
      range.less + range.equalLeft + (other.equalLeft + other.middle) ≤
        estimate + (keyBasement left height node).length +
          (keyBasement (some right) height node).length := by
  -- The induction goes down as long as both keys are below one child.
  intro height
  induction height with
  | zero =>
    intro leaf avail avail' path path' estimate range other ordered small keys readable counted
      divided otherCounted
    obtain ⟨i, first, inside, belongs, start⟩ := leftChildNumber_eq ordered.1 left
    obtain ⟨j, second, within, belongsRight, -⟩ := rightChildNumber_eq ordered.1 (some right)
    obtain ⟨last, third, behind, -, atEnd⟩ := rightChildNumber_eq ordered.1 (none : Option Key)
    obtain ⟨bn, here⟩ : ∃ bn, leafBasement leaf i = some bn :=
      ⟨_, List.getElem?_eq_getElem inside⟩
    obtain ⟨bn', there⟩ : ∃ bn, leafBasement leaf j = some bn :=
      ⟨_, List.getElem?_eq_getElem within⟩
    have basement : keyBasement left 0 leaf = bn := by simp [keyBasement, first, here]
    have fourth : leftChildNumber leaf (some right) = some j := second
    have basement' : keyBasement (some right) 0 leaf = bn' := by
      simp [keyBasement, fourth, there]
    have few : estimate / leaf.children.length < 2 ^ 64 :=
      Nat.lt_of_le_of_lt (Nat.div_le_self _ _) small
    have le : i ≤ j :=
      leftChildNumber_le keys.le belongs start inside belongsRight (by nofun)
    rw [basement] at keys ⊢
    rw [basement']
    obtain ⟨found, part, single, counts⟩ := keysrangeInLeafPartition_eq avail j
      here (ordered.2 bn (List.mem_of_getElem? here)) few keys le
      fun same => readable rfl i first (same ▸ second)
    obtain ⟨found', part', -, counts'⟩ := keysrangeInLeafPartition_eq avail'
      leaf.children.length there (ordered.2 bn' (List.mem_of_getElem? there)) few
      (RangeKeys.alone bn' right) (by omega) (by omega)
    rw [keysrangeInternal_leaf pins first second, if_pos rfl, part arith isExact] at counted
    rw [keysrangeInternal_leaf others fourth third, if_neg (by simp),
      part' arith isExact] at otherCounted
    cases counted
    cases otherCounted
    have different : i ≠ j := by
      rw [KeysRange.addSiblings_single, single] at divided
      simpa using divided
    have apart := KeysRange.addSiblings_apart counts.total counts'.total
      (Nat.lt_of_le_of_ne le different) within
    have rows := Nat.div_mul_le_self estimate leaf.children.length
    omega
  | succ height ih =>
    intro node avail avail' path path' estimate range other ordered small keys readable counted
      divided otherCounted
    obtain ⟨i, first, inside, belongs, start⟩ := leftChildNumber_eq ordered.1 left
    obtain ⟨j, second, within, belongsRight, -⟩ := rightChildNumber_eq ordered.1 (some right)
    obtain ⟨last, third, behind, -, atEnd⟩ := rightChildNumber_eq ordered.1 (none : Option Key)
    obtain ⟨child, here⟩ : ∃ child, nodeChild node i = some child :=
      ⟨_, List.getElem?_eq_getElem inside⟩
    obtain ⟨child', there⟩ : ∃ child, nodeChild node j = some child :=
      ⟨_, List.getElem?_eq_getElem within⟩
    have basement : keyBasement left (height + 1) node = keyBasement left height child := by
      simp [keyBasement, first, here]
    have fourth : leftChildNumber node (some right) = some j := second
    have basement' : keyBasement (some right) (height + 1) node =
        keyBasement (some right) height child' := by simp [keyBasement, fourth, there]
    have few : estimate / node.children.length < 2 ^ 64 :=
      Nat.lt_of_le_of_lt (Nat.div_le_self _ _) small
    have le : i ≤ j :=
      leftChildNumber_le keys.le belongs start inside belongsRight (by nofun)
    have rows := Nat.div_mul_le_self estimate node.children.length
    have below := ordered.2 child (List.mem_of_getElem? here)
    have below' := ordered.2 child' (List.mem_of_getElem? there)
    rw [basement] at keys ⊢
    rw [basement']
    rw [keysrangeInternal_child pins first second here] at counted
    rw [keysrangeInternal_child others fourth third there] at otherCounted
    obtain ⟨part, partCounted, rfl⟩ := KeysRange.of_child counted
    obtain ⟨part', partCounted', rfl⟩ := KeysRange.of_child otherCounted
    rw [KeysRange.addSiblings_single] at divided
    rcases Nat.eq_or_lt_of_le le with same | before
    · subst same
      cases here.symm.trans there
      have together := ih child _ _ _ _ _ part part' below few keys
        (pinAvail_readable pins left (some right) true _ height child) (by simpa using partCounted)
        divided (by simpa using partCounted')
      have sum := KeysRange.addSiblings_same together inside
      omega
    · have counts := (RangeCounts.of_internal isExact below few keys
        (pinAvail_readable pins left (some right) _ _ height child) partCounted).1
      have counts' := (RangeCounts.of_internal isExact below' few (RangeKeys.alone _ right)
        (pinAvail_readable others (some right) none _ _ height child') partCounted').1
      have apart := KeysRange.addSiblings_apart counts.total counts'.total before within
      omega

end Tokuft
