import Tokuft.Search.KeysrangeExact

/-! A query for a range is answered within its estimate, and exactly where it says so. -/

namespace Tokuft

variable {Key Entry : Type} [LinearOrder Key]

/-- The number of entries of the basement node of the right key, where it has its own. -/
def rightBasement {height : Nat} (root : FtNode Key Entry height) (right : Option Key) : Nat :=
  (right.map fun key => (keyBasement (some key) height root).length).getD 0

/-- What an answer promises of the tree that it was counted in. -/
structure RangeOk (attempt : KeysrangeAttempt Key Entry) (left right : Option Key)
    (range : KeysRange) : Prop where
  total : range.total ≤ attempt.numrows +
    (keyBasement left attempt.height attempt.root).length +
      if range.singleBasementNode then 0 else rightBasement attempt.root right
  exactly : range.singleBasementNode = true →
    range.equalLeft = equalTo (keyBasement left attempt.height attempt.root) left ∧
    range.middle = countBetween (keyBasement left attempt.height attempt.root) left right ∧
    range.equalRight = equalTo (keyBasement left attempt.height attempt.root) right

namespace KeysrangeAttempt

/-- A tree that a query can meet. -/
structure Possible (attempt : KeysrangeAttempt Key Entry) : Prop where
  ordered : KeysOrdered attempt.height attempt.root
  few : attempt.inMemoryLogicalRows < 2 ^ 63

/-- Some node of the tree would have to be waited for. -/
def Refuses (attempt : KeysrangeAttempt Key Entry) : Prop :=
  (∃ path, attempt.first.tryAgain path = true) ∨ ∃ path, attempt.second.tryAgain path = true

/-- The count of rows that is started from is one of 63 bits. -/
theorem Possible.numrows_lt {attempt : KeysrangeAttempt Key Entry} (possible : attempt.Possible) :
    attempt.numrows < 2 ^ 63 := by
  have few := possible.few
  unfold numrows
  omega

/-- What both parts counted from the right key on is taken out of the middle, as far as it goes. -/
theorem combine_eq {arith : Subtraction} (isExact : arith.Exact) {range other : KeysRange}
    (small : range.middle < 2 ^ 64) :
    combine arith range other = some { range with
      middle := range.middle - (other.equalLeft + other.middle)
      equalRight := other.equalLeft
      greater := other.middle } := by
  unfold combine
  split
  case isTrue le =>
    rw [isExact.sub64 le small]
    rfl
  case isFalse more =>
    -- Nothing is left of the middle.
    have none : range.middle - (other.equalLeft + other.middle) = 0 := by omega
    rw [none]
    rfl

/-- One try of a query is answered, unless some node would have to be waited for. -/
theorem run_counts (attempt : KeysrangeAttempt Key Entry) (possible : attempt.Possible)
    {left right : Option Key}
    (keys : RangeKeys (keyBasement left attempt.height attempt.root) left right) :
    (attempt.Refuses ∧ ∀ arith : Subtraction, arith.Exact →
      attempt.run arith left right = some none) ∨
    ∃ range, (∀ arith : Subtraction, arith.Exact →
        attempt.run arith left right = some (some range)) ∧ RangeOk attempt left right range ∧
      (right = none → range.equalRight = 0 ∧ range.greater = 0) := by
  have rows := possible.numrows_lt
  have readable := pinAvail_readable attempt.first left right true [] attempt.height attempt.root
  -- The first part counts from the left key.
  rcases keysrangeInternal_counts attempt.first attempt.height attempt.root _ true []
    attempt.numrows possible.ordered (by omega) keys readable with
    ⟨refused, again⟩ | ⟨range, counted, counts, -⟩
  · refine .inl ⟨.inl refused, fun arith isExact => ?_⟩
    simp only [run, again arith isExact, bind_runs]
  have total := counts.total
  by_cases more : (!range.singleBasementNode && right.isSome) = true
  case neg =>
    have bound : right ≠ none ∨ (range.equalRight = 0 ∧ range.greater = 0) := by
      cases right with
      | none => exact .inr (counts.unbounded rfl)
      | some key => exact .inl (by simp)
    have start : left ≠ none ∨ (range.less = 0 ∧ range.equalLeft = 0) := by
      cases left with
      | none => exact .inr (counts.leftmost rfl)
      | some key => exact .inl (by simp)
    refine .inr ⟨range, fun arith isExact => ?_, ⟨?_, counts.single⟩, counts.unbounded⟩
    · simp only [run, counted arith isExact, bind_runs, if_neg more, invariant_of bound,
        invariant_of start]
    · omega
  case pos =>
    obtain ⟨divided, bounded⟩ : range.singleBasementNode = false ∧ right.isSome = true := by
      simpa using more
    obtain ⟨key, rfl⟩ := Option.isSome_iff_exists.mp bounded
    obtain ⟨noRight, noGreater⟩ := counts.divided divided
    -- The second part counts from the right key.
    rcases keysrangeInternal_counts attempt.second attempt.height attempt.root
      (pinAvail attempt.first left (some key) true [] attempt.height attempt.root) false []
      attempt.numrows possible.ordered (by omega) (RangeKeys.alone _ key)
      (Readable.unbounded _ _ _ _ _) with
      ⟨refused, again⟩ | ⟨other, otherCounted, otherCounts, -⟩
    · refine .inl ⟨.inr refused, fun arith isExact => ?_⟩
      simp only [run, counted arith isExact, again arith isExact, bind_runs, if_pos more,
        invariant_of noRight, invariant_of noGreater]
    obtain ⟨otherRight, otherGreater⟩ := otherCounts.unbounded rfl
    have pair := keysrangeInternal_pair Subtraction.checked_exact attempt.first attempt.second
      attempt.height attempt.root _ _ [] [] attempt.numrows range other possible.ordered
      (by omega) keys readable (counted _ Subtraction.checked_exact) divided
      (otherCounted _ Subtraction.checked_exact)
    have length := keyBasement_length left attempt.height attempt.root possible.ordered
    unfold KeysRange.total at total
    refine .inr ⟨{ range with
        middle := range.middle - (other.equalLeft + other.middle)
        equalRight := other.equalLeft
        greater := other.middle }, fun arith isExact => ?_, ⟨?_, fun single => ?_⟩,
      fun wrong => by cases wrong⟩
    · simp only [run, counted arith isExact, otherCounted arith isExact, bind_runs, if_pos more,
        invariant_of noRight, invariant_of noGreater, invariant_of otherRight,
        invariant_of otherGreater, combine_eq isExact (show range.middle < 2 ^ 64 by omega)]
    · unfold KeysRange.total
      simp only [divided, rightBasement, Option.map_some, Option.getD_some, Bool.false_eq_true,
        if_false]
      omega
    · simp [divided] at single

end KeysrangeAttempt

/-- A query is answered by its first try that is not refused. -/
theorem keysrangeFrom_counts (left right : Option Key) :
    ∀ attempts : List (KeysrangeAttempt Key Entry),
      (∀ attempt ∈ attempts, attempt.Possible ∧
        RangeKeys (keyBasement left attempt.height attempt.root) left right) →
      ∃ result, (∀ arith : Subtraction, arith.Exact →
          keysrangeFrom arith left right attempts = some result) ∧
        (result = none → ∀ attempt ∈ attempts, attempt.Refuses) ∧
        ∀ range, result = some range →
          (∃ attempt ∈ attempts, RangeOk attempt left right range) ∧
          (right = none → range.equalRight = 0 ∧ range.greater = 0) := by
  intro attempts
  induction attempts with
  | nil => exact fun _ => ⟨none, fun _ _ => rfl, fun _ => nofun, nofun⟩
  | cons attempt attempts ih =>
    intro all
    obtain ⟨⟨possible, keys⟩, later⟩ := List.forall_mem_cons.mp all
    rcases attempt.run_counts possible keys with ⟨refused, again⟩ | ⟨range, counted, ok, bound⟩
    · -- A refused try leaves the query to the others.
      obtain ⟨result, answered, refuse, promised⟩ := ih later
      refine ⟨result, fun arith isExact => ?_, fun none => ?_, fun range found => ?_⟩
      · simp only [keysrangeFrom, again arith isExact, bind_runs]
        exact answered arith isExact
      · exact List.forall_mem_cons.mpr ⟨refused, refuse none⟩
      · obtain ⟨⟨one, member, ok⟩, bound⟩ := promised range found
        exact ⟨⟨one, List.mem_cons_of_mem _ member, ok⟩, bound⟩
    · refine ⟨some range, fun arith isExact => ?_, nofun, fun _ same => ?_⟩
      · simp only [keysrangeFrom, counted arith isExact, bind_runs]
      · cases same
        exact ⟨⟨attempt, List.mem_cons_self, ok⟩, bound⟩

/-- The right key alone is looked for as a left one, and what lies before it is the middle. -/
theorem keysrange_swapped (attempts : List (KeysrangeAttempt Key Entry)) (right : Key)
    (possible : ∀ attempt ∈ attempts, attempt.Possible) :
    ∃ result, (∀ arith : Subtraction, arith.Exact →
        keysrange arith attempts none (some right) = some result) ∧
      (result = none → ∀ attempt ∈ attempts, attempt.Refuses) ∧
      ∀ range, result = some range → ∃ attempt ∈ attempts, range.total ≤
        attempt.numrows + (keyBasement (some right) attempt.height attempt.root).length := by
  -- The tries are made until one is not refused.
  obtain ⟨result, answered, refuse, promised⟩ := keysrangeFrom_counts (some right) none
    attempts fun attempt member =>
      ⟨possible attempt member, RangeKeys.alone _ right⟩
  cases result with
  | none =>
    refine ⟨none, fun arith isExact => ?_, refuse, fun _ wrong => by cases wrong⟩
    simp only [keysrange, answered arith isExact, bind_runs]
  | some range =>
    obtain ⟨⟨attempt, member, ok⟩, bound⟩ := promised range rfl
    obtain ⟨noRight, noGreater⟩ := bound rfl
    refine ⟨some { range with
        less := 0, equalLeft := 0, middle := range.less, equalRight := range.equalLeft,
        greater := range.middle }, fun arith isExact => ?_,
      (fun wrong => by cases wrong), fun _ same => ?_⟩
    · simp only [keysrange, answered arith isExact, bind_runs, invariant_of noRight,
        invariant_of noGreater]
    · cases same
      refine ⟨attempt, member, ?_⟩
      have total := ok.total
      have none : rightBasement attempt.root (none : Option Key) = 0 := rfl
      rw [none, ite_self] at total
      unfold KeysRange.total at total ⊢
      simp only
      omega

/-- A tree of two leaves, the first of which has to be waited for. -/
def waitedLeaves : KeysrangeAttempt Nat Unit where
  height := 1
  root := ⟨[4], [⟨[2], [[(1, ()), (2, ())], [(3, ()), (4, ())]], rfl⟩,
    ⟨[6], [[(5, ()), (6, ())], [(7, ())]], rfl⟩], rfl⟩
  inMemoryLogicalRows := 8
  first := ⟨fun path => path == [0], fun _ _ => true⟩
  second := ⟨fun _ => false, fun _ _ => true⟩

/-- The same tree when its first leaf is in memory. -/
def pinnedLeaves : KeysrangeAttempt Nat Unit :=
  { waitedLeaves with first := ⟨fun _ => false, fun _ _ => true⟩ }

/-- The keys of the two leaves increase. -/
theorem waitedLeaves_ordered : KeysOrdered 1 waitedLeaves.root := by
  refine ⟨List.pairwise_singleton _ _, fun child member => ?_⟩
  -- Each leaf has one pivot, between its two basement nodes.
  rcases List.mem_cons.mp member with rfl | member
  case' inr => rw [List.mem_singleton.mp member]
  all_goals
    refine ⟨List.pairwise_singleton _ _, fun bn member => ?_⟩
    rcases List.mem_cons.mp member with rfl | member
    case' inr => rw [List.mem_singleton.mp member]
    all_goals exact ⟨by decide, by decide⟩

/-- A query for the keys up to three waits for a leaf once, and then counts. -/
theorem keysrange_swapped_waited :
    keysrange .wrapping [waitedLeaves] none (some 3) = some none ∧
      ∃ range, keysrange .wrapping [waitedLeaves, pinnedLeaves] none (some 3) =
        some (some range) ∧ range.total ≤ 10 := by
  obtain ⟨result, answered, refused, promised⟩ := keysrange_swapped [waitedLeaves, pinnedLeaves] 3
    (by
      intro attempt member
      rcases List.mem_cons.mp member with rfl | member
      case' inr => rw [List.mem_singleton.mp member]
      all_goals exact ⟨waitedLeaves_ordered, by decide⟩)
  refine ⟨rfl, ?_⟩
  cases result with
  | none =>
    rcases refused rfl pinnedLeaves (by simp) with ⟨_, never⟩ | ⟨_, never⟩ <;> cases never
  | some range =>
    obtain ⟨attempt, member, total⟩ := promised range rfl
    refine ⟨range, answered _ Subtraction.wrapping_exact, ?_⟩
    rcases List.mem_cons.mp member with rfl | member
    case' inr => rw [List.mem_singleton.mp member] at total
    all_goals exact total

/-- A query for the keys between two keys ends without a failed assertion and without a subtraction
that wraps, unless all its tries are refused. Its counts come to no more than the estimate and the
entries of the basement nodes of the two keys, and in a single one they are exact at the keys and
between them. -/
theorem keysrange_ok (attempts : List (KeysrangeAttempt Key Entry)) (left : Key)
    (right : Option Key) (le : ∀ key, right = some key → left ≤ key)
    (possible : ∀ attempt ∈ attempts, attempt.Possible)
    (apart : right = some left → ∀ attempt ∈ attempts,
      countAt (keyBasement (some left) attempt.height attempt.root) left = 0) :
    ∃ result, keysrange .wrapping attempts (some left) right = some result ∧
      keysrange .checked attempts (some left) right = some result ∧
      (result = none → ∀ attempt ∈ attempts, attempt.Refuses) ∧
      ∀ range, result = some range →
        ∃ attempt ∈ attempts, RangeOk attempt (some left) right range := by
  -- Both keys belong to children of the node.
  have keys : ∀ attempt ∈ attempts, attempt.Possible ∧
      RangeKeys (keyBasement (some left) attempt.height attempt.root) (some left) right := by
    intro attempt member
    refine ⟨possible attempt member, .inl (by simp), ?_, ?_⟩
    · intro l r same found
      cases same
      exact le r found
    · intro key same found
      cases same
      exact apart found attempt member
  obtain ⟨result, answered, refuse, promised⟩ := keysrangeFrom_counts _ _ attempts keys
  exact ⟨result, answered _ Subtraction.wrapping_exact, answered _ Subtraction.checked_exact,
    refuse, fun range found => (promised range found).1⟩

/-- A leaf with a basement node for the keys up to two and one for the others. -/
def twoBasements : KeysrangeAttempt Nat Unit where
  height := 0
  root := ⟨[2], [[(1, ())], [(5, ())]], rfl⟩
  inMemoryLogicalRows := 0
  first := ⟨fun _ => false, fun _ _ => true⟩
  second := ⟨fun _ => false, fun _ _ => true⟩

/-- The keys of the leaf increase. -/
theorem twoBasements_possible : twoBasements.Possible where
  ordered := by
    refine ⟨List.pairwise_singleton _ _, fun bn member => ?_⟩
    rcases List.mem_cons.mp member with rfl | member
    · exact ⟨List.pairwise_singleton _ _, by decide⟩
    · rw [List.mem_singleton.mp member]
      exact ⟨List.pairwise_singleton _ _, by decide⟩
  few := by decide

/-- A query of the leaf for the keys from three to four. -/
theorem keysrange_ok_twoBasements :
    ∃ range, keysrange .wrapping [twoBasements] (some 3) (some 4) = some (some range) ∧
      RangeOk twoBasements (some 3) (some 4) range := by
  obtain ⟨result, answered, -, refused, promised⟩ := keysrange_ok [twoBasements] 3 (some 4)
    (by simp) (by simp [twoBasements_possible]) (by simp)
  cases result with
  | none =>
    rcases refused rfl twoBasements (by simp) with ⟨_, never⟩ | ⟨_, never⟩ <;> cases never
  | some range =>
    obtain ⟨attempt, member, ok⟩ := promised range rfl
    rw [List.mem_singleton.mp member] at ok
    exact ⟨range, answered, ok⟩

/-- With keys in two basement nodes the counts come to more than the estimate and the entries of
either, and with one key at both ends that has an entry a subtraction wraps. -/
theorem keysrange_beyond :
    (∃ range, keysrange .wrapping [twoBasements] (some 2) (some 3) = some (some range) ∧
      twoBasements.numrows +
        (keyBasement (some 2) twoBasements.height twoBasements.root).length < range.total ∧
      twoBasements.numrows +
        (keyBasement (some 3) twoBasements.height twoBasements.root).length < range.total) ∧
    keysrange .checked [twoBasements] (some 5) (some 5) = none ∧
    (keysrange .wrapping [twoBasements] (some 5) (some 5)).map (Option.map (·.middle)) =
      some (some (2 ^ 64 - 1)) :=
  ⟨⟨⟨1, 0, 0, 0, 1, false⟩, by decide, by decide, by decide⟩, by decide, by decide⟩

end Tokuft
