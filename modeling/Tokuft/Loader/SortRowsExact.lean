import Mathlib.Algebra.Order.BigOperators.Ring.Finset
import Tokuft.Loader.SortRows

/-! The merge sort of a bulk load gives the rows in rising order, or reports two with one key. -/

namespace Tokuft

variable {Key Val : Type} [LinearOrder Key]

/-- Rows in strictly rising order of their keys. -/
def Rising (rows : List (LoadRow Key Val)) : Prop :=
  rows.Pairwise fun early late => early.key < late.key

/-- Rows come out sorted, each once, or a row is reported whose key occurs twice. -/
def Sorts (rows : List (LoadRow Key Val)) :
    Except (LoadRow Key Val) (List (LoadRow Key Val)) → Prop
  | .ok sorted => Rising sorted ∧ sorted.Perm rows
  | .error row => row ∈ rows ∧ 1 < (rows.map LoadRow.key).count row.key

variable {rows a b : List (LoadRow Key Val)}
  {result : Except (LoadRow Key Val) (List (LoadRow Key Val))}

/-- What sorts some rows goes on to sort all of them, or has found equal keys already. -/
theorem Sorts.bind {part rest : List (LoadRow Key Val)}
    (next : List (LoadRow Key Val) → Except (LoadRow Key Val) (List (LoadRow Key Val)))
    (sorts : Sorts part result) (split : rows.Perm (part ++ rest))
    (goes : ∀ sorted, Rising sorted → sorted.Perm part → Sorts rows (next sorted)) :
    Sorts rows (result >>= next) := by
  -- An equal key of a part is an equal key of all rows.
  cases result with
  | ok sorted => exact goes sorted sorts.1 sorts.2
  | error row =>
    refine ⟨split.mem_iff.mpr (List.mem_append_left rest sorts.1), ?_⟩
    rw [(split.map LoadRow.key).count_eq, List.map_append, List.count_append]
    exact Nat.lt_add_right _ sorts.2

/-- A row that comes before sorted rows is put in front of them. -/
theorem Sorts.cons {x : LoadRow Key Val} {rest : List (LoadRow Key Val)}
    (sorts : Sorts rest result) (first : ∀ row ∈ rest, x.key < row.key)
    (perm : rows.Perm (x :: rest)) : Sorts rows (result.map (x :: ·)) := by
  have bound := Sorts.bind (fun sorted => .ok (x :: sorted)) sorts
    (perm.trans (List.perm_append_singleton x rest).symm) fun sorted rising same =>
      ⟨List.pairwise_cons.mpr ⟨fun row member => first row (same.mem_iff.mp member), rising⟩,
        (same.cons x).trans perm.symm⟩
  cases result <;> exact bound

/-- Sorted rows have different keys. -/
theorem Rising.nodup (rising : Rising rows) : (rows.map LoadRow.key).Nodup :=
  List.pairwise_map.mpr (rising.imp ne_of_lt)

/-- Sorting fails exactly when a key occurs twice. -/
theorem Sorts.error_iff (sorts : Sorts rows result) :
    (∃ row ∈ rows, 1 < (rows.map LoadRow.key).count row.key ∧ result = .error row) ↔
      ¬(rows.map LoadRow.key).Nodup := by
  -- Rising keys are distinct.
  constructor
  · rintro ⟨row, _, twice, _⟩ nodup
    exact absurd (List.nodup_iff_count_le_one.mp nodup row.key) (Nat.not_le.mpr twice)
  · intro equal
    cases result with
    | ok sorted => exact absurd ((sorts.2.map LoadRow.key).nodup_iff.mp sorts.1.nodup) equal
    | error row => exact ⟨row, sorts.1, sorts.2, rfl⟩

/-- Sorted rows are the only result of sorting rows that can be sorted. -/
theorem Sorts.ok_iff (sorts : Sorts rows result) {sorted : List (LoadRow Key Val)} :
    result = .ok sorted ↔ Rising sorted ∧ sorted.Perm rows := by
  constructor
  · rintro rfl
    exact sorts
  · intro ⟨rising, perm⟩
    cases result with
    | error row =>
      have nodup := (perm.map LoadRow.key).nodup_iff.mp rising.nodup
      exact absurd nodup (sorts.error_iff.mp ⟨row, sorts.1, sorts.2, rfl⟩)
    | ok other =>
      -- Two sorted lists of the same rows are one list.
      have same := (sorts.2.trans perm.symm).eq_of_pairwise
        (fun _ _ _ _ first second => absurd first (lt_asymm second)) sorts.1 rising
      rw [same]

/-- Merging sorted rows one by one sorts them. -/
theorem mergeRowArraysBase_sorts (risingA : Rising a) (risingB : Rising b) :
    Sorts (a ++ b) (mergeRowArraysBase a b) := by
  -- One case for each branch of the merge.
  fun_induction mergeRowArraysBase a b with
  | case1 b => exact ⟨risingB, .refl _⟩
  | case2 a => exact ⟨risingA, by simp⟩
  | case3 x a y b equal => exact ⟨by simp, by simp [equal]⟩
  | case4 x a y b differ before ih =>
    refine (ih risingA.of_cons risingB).cons (fun row member => ?_) (.refl _)
    rcases List.mem_append.mp member with here | there
    · exact List.rel_of_pairwise_cons risingA here
    · rcases List.mem_cons.mp there with rfl | later
      · exact before
      · exact lt_trans before (List.rel_of_pairwise_cons risingB later)
  | case5 x a y b differ before ih =>
    have after := lt_of_le_of_ne (not_lt.mp before) (Ne.symm differ)
    refine (ih risingA risingB.of_cons).cons (fun row member => ?_) List.perm_middle
    rcases List.mem_append.mp member with here | there
    · rcases List.mem_cons.mp here with rfl | later
      · exact after
      · exact lt_trans after (List.rel_of_pairwise_cons risingA later)
    · exact List.rel_of_pairwise_cons risingB there

/-- A search finds the row of a key, or the place between the rows before it and after it. -/
def Finds (key : Key) (a : List (LoadRow Key Val)) (abefore : Nat) :
    Except (LoadRow Key Val) Nat → Prop
  | .ok location => ∃ early late, a = early ++ late ∧ location = abefore + early.length ∧
      (∀ row ∈ early, row.key < key) ∧ ∀ row ∈ late, key < row.key
  | .error row => row ∈ a ∧ row.key = key

/-- A search in the middle of rows is a search in all of them. -/
theorem Finds.within {key : Key} (front back : List (LoadRow Key Val))
    {part : List (LoadRow Key Val)} {abefore count : Nat} {found : Except (LoadRow Key Val) Nat}
    (finds : Finds key part (abefore + count) found) (size : front.length = count)
    (less : ∀ row ∈ front, row.key < key) (more : ∀ row ∈ back, key < row.key) :
    Finds key (front ++ (part ++ back)) abefore found := by
  -- The rows in front are less than the key, and those behind are greater.
  subst size
  cases found with
  | error row => exact ⟨by simp [finds.1], finds.2⟩
  | ok location =>
    obtain ⟨early, late, rfl, rfl, before, after⟩ := finds
    refine ⟨front ++ early, late ++ back, by simp, by simp [Nat.add_assoc], ?_, ?_⟩
    · exact fun row member => (List.mem_append.mp member).elim (less row) (before row)
    · exact fun row member => (List.mem_append.mp member).elim (after row) (more row)

/-- A search of sorted rows finds a key or its place. -/
theorem binarySearch_finds (key : Key) (rising : Rising a) (abefore : Nat) :
    Finds key a abefore (binarySearch key a abefore) := by
  fun_induction binarySearch key a abefore with
  | case1 a abefore found =>
    have empty : a = [] := by
      have none := congrArg List.length found
      rw [List.length_drop, List.length_nil] at none
      exact List.length_eq_zero_iff.mp (by omega)
    exact ⟨[], [], empty, rfl, nofun, nofun⟩
  | case2 a abefore row rest found same =>
    exact ⟨List.mem_of_mem_drop (found ▸ List.mem_cons_self), same.symm⟩
  | case3 a abefore row rest found differ before single =>
    obtain ⟨only, rfl⟩ := List.length_eq_one_iff.mp single
    obtain ⟨rfl, rfl⟩ : only = row ∧ [] = rest := by simpa using found
    exact ⟨[], [only], rfl, rfl, nofun, by simpa using before⟩
  | case4 a abefore row rest found differ before several ih =>
    have split := List.take_append_drop (a.length / 2) a
    have sorted := rising
    rw [← split, found] at sorted
    obtain ⟨first, later, -⟩ := List.pairwise_append.mp sorted
    -- The middle row and all behind it come after the key.
    have whole := (ih first).within [] (row :: rest) rfl nofun fun other member => by
      rcases List.mem_cons.mp member with rfl | behind
      · exact before
      · exact lt_trans before (List.rel_of_pairwise_cons later behind)
    rwa [List.nil_append, ← found, split] at whole
  | case5 a abefore row rest found differ before single =>
    obtain ⟨only, rfl⟩ := List.length_eq_one_iff.mp single
    obtain ⟨rfl, rfl⟩ : only = row ∧ [] = rest := by simpa using found
    have after := lt_of_le_of_ne (not_lt.mp before) (Ne.symm differ)
    exact ⟨[only], [], rfl, rfl, by simpa using after, nofun⟩
  | case6 a abefore row rest found differ before several ih =>
    have after := lt_of_le_of_ne (not_lt.mp before) (Ne.symm differ)
    have split := List.take_append_drop (a.length / 2) a
    have sorted := rising
    rw [← split, found] at sorted
    obtain ⟨-, later, apart⟩ := List.pairwise_append.mp sorted
    have size : (a.take (a.length / 2)).length = a.length / 2 := by
      rw [List.length_take]
      omega
    have whole := (ih (found ▸ later)).within (a.take (a.length / 2)) [] size
      (fun other member => lt_trans (apart other member row List.mem_cons_self) after) nofun
    rwa [List.append_nil, split] at whole

/-- Sorting does not depend on the order that the rows come in. -/
theorem Sorts.perm {other : List (LoadRow Key Val)} (sorts : Sorts rows result)
    (same : rows.Perm other) : Sorts other result := by
  cases result with
  | ok sorted => exact ⟨sorts.1, sorts.2.trans same⟩
  | error row =>
    exact ⟨same.mem_iff.mp sorts.1, (same.map LoadRow.key).count_eq row.key ▸ sorts.2⟩

/-- Merging around a middle row merges what comes before it, and it with what comes after it. -/
theorem mergeAround_sorts {front back rest short : List (LoadRow Key Val)}
    {middle : LoadRow Key Val} (starts : back = middle :: rest) (rising : Rising (front ++ back))
    (risingShort : Rising short)
    {mergeFront mergeBack : Nat → Except (LoadRow Key Val) (List (LoadRow Key Val))}
    (fronts : ∀ b2, Sorts (front ++ short.take b2) (mergeFront b2))
    (backs : ∀ b2, Sorts (back ++ short.drop b2) (mergeBack b2)) :
    Sorts ((front ++ back) ++ short) (do
      let b2 ← binarySearch middle.key short 0
      let first ← mergeFront b2
      let second ← mergeBack b2
      pure (first ++ second)) := by
  subst starts
  obtain ⟨-, behind, before⟩ := List.pairwise_append.mp rising
  have finds := binarySearch_finds middle.key risingShort 0
  cases searched : binarySearch middle.key short 0 with
  | error row =>
    rw [searched] at finds
    refine ⟨List.mem_append_right _ finds.1, ?_⟩
    -- The key is that of the middle row and of the row that was found.
    have one := List.count_pos_iff.mpr (List.mem_map_of_mem (f := LoadRow.key) finds.1)
    rw [finds.2] at one ⊢
    simp only [List.map_append, List.map_cons, List.count_append, List.count_cons_self]
    omega
  | ok b2 =>
    rw [searched] at finds
    obtain ⟨early, late, rfl, rfl, less, more⟩ := finds
    have first := fronts (0 + early.length)
    have second := backs (0 + early.length)
    rw [Nat.zero_add, List.take_left] at first
    rw [Nat.zero_add, List.drop_left] at second
    have shuffled : ((front ++ middle :: rest) ++ (early ++ late)).Perm
        ((front ++ early) ++ (middle :: rest ++ late)) := by
      rw [List.append_assoc, List.append_assoc]
      exact (List.perm_append_comm_assoc _ _ _).append_left front
    show Sorts _ (mergeFront (0 + early.length) >>= fun first =>
      mergeBack (0 + early.length) >>= fun second => pure (first ++ second))
    rw [Nat.zero_add]
    apply first.bind _ shuffled
    intro merged risingFirst permFirst
    apply second.bind _ (shuffled.trans List.perm_append_comm)
    intro later risingSecond permSecond
    refine ⟨List.pairwise_append.mpr ⟨risingFirst, risingSecond, fun x inFirst y inSecond => ?_⟩,
      (permFirst.append permSecond).trans shuffled.symm⟩
    -- The middle row lies between the two parts.
    have low : x.key < middle.key := by
      rcases List.mem_append.mp (permFirst.mem_iff.mp inFirst) with here | there
      · exact before x here middle List.mem_cons_self
      · exact less x there
    rcases List.mem_append.mp (permSecond.mem_iff.mp inSecond) with here | there
    · rcases List.mem_cons.mp here with rfl | after
      · exact low
      · exact lt_trans low (List.rel_of_pairwise_cons behind after)
    · exact lt_trans low (more y there)

/-- Merging sorted rows sorts them, however many there are. -/
theorem mergeRowArrays_sorts (risingA : Rising a) (risingB : Rising b) :
    Sorts (a ++ b) (mergeRowArrays a b) := by
  -- One case for each branch: the longer part is halved, and the other one split at that key.
  fun_induction mergeRowArrays a b with
  | case1 a b small => exact mergeRowArraysBase_sorts risingA risingB
  | case2 a b many long a2 none =>
    have size := congrArg List.length none
    have most : a.length ≤ long.length ∧ b.length ≤ long.length := by
      dsimp only [long]
      split <;> omega
    rw [List.length_drop, List.length_nil] at size
    omega
  | case3 a b many long short a2 middle rest split front back =>
    have sides : Rising long ∧ Rising short ∧ (long ++ short).Perm (a ++ b) := by
      dsimp only [long, short]
      split
      · exact ⟨risingB, risingA, List.perm_append_comm⟩
      · exact ⟨risingA, risingB, .refl _⟩
    obtain ⟨risingLong, risingShort, same⟩ := sides
    have whole : long.take a2 ++ long.drop a2 = long := List.take_append_drop a2 long
    have sorts := mergeAround_sorts split (whole.symm ▸ risingLong) risingShort
      (fun b2 => front b2 (risingLong.sublist (List.take_sublist _ _))
        (risingShort.sublist (List.take_sublist _ _)))
      (fun b2 => back b2 (risingLong.sublist (List.drop_sublist _ _))
        (risingShort.sublist (List.drop_sublist _ _)))
    rw [whole] at sorts
    exact sorts.perm same

/-- Sorting any rows sorts them, or finds two with one key. -/
theorem mergesortRowArray_sorts (rows : List (LoadRow Key Val)) :
    Sorts rows (mergesortRowArray rows) := by
  -- One case for each branch: two halves are sorted and merged.
  fun_induction mergesortRowArray rows with
  | case1 rows few =>
    refine ⟨?_, .refl _⟩
    match rows, few with
    | [], _ => exact .nil
    | [row], _ => exact List.pairwise_singleton _ _
  | case2 rows many mid ihFirst ihSecond =>
    have whole := List.take_append_drop mid rows
    have same : rows.Perm (rows.take mid ++ rows.drop mid) := by rw [whole]
    apply ihFirst.bind _ same
    intro first risingFirst permFirst
    apply ihSecond.bind _ (same.trans List.perm_append_comm)
    intro second risingSecond permSecond
    exact (mergeRowArrays_sorts risingFirst risingSecond).perm
      ((permFirst.append permSecond).trans same.symm)

/-- The merge sort gives the rows in strictly rising order, and fails exactly when there is no such
order, with a row whose key occurs twice. -/
theorem mergesortRowArray_exact (rows sorted : List (LoadRow Key Val)) :
    (mergesortRowArray rows = .ok sorted ↔ Rising sorted ∧ sorted.Perm rows) ∧
    ((∃ row ∈ rows, 1 < (rows.map LoadRow.key).count row.key ∧
      mergesortRowArray rows = .error row) ↔ ¬(rows.map LoadRow.key).Nodup) :=
  ⟨(mergesortRowArray_sorts rows).ok_iff, (mergesortRowArray_sorts rows).error_iff⟩

/-- Merging in halves gives what merging row by row does, and fails when that fails. -/
theorem mergeRowArrays_eq_base (risingA : Rising a) (risingB : Rising b) :
    (mergeRowArrays a b).toOption = (mergeRowArraysBase a b).toOption := by
  -- Rows have one rising order, and equal keys fail both.
  have halves := mergeRowArrays_sorts risingA risingB
  have plain := mergeRowArraysBase_sorts risingA risingB
  cases result : mergeRowArraysBase a b with
  | ok sorted =>
    rw [result] at plain
    rw [halves.ok_iff.mpr plain]
  | error row =>
    cases other : mergeRowArrays a b with
    | error _ => rfl
    | ok sorted =>
      rw [other] at halves
      rw [plain.ok_iff.mpr halves] at result
      cases result

/-- Numbered rows whose keys rise with their numbers are in rising order. -/
theorem Rising.range {row : Nat → LoadRow Key Val} (rises : StrictMono fun n => (row n).key)
    (count : Nat) : Rising ((List.range count).map row) :=
  List.pairwise_map.mpr (List.pairwise_lt_range.imp fun before => rises before)

/-- Enough rows that interleave, by even and odd keys, are merged in halves. -/
theorem mergeRowArrays_eq_base_interleaved :
    let even := (List.range 5000).map fun n => LoadRow.mk (2 * n) 'e'
    let odd := (List.range 5000).map fun n => LoadRow.mk (2 * n + 1) 'o'
    ¬even.length + odd.length < 10000 ∧
      (mergeRowArrays even odd).toOption = (mergeRowArraysBase even odd).toOption := by
  intro even odd
  refine ⟨by simp [even, odd], mergeRowArrays_eq_base ?_ ?_⟩
  · exact Rising.range (fun early late before => by dsimp only; omega) 5000
  · exact Rising.range (fun early late before => by dsimp only; omega) 5000

end Tokuft
