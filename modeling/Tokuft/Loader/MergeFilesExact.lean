import Mathlib.Algebra.Order.Floor.Div
import Tokuft.Loader.MergeFiles

/-! The passes of a bulk load are as many as predicted, and each merges every file once. -/

namespace Tokuft

/-- Rounding up twice does not depend on which divisor comes first. -/
theorem ceilDiv_right_comm {a b c : Nat} (first : 0 < b) (second : 0 < c) :
    a ⌈/⌉ b ⌈/⌉ c = a ⌈/⌉ c ⌈/⌉ b := by
  -- A bound on either side is the same bound on the number itself.
  apply eq_of_forall_ge_iff
  intro bound
  rw [ceilDiv_le_iff_le_mul second, ceilDiv_le_iff_le_mul first, ceilDiv_le_iff_le_mul first,
    ceilDiv_le_iff_le_mul second, Nat.mul_left_comm]

/-- More than one file shrinks when at least two are merged at a time. -/
theorem ceilDiv_lt_self (files : Nat) {limit : Nat} (limited : 2 ≤ limit) (many : 1 < files) :
    files ⌈/⌉ limit < files := by
  -- Half of the files, rounded up, is less than all of them once there are two.
  have doubled : (files - 1) * 2 ≤ limit * (files - 1) := by
    rw [Nat.mul_comm]
    exact Nat.mul_le_mul_right _ limited
  have fits : files ⌈/⌉ limit ≤ files - 1 := by
    rw [ceilDiv_le_iff_le_mul (by omega)]
    omega
  omega

/-- One group from the end takes one off the number of groups. -/
theorem ceilDiv_eq_succ {files limit : Nat} (limited : 0 < limit) (some : 0 < files) :
    files ⌈/⌉ limit = (files - min limit files) ⌈/⌉ limit + 1 := by
  rw [Nat.ceilDiv_eq_add_pred_div, Nat.ceilDiv_eq_add_pred_div, ← Nat.add_div_right _ limited]
  -- Either whole groups are left over, or this group is the last.
  rcases Nat.le_total limit files with whole | last
  · rw [Nat.min_eq_left whole]
    congr 1
    omega
  · rw [Nat.min_eq_right last, Nat.sub_self, Nat.zero_add]
    have one : (files + limit - 1) / limit = 1 := Nat.div_eq_of_lt_le (by omega) (by omega)
    rw [one, Nat.add_div_right _ limited, Nat.div_eq_of_lt (by omega)]

/-- What a loop of passes does: shrink by the earlier limit until the final limit is enough. -/
inductive Passes (finalMergelimit earlierMergelimit : Nat) : Nat → Nat → Prop
  | last {files : Nat} (few : files ≤ finalMergelimit) :
    Passes finalMergelimit earlierMergelimit files 1
  | earlier {files passes : Nat} (many : finalMergelimit < files)
    (rest : Passes finalMergelimit earlierMergelimit (files ⌈/⌉ earlierMergelimit) passes) :
    Passes finalMergelimit earlierMergelimit files (passes + 1)

section

variable {finalMergelimit earlierMergelimit : Nat}

/-- The prediction for many files is one more than the prediction for what one pass leaves. -/
theorem nPassesAtStart_earlier {files passes fuel : Nat} (finals : 0 < finalMergelimit)
    (earliers : 2 ≤ earlierMergelimit) (many : finalMergelimit < files) (enough : 0 < fuel)
    (rest : nPassesAtStart fuel finalMergelimit earlierMergelimit
      (files ⌈/⌉ earlierMergelimit) = some passes) :
    nPassesAtStart (fuel + 1) finalMergelimit earlierMergelimit files = some (passes + 1) := by
  have groups : 1 < files ⌈/⌉ finalMergelimit := by
    by_contra few
    have fits := (ceilDiv_le_iff_le_mul finals).mp (Nat.le_of_not_lt few)
    omega
  rw [nPassesAtStart, if_neg (Nat.not_le.mpr many), ← Nat.ceilDiv_eq_add_pred_div, nPasses,
    if_pos groups, ← Nat.ceilDiv_eq_add_pred_div,
    ceilDiv_right_comm finals (Nat.zero_lt_of_lt earliers)]
  rw [nPassesAtStart, ← Nat.ceilDiv_eq_add_pred_div] at rest
  split at rest
  · -- The next pass is the last one, so the prediction counts one group and stops.
    rename_i few
    have single : files ⌈/⌉ earlierMergelimit ⌈/⌉ finalMergelimit ≤ 1 := by
      rw [ceilDiv_le_iff_le_mul finals, Nat.mul_one]
      exact few
    obtain ⟨fuel, rfl⟩ := Nat.exists_eq_succ_of_ne_zero (Nat.ne_of_gt enough)
    rw [nPasses, if_neg (Nat.not_lt.mpr single)]
    cases rest
    rfl
  · -- Both predictions go on with the same number of groups.
    obtain ⟨more, counts, rfl⟩ := Option.map_eq_some_iff.mp rest
    rw [counts, Option.map_some, Option.map_some, Nat.add_comm 1 (more + 1), Nat.add_comm 1 more]

/-- The number computed up front is the number of passes that the loop takes. -/
theorem exists_passes (finals : 2 ≤ finalMergelimit) (earliers : 2 ≤ earlierMergelimit)
    (files : Nat) :
    ∃ passes, Passes finalMergelimit earlierMergelimit files passes ∧
      ∀ fuel, files < fuel →
        nPassesAtStart fuel finalMergelimit earlierMergelimit files = some passes := by
  induction files using Nat.strongRecOn with
  | ind files ih =>
    by_cases few : files ≤ finalMergelimit
    · exact ⟨1, .last few, fun fuel enough => by rw [nPassesAtStart, if_pos few]⟩
    · have many : finalMergelimit < files := Nat.lt_of_not_le few
      have shrinks := ceilDiv_lt_self files earliers (by omega)
      obtain ⟨passes, loop, predicted⟩ := ih _ shrinks
      refine ⟨passes + 1, .earlier many loop, fun fuel enough => ?_⟩
      -- One unit of fuel pays for the group count of this pass.
      obtain ⟨fuel, rfl⟩ := Nat.exists_eq_succ_of_ne_zero (Nat.ne_zero_of_lt enough)
      exact nPassesAtStart_earlier (by omega) earliers many (by omega) (predicted fuel (by omega))

/-- At least one pass is predicted. -/
theorem Passes.pos {files passes : Nat}
    (loop : Passes finalMergelimit earlierMergelimit files passes) : 0 < passes := by
  cases loop with
  | last => exact Nat.one_pos
  | earlier => exact Nat.succ_pos _

end

section

variable {World : Type} {calls : LoaderCalls World}
  {result : Int} {files : List FIDX} {world : World}

/-- The first error of two is no error only when neither is one. -/
theorem firstError_eq_zero {next : Int} :
    firstError result next = 0 ↔ result = 0 ∧ next = 0 := by
  unfold firstError
  split <;> omega

/-- When no file fails to open, all of them are open. -/
theorem reopenFiles_zero (ok : (reopenFiles calls files world).1 = 0) :
    (reopenFiles calls files world).2.1 = files := by
  induction files generalizing world with
  | nil => rfl
  | cons fidx files ih =>
    simp only [reopenFiles] at ok ⊢
    split at ok
    · -- The error of the first file is the result.
      rename_i fails
      exact absurd ok fails
    · rename_i opens
      rw [if_neg opens]
      exact congrArg (fidx :: ·) (ih ok)

/-- Closing and unlinking forgets no earlier error. -/
theorem closeAndUnlink_zero (ok : (closeAndUnlink calls files result world).1 = 0) :
    result = 0 := by
  induction files generalizing result world with
  | nil => exact ok
  | cons fidx files ih =>
    -- Both errors of this file are kept behind the one that came in.
    have kept := ih ok
    exact (firstError_eq_zero.mp (firstError_eq_zero.mp kept).1).1

/-- Closing the merged file forgets no earlier error. -/
theorem closeMerged_zero {merged : Option FIDX}
    (ok : (closeMerged calls merged result world).1 = 0) : result = 0 := by
  cases merged with
  | none => exact ok
  | some fidx => exact (firstError_eq_zero.mp ok).1

/-- A merge that succeeds comes after nothing failed. -/
theorem mergeSomeFiles_zero {toQueue : Bool} {merged : Option FIDX} {progress : Int}
    (ok : (mergeSomeFiles calls toQueue merged files progress result world).1 = 0) :
    result = 0 := by
  unfold mergeSomeFiles at ok
  split at ok
  · assumption
  · exact ok

/-- A merge has a file of its own exactly when it does not write to the queue. -/
theorem extendFileset_zero {toQueue : Bool}
    (ok : (extendFileset calls toQueue result world).1 = 0) :
    result = 0 ∧ (extendFileset calls toQueue result world).2.1.toList.length =
      if toQueue then 0 else 1 := by
  unfold extendFileset at ok ⊢
  cases toQueue with
  | true => simpa using ok
  | false =>
    by_cases before : result = 0
    · simp only [before, and_self, if_true] at ok ⊢
      split at ok
      · rename_i opened
        simp [opened]
      · rename_i fails
        exact absurd ok fails
    · rw [if_neg (fun both => before both.1)] at ok
      exact absurd ok before

namespace MergePass

variable {toQueue : Bool} {limit : Nat}

/-- A merge that succeeds took its whole group, and wrote one file unless it wrote to the queue. -/
theorem mergeGroup_ok {pass : MergePass World}
    (ok : (pass.mergeGroup calls toQueue limit).result = 0) :
    (pass.mergeGroup calls toQueue limit).merges =
        pass.merges ++ [pass.files.reverse.take (min limit pass.files.length)] ∧
      (pass.mergeGroup calls toQueue limit).nextFileSet.length =
        pass.nextFileSet.length + if toQueue then 0 else 1 := by
  -- No error was forgotten, so every stage before succeeded.
  have extended : (extendFileset calls toQueue
      (reopenFiles calls (pass.files.reverse.take (min limit pass.files.length)) pass.world).1
      (reopenFiles calls (pass.files.reverse.take (min limit pass.files.length))
        pass.world).2.2).1 = 0 := by
    apply mergeSomeFiles_zero
    apply closeAndUnlink_zero
    exact closeMerged_zero ok
  obtain ⟨reopened, written⟩ := extendFileset_zero extended
  have opened := reopenFiles_zero reopened
  constructor
  · simp only [mergeGroup]
    rw [if_pos extended, opened]
  · simp only [mergeGroup, List.length_append]
    rw [written]

/-- A pass of a merge in groups returns, and when nothing failed it merged every file once. -/
theorem run_ok (limited : 0 < limit) {fuel : Nat} {pass : MergePass World}
    (enough : pass.files.length < fuel) (before : pass.result = 0) :
    ∃ done, run calls toQueue limit fuel pass = some done ∧
      (done.result = 0 →
        (∃ groups, done.merges = pass.merges ++ groups ∧ groups.flatten = pass.files.reverse) ∧
        done.nextFileSet.length = pass.nextFileSet.length +
          (if toQueue then 0 else pass.files.length ⌈/⌉ limit) ∧
        (pass.files ≠ [] → done.progressAllocationForThisPass = 0)) := by
  -- Every group takes at least one file off the end, so the fuel lasts.
  induction fuel generalizing pass with
  | zero => omega
  | succ fuel ih =>
    rw [run]
    by_cases none : pass.files = []
    · rw [if_pos none]
      refine ⟨pass, rfl, fun _ => ⟨⟨[], by simp [none]⟩, ?_, fun left => absurd none left⟩⟩
      simp [none]
    · rw [if_neg none]
      have count : 0 < pass.files.length := List.length_pos_of_ne_nil none
      by_cases failed : (pass.mergeGroup calls toQueue limit).result ≠ 0
      · exact ⟨_, if_pos failed, fun ok => absurd ok failed⟩
      · rw [if_neg failed]
        obtain ⟨merges, written⟩ := mergeGroup_ok (not_not.mp failed)
        have remaining : (pass.mergeGroup calls toQueue limit).files =
            pass.files.take (pass.files.length - min limit pass.files.length) := rfl
        obtain ⟨done, runs, exact⟩ := @ih (pass.mergeGroup calls toQueue limit)
          (by rw [remaining, List.length_take]; omega) (not_not.mp failed)
        refine ⟨done, runs, fun ok => ?_⟩
        obtain ⟨⟨groups, recorded, flat⟩, outputs, spent⟩ := exact ok
        refine ⟨⟨pass.files.reverse.take (min limit pass.files.length) :: groups, ?_, ?_⟩,
          ?_, fun _ => ?_⟩
        · rw [recorded, merges, List.append_assoc, List.singleton_append]
        · -- The group is the end of the list, and the rest is what the later groups cover.
          rw [List.flatten_cons, flat, remaining, List.reverse_take]
          have group : pass.files.length - (pass.files.length - min limit pass.files.length) =
              min limit pass.files.length := by
            omega
          rw [group]
          exact List.take_append_drop _ _
        · rw [outputs, written, remaining, List.length_take]
          cases toQueue with
          | true => rfl
          | false =>
            have groupsLeft := ceilDiv_eq_succ limited count
            simp only [Bool.false_eq_true, if_false]
            rw [groupsLeft, Nat.min_eq_left (Nat.sub_le _ _)]
            omega
        · by_cases last : (pass.mergeGroup calls toQueue limit).files = []
          · -- The last group takes the whole of what is left of the allocation.
            have whole : min limit pass.files.length = pass.files.length := by
              have length := congrArg List.length last
              rw [remaining, List.length_take, List.length_nil] at length
              omega
            have same : done = pass.mergeGroup calls toQueue limit := by
              cases fuel with
              | zero => cases runs
              | succ fuel =>
                rw [run, if_pos last] at runs
                exact (Option.some.inj runs).symm
            rw [same]
            simp only [mergeGroup, whole]
            rw [Int.mul_tdiv_cancel _ (by omega), Int.sub_self]
          · exact spent last

end MergePass

/-- The passes start from some files, each starts from what the one before wrote, none is left. -/
def PassesFrom : List FIDX → List PassRecord → Prop
  | files, [] => files = []
  | files, pass :: passes => pass.files = files ∧ PassesFrom pass.nextFileSet passes

/-- A pass that divided by a positive number, merged every file once and spent its allocation. -/
structure PassRecord.Complete (pass : PassRecord) : Prop where
  divisor : 1 ≤ pass.nPassesLeft
  merged : pass.merges.flatten = pass.files.reverse
  spent : pass.progressAllocationForThisPass = 0

/-- Passes that are complete and of which only the last writes to the queue. -/
structure MergedInPasses (files : List FIDX) (predicted : Nat) (passes : List PassRecord) :
    Prop where
  count : passes.length = predicted
  chained : PassesFrom files passes
  complete : ∀ pass ∈ passes, pass.Complete
  queued : passes.map (·.toQueue) = List.replicate (predicted - 1) false ++ [true]

namespace MergeFiles

variable {finalMergelimit earlierMergelimit : Nat}

variable (calls) in
/-- One pass returns, and when nothing failed it leaves as many files as it made groups. -/
theorem pass_ok (finals : 2 ≤ finalMergelimit) (earliers : 2 ≤ earlierMergelimit) {fuel : Nat}
    {m : MergeFiles World} (enough : m.files.length < fuel) (before : m.result = 0)
    (left : 1 ≤ m.nPassesLeft) (nonempty : m.files ≠ []) :
    ∃ m', m.pass calls finalMergelimit earlierMergelimit fuel = some m' ∧
      m'.nPassesLeft = m.nPassesLeft - 1 ∧
      ∃ pass : PassRecord, m'.passes = m.passes ++ [pass] ∧
        pass.files = m.files ∧ pass.nextFileSet = m'.files ∧
        pass.toQueue = decide (m.files.length ≤ finalMergelimit) ∧
        (m'.result = 0 → pass.Complete ∧
          m'.files.length = if m.files.length ≤ finalMergelimit then 0
            else m.files.length ⌈/⌉ earlierMergelimit) := by
  -- The loop of a pass takes a group of files each time, until none is left.
  have limited : 0 < if decide (m.files.length ≤ finalMergelimit) = true then finalMergelimit
      else earlierMergelimit := by
    split <;> omega
  obtain ⟨done, runs, exact⟩ := @MergePass.run_ok World calls
    (decide (m.files.length ≤ finalMergelimit)) _ limited fuel
    { world := m.world
      result := m.result
      files := m.files
      nextFileSet := []
      progressAllocationForThisPass := m.progressAllocation.tdiv m.nPassesLeft
      merges := [] } enough before
  have spent : done.result = 0 → done.progressAllocationForThisPass = 0 :=
    fun ok => (exact ok).2.2 nonempty
  refine ⟨m.afterPass (m.progressAllocation.tdiv m.nPassesLeft)
      (decide (m.files.length ≤ finalMergelimit)) done, ?_, rfl,
    m.record (decide (m.files.length ≤ finalMergelimit)) done, rfl, rfl, rfl, rfl,
    fun ok => ⟨⟨left, ?_, spent ok⟩, ?_⟩⟩
  · simp only [pass, Option.bind_eq_bind, Option.pure_def]
    rw [invariant_of (by omega), Option.bind_some, runs, Option.bind_some, invariant_of spent,
      Option.bind_some]
  · obtain ⟨groups, recorded, flat⟩ := (exact ok).1
    show done.merges.flatten = _
    rw [recorded]
    exact flat
  · have outputs := (exact ok).2.1
    simp only [List.length_nil, Nat.zero_add, decide_eq_true_eq] at outputs
    show done.nextFileSet.length = _
    rw [outputs]
    split <;> rfl

variable (calls) in
/-- The loop of passes returns, and when nothing failed it made the predicted passes. -/
theorem run_ok (finals : 2 ≤ finalMergelimit) (earliers : 2 ≤ earlierMergelimit)
    {files predicted : Nat} (loop : Passes finalMergelimit earlierMergelimit files predicted)
    {fuel : Nat} {m : MergeFiles World} (length : m.files.length = files) (nonzero : 0 < files)
    (enough : files + 1 < fuel) (before : m.result = 0) (left : m.nPassesLeft = predicted) :
    ∃ m', run calls finalMergelimit earlierMergelimit fuel m = some m' ∧
      (m'.result = 0 → m'.files = [] ∧ ∃ passes, m'.passes = m.passes ++ passes ∧
        MergedInPasses m.files predicted passes) := by
  -- The loop and the prediction take the same branch, so the induction is on the prediction.
  induction loop generalizing fuel m with
  | @last files few =>
    obtain ⟨fuel, rfl⟩ := Nat.exists_eq_succ_of_ne_zero (Nat.ne_zero_of_lt enough)
    have nonempty : m.files ≠ [] := List.ne_nil_of_length_pos (by omega)
    obtain ⟨m', runs, counted, pass, recorded, starts, ends, queue, exact⟩ :=
      pass_ok calls finals earliers (show m.files.length < fuel by omega) before (by omega)
        nonempty
    rw [run, if_neg nonempty, runs, bind_of_some]
    by_cases failed : m'.result ≠ 0
    · exact ⟨m', if_pos failed, fun ok => absurd ok failed⟩
    · obtain ⟨complete, outputs⟩ := exact (not_not.mp failed)
      rw [if_pos (by omega)] at outputs
      have done : m'.files = [] := List.eq_nil_of_length_eq_zero outputs
      obtain ⟨fuel, rfl⟩ := Nat.exists_eq_succ_of_ne_zero (show fuel ≠ 0 by omega)
      rw [if_neg failed, run, if_pos done]
      refine ⟨m', rfl, fun _ => ⟨done, [pass], recorded, rfl, ⟨starts, ends.trans done⟩, ?_, ?_⟩⟩
      · intro member is
        rw [List.mem_singleton.mp is]
        exact complete
      · rw [List.map_singleton, queue, decide_eq_true (by omega)]
        rfl
  | @earlier files passes many rest ih =>
    obtain ⟨fuel, rfl⟩ := Nat.exists_eq_succ_of_ne_zero (Nat.ne_zero_of_lt enough)
    have nonempty : m.files ≠ [] := List.ne_nil_of_length_pos (by omega)
    obtain ⟨m', runs, counted, pass, recorded, starts, ends, queue, exact⟩ :=
      pass_ok calls finals earliers (show m.files.length < fuel by omega) before (by omega)
        nonempty
    rw [run, if_neg nonempty, runs, bind_of_some]
    by_cases failed : m'.result ≠ 0
    · exact ⟨m', if_pos failed, fun ok => absurd ok failed⟩
    · obtain ⟨complete, outputs⟩ := exact (not_not.mp failed)
      rw [if_neg (by omega), length] at outputs
      have shrinks := ceilDiv_lt_self files earliers (by omega)
      have remains : 0 < files ⌈/⌉ earlierMergelimit := by
        have more := ceilDiv_eq_succ (show 0 < earlierMergelimit by omega) nonzero
        omega
      rw [if_neg failed]
      obtain ⟨m'', later, final⟩ := ih outputs remains
        (show files ⌈/⌉ earlierMergelimit + 1 < fuel by omega) (not_not.mp failed) (by omega)
      refine ⟨m'', later, fun ok => ?_⟩
      obtain ⟨done, records, appended, merged⟩ := final ok
      refine ⟨done, pass :: records, ?_, ?_, ?_, ?_, ?_⟩
      · rw [appended, recorded, List.append_assoc, List.singleton_append]
      · rw [List.length_cons, merged.count]
      · exact ⟨starts, by rw [ends]; exact merged.chained⟩
      · intro member is
        rcases List.mem_cons.mp is with rfl | later
        · exact complete
        · exact merged.complete member later
      · -- Only the later passes can write to the queue, and the last of them does.
        have positive := rest.pos
        obtain ⟨before, rfl⟩ := Nat.exists_eq_succ_of_ne_zero (Nat.ne_of_gt positive)
        rw [List.map_cons, queue, merged.queued, decide_eq_false (by omega)]
        simp [List.replicate_succ]

end MergeFiles

/-- With two files at a time or more, the merge returns; when nothing failed it made the predicted
passes, or none of them when there was no file.
-/
theorem mergeFiles_predicted (calls : LoaderCalls World) {finalMergelimit earlierMergelimit : Nat}
    (finals : 2 ≤ finalMergelimit) (earliers : 2 ≤ earlierMergelimit) (files : List FIDX)
    (progressAllocation : Int) (world : World) {fuel : Nat} (enough : files.length + 1 < fuel) :
    ∃ predicted m,
      nPassesAtStart fuel finalMergelimit earlierMergelimit files.length = some predicted ∧
      mergeFiles calls finalMergelimit earlierMergelimit files progressAllocation world fuel =
        some m ∧
      (m.result = 0 → m.files = [] ∧
        if files = [] then m.passes = [] else MergedInPasses files predicted m.passes) := by
  obtain ⟨predicted, loop, predicts⟩ := exists_passes finals earliers files.length
  refine ⟨predicted, ?_⟩
  rw [mergeFiles, predicts fuel (by omega), bind_of_some]
  by_cases none : files = []
  · -- One pass is predicted, but the loop is not entered.
    obtain ⟨fuel, rfl⟩ := Nat.exists_eq_succ_of_ne_zero (Nat.ne_zero_of_lt enough)
    rw [MergeFiles.run, if_pos none]
    exact ⟨_, rfl, rfl, fun _ => ⟨none, by rw [if_pos none]⟩⟩
  · obtain ⟨m, runs, final⟩ := @MergeFiles.run_ok World calls _ _ finals earliers _ _ loop fuel
      { world := world
        result := 0
        files := files
        progressAllocation := progressAllocation
        nPassesLeft := predicted
        passes := [] } rfl (List.length_pos_of_ne_nil none) (by omega) rfl rfl
    rw [runs, bind_of_some]
    refine ⟨_, rfl, rfl, fun ok => ?_⟩
    -- The end of the queue and the progress forget no earlier error.
    obtain ⟨done, passes, recorded, merged⟩ :=
      final (firstError_eq_zero.mp (firstError_eq_zero.mp ok).1).1
    rw [if_neg none]
    refine ⟨done, ?_⟩
    show MergedInPasses files predicted m.passes
    rw [recorded]
    exact merged

/-- Calls that never fail. -/
def quietCalls : LoaderCalls Unit where
  fiReopen _ _ := (0, ())
  openTempFile _ := (0, 7, ())
  mergeSomeFiles _ _ _ _ _ := (0, ())
  fiClose _ _ := (0, ())
  fiUnlink _ _ := (0, ())
  queueEof _ := (0, ())
  updateProgress _ _ := (0, ())

/-- Five files are merged in the predicted passes, four at a time and then two. -/
theorem mergeFiles_predicted_five :
    ∃ predicted m, nPassesAtStart 7 4 3 5 = some predicted ∧
      mergeFiles quietCalls 4 3 [0, 1, 2, 3, 4] 10 () 7 = some m ∧
      (m.result = 0 → m.files = [] ∧
        if ([0, 1, 2, 3, 4] : List FIDX) = [] then m.passes = []
        else MergedInPasses [0, 1, 2, 3, 4] predicted m.passes) :=
  mergeFiles_predicted quietCalls (by decide) (by decide) [0, 1, 2, 3, 4] 10 () (by decide)

/-- Without a file one pass is predicted and none is made. -/
theorem mergeFiles_without_files :
    nPassesAtStart 7 4 4 0 = some 1 ∧
      (mergeFiles quietCalls 4 4 [] 10 () 7).map (fun m => (m.result, m.passes.length)) =
        some (0, 0) := by
  decide

end

end Tokuft
