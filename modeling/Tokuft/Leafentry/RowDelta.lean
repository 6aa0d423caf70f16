import Tokuft.Leafentry.Gc

/-! What a message reports about the row count, compared with what it does to the row. -/

namespace Tokuft

/-- Whether a record says that the row is there. -/
def xrPresent : Option Xr → Bool
  | some (.insert _) => true
  | _ => false

/-- Whether a row is there, as its newest record says. -/
def rowPresent (le : Ule) : Bool := xrPresent (innermostXr le)

variable {ule after : Ule} {xids : List Nat} {retval : Int}

/-- A record that inserts says that the row is there. -/
theorem uxrIsInsert_present (uxr : Uxr) : uxrIsInsert uxr = xrPresent (some uxr.type) := by
  rcases uxr with ⟨type, xid⟩
  cases type <;> rfl

/-- An insert leaves its value on top and takes the count back when the row was there. -/
theorem uleApplyInsert_delta {val : Bytes}
    (applied : uleApplyInsert ule xids val = some (after, retval)) :
    innermostXr after = some (.insert val) ∧ retval = if rowPresent ule then -1 else 0 := by
  simp only [uleApplyInsert, bind_inv, Prod.mk.injEq] at applied
  obtain ⟨-, -, innermost, found, prepared, -, pushed, top, rfl, rfl⟩ := applied
  refine ⟨ulePushUxr_innermost top, ?_⟩
  rw [rowPresent, innermostXr_of_get found, uxrIsInsert_present]

/-- An insert that must not overwrite leaves a row that is there alone. -/
theorem uleApplyInsertNoOverwrite_delta {val : Bytes}
    (applied : uleApplyInsertNoOverwrite ule xids val = some (after, retval)) :
    (rowPresent ule = true ∧ after = ule ∧ retval = -1) ∨
      (rowPresent ule = false ∧ innermostXr after = some (.insert val) ∧ retval = 0) := by
  -- The innermost record tells whether the row is there.
  simp only [uleApplyInsertNoOverwrite, bind_inv] at applied
  obtain ⟨-, -, innermost, found, applied⟩ := applied
  have present : rowPresent ule = uxrIsInsert innermost := by
    rw [rowPresent, innermostXr_of_get found, uxrIsInsert_present]
  rw [present]
  split at applied
  · rename_i inserts
    cases applied
    exact Or.inl ⟨inserts, rfl, rfl⟩
  · rename_i missing
    simp only [Option.bind_eq_some_iff, Option.some.injEq,
      Prod.mk.injEq] at applied
    obtain ⟨prepared, -, pushed, top, rfl, rfl⟩ := applied
    exact Or.inr ⟨by simpa using missing, ulePushUxr_innermost top, rfl⟩

/-- A delete leaves a delete on top and gives the count back when one was there already. -/
theorem uleApplyDelete_delta (applied : uleApplyDelete ule xids = some (after, retval)) :
    innermostXr after = some .delete ∧
      retval = if innermostXr ule = some .delete then 1 else 0 := by
  simp only [uleApplyDelete, bind_inv, Prod.mk.injEq] at applied
  obtain ⟨innermost, found, prepared, -, pushed, top, rfl, rfl⟩ := applied
  refine ⟨ulePushUxr_innermost top, ?_⟩
  rw [innermostXr_of_get found]
  rcases innermost with ⟨type, xid⟩
  cases type <;> simp [uxrIsDelete]

/-- What is left of a leaf entry when its innermost record and the placeholders below it go. -/
def uncoveredXr (ule : Ule) : Option Xr :=
  (ule.puxrs.tail.dropWhile uxrIsPlaceholder ++ ule.cuxrs).head?.map Uxr.type

/-- Dropping placeholders ends at a record that is none. -/
theorem dropPlaceholders_result {cuxrs puxrs : List Uxr}
    (dropped : dropPlaceholders cuxrs puxrs = some after) :
    after = { puxrs := puxrs.dropWhile uxrIsPlaceholder, cuxrs } ∧
      innermostXr after ≠ some .placeholder := by
  -- By induction on the provisional records.
  induction puxrs with
  | nil =>
    simp only [dropPlaceholders, bind_inv, invariant_eq_some] at dropped
    obtain ⟨top, head, -, solid, rfl⟩ := dropped
    refine ⟨rfl, ?_⟩
    rcases top with ⟨type, xid⟩
    cases type <;> simp_all [innermostXr, uxrIsPlaceholder]
  | cons uxr outer ih =>
    simp only [dropPlaceholders] at dropped
    split at dropped
    · rename_i placeholder
      simpa [placeholder] using ih dropped
    · rename_i solid
      cases dropped
      refine ⟨by simp [solid], ?_⟩
      rcases uxr with ⟨type, xid⟩
      cases type <;> simp_all [innermostXr, uxrIsPlaceholder]

/--
The condition under which an abort reports the change that it makes.

The source looks at the record below only in a leaf entry with one record of each kind.
In any other it takes for granted that the row changes between present and absent.
-/
def AbortReports (ule : Ule) (xids : List Nat) : Prop :=
  ∀ removed ∈ ule.puxrs.head?, removed.xid = xidsGetInnermostXid xids →
    (ule.numPuxrs = 1 ∧ ule.numCuxrs = 1) ∨
      xrPresent (some removed.type) ≠ xrPresent (uncoveredXr ule)

instance (ule : Ule) (xids : List Nat) : Decidable (AbortReports ule xids) :=
  inferInstanceAs (Decidable (∀ removed ∈ ule.puxrs.head?, _ → _))

/-- Over any other leaf entry than the smallest an abort reports that the row changes. -/
theorem abortRetval_eq {innermost : Uxr} (solid : innermost.type ≠ .placeholder)
    (larger : ¬(ule.numPuxrs = 1 ∧ ule.numCuxrs = 1)) :
    abortRetval ule innermost = if xrPresent (some innermost.type) then -1 else 1 := by
  -- One case for each type of the innermost record.
  have never (kind : Uxr → Bool) :
      ¬(ule.numPuxrs = 1 ∧ ule.numCuxrs = 1 ∧ ule.cuxrs.getLast?.any kind = true) :=
    fun all => larger ⟨all.1, all.2.1⟩
  rcases innermost with ⟨type, xid⟩
  cases type with
  | placeholder => exact absurd rfl solid
  | delete => simp only [abortRetval, uxrIsDelete, if_neg (never _), xrPresent]; rfl
  | insert val =>
    simp only [abortRetval, uxrIsDelete, uxrIsInsert, if_neg (never _), xrPresent]; rfl

/-- Over the smallest leaf entry an abort compares the two records and reports rightly. -/
theorem abortRetval_smallest {innermost bottom : Uxr} (solid : innermost.type ≠ .placeholder)
    (solidBelow : bottom.type ≠ .placeholder) :
    ((xrPresent (some bottom.type)).toNat : Int) = (xrPresent (some innermost.type)).toNat +
      abortRetval { puxrs := [innermost], cuxrs := [bottom] } innermost := by
  rcases innermost with ⟨type, xid⟩
  rcases bottom with ⟨below, belowXid⟩
  cases type <;> cases below <;>
    simp_all [abortRetval, xrPresent, uxrIsDelete, uxrIsInsert]

/-- An abort removes the transaction's own record from the top, or does nothing at all. -/
theorem uleApplyAbort_cases (applied : uleApplyAbort ule xids = some (after, retval)) :
    (∃ removed ∈ ule.puxrs.head?, removed.xid = xidsGetInnermostXid xids ∧
        innermostXr after = uncoveredXr ule ∧ innermostXr after ≠ some .placeholder ∧
        retval = abortRetval ule removed) ∨
      ((∀ removed ∈ ule.puxrs.head?, removed.xid ≠ xidsGetInnermostXid xids) ∧
        after = ule ∧ retval = 0) := by
  simp only [uleApplyAbort, bind_inv] at applied
  obtain ⟨-, -, innermost, found, applied⟩ := applied
  -- With provisional records the innermost one is the newest of them.
  have top : ∀ uxr ∈ ule.puxrs.head?, uxr = innermost := by
    intro uxr member
    simp only [uleGetInnermostUxr, bind_inv] at found
    obtain ⟨-, -, head⟩ := found
    rcases ule with ⟨_ | ⟨first, outer⟩, cuxrs⟩
    · simp at member
    · simpa [← Option.mem_some_iff.mp member] using head
  split at applied
  · rename_i own
    simp only [Option.bind_eq_some_iff, Option.some.injEq,
      Prod.mk.injEq] at applied
    obtain ⟨popped, removal, left, dropped, -, -, rfl, rfl⟩ := applied
    rcases ule with ⟨_ | ⟨first, outer⟩, cuxrs⟩
    · simp at own
    · have same : first = innermost := top first (by simp)
      subst same
      have based : cuxrs ≠ [] := by
        intro empty
        simp [uleRemoveInnermostUxr, empty, invariant] at removal
      rw [uleRemoveInnermostUxr_provisional based] at removal
      cases removal
      obtain ⟨rfl, solid⟩ := dropPlaceholders_result dropped
      exact Or.inl ⟨first, by simp, own.2, rfl, solid, rfl⟩
  · rename_i other
    cases applied
    refine Or.inr ⟨fun removed member same => other ⟨?_, ?_⟩, rfl, rfl⟩
    · exact List.length_pos_of_ne_nil fun empty => by simp [empty] at member
    · rw [← top removed member]; exact same

/-- An abort reports the change that it makes exactly under its condition. -/
theorem uleApplyAbort_delta (applied : uleApplyAbort ule xids = some (after, retval))
    (solid : innermostXr ule ≠ some .placeholder) :
    innermostXr after ≠ some .placeholder ∧
      ((rowPresent after).toNat = (rowPresent ule).toNat + retval ↔ AbortReports ule xids) := by
  rcases uleApplyAbort_cases applied with ⟨removed, top, same, uncovered, solidAfter, rfl⟩ |
    ⟨other, rfl, rfl⟩
  · refine ⟨solidAfter, ?_⟩
    obtain ⟨outer, puxrs⟩ : ∃ outer, ule.puxrs = removed :: outer :=
      ⟨_, (List.head?_eq_some_iff.mp top).choose_spec⟩
    rcases ule with ⟨stack, cuxrs⟩
    simp only at puxrs
    subst puxrs
    have before : innermostXr { puxrs := removed :: outer, cuxrs } = some removed.type := rfl
    have solidTop : removed.type ≠ .placeholder := by simpa [before] using solid
    have condition : AbortReports { puxrs := removed :: outer, cuxrs } xids ↔
        ((outer.length + 1 = 1 ∧ cuxrs.length = 1) ∨ xrPresent (some removed.type) ≠
          xrPresent (uncoveredXr { puxrs := removed :: outer, cuxrs })) := by
      simp [AbortReports, same]
    rw [uncovered] at solidAfter
    rw [condition, rowPresent, rowPresent, uncovered, before]
    by_cases single : outer.length + 1 = 1 ∧ cuxrs.length = 1
    · -- There is only the root record below.
      obtain ⟨bottom, rfl⟩ := List.length_eq_one_iff.mp single.2
      have none : outer = [] := List.length_eq_zero_iff.mp (by omega)
      subst none
      have solidBelow : bottom.type ≠ .placeholder := by simpa [uncoveredXr] using solidAfter
      exact iff_of_true (abortRetval_smallest solidTop solidBelow) (Or.inl single)
    · -- The report is right when the row changes between present and absent.
      have reported : abortRetval { puxrs := removed :: outer, cuxrs } removed =
          if xrPresent (some removed.type) then -1 else 1 := abortRetval_eq solidTop single
      rw [reported]
      simp only [single, false_or]
      cases xrPresent (some removed.type) <;>
        cases xrPresent (uncoveredXr { puxrs := removed :: outer, cuxrs }) <;> simp
  · -- A transaction without a record on top changes nothing and reports nothing.
    exact ⟨solid, iff_of_true (by simp) fun removed top same => absurd same (other removed top)⟩

/-- A commit keeps what the innermost record says. -/
theorem uleApplyCommit_innermost (applied : uleApplyCommit ule xids = some after) :
    innermostXr after = innermostXr ule := by
  simp only [uleApplyCommit, bind_inv] at applied
  obtain ⟨-, -, applied⟩ := applied
  split at applied
  · simp only [Option.bind_eq_some_iff] at applied
    obtain ⟨xid, -, applied⟩ := applied
    split at applied
    · split at applied
      · exact ulePromoteProvisionalInnermostToCommitted_innermost applied
      · exact ulePromoteProvisionalInnermostToIndex_innermost applied
    · cases applied; rfl
  · cases applied; rfl

end Tokuft
