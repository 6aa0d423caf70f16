import Tokuft.Leafentry.Ule

/-! What each operation on an unpacked leaf entry does, stated once for every caller. -/

namespace Tokuft

variable {uxr : Uxr} {outer cuxrs : List Uxr} {ule : Ule}

/-- The innermost record of a stack with provisional records is the newest of them. -/
theorem uleGetInnermostUxr_provisional (based : cuxrs ≠ []) :
    uleGetInnermostUxr { puxrs := uxr :: outer, cuxrs } = some uxr := by
  have positive : 0 < cuxrs.length := List.length_pos_of_ne_nil based
  simp [uleGetInnermostUxr, Ule.numCuxrs, positive]

/-- The innermost record of a stack without provisional records is the newest committed one. -/
@[simp] theorem uleGetInnermostUxr_committed (top : Uxr) (rest : List Uxr) :
    uleGetInnermostUxr { puxrs := [], cuxrs := top :: rest } = some top := by
  simp [uleGetInnermostUxr, Ule.numCuxrs]

/-- Any stack with a committed record has an innermost record. -/
theorem uleGetInnermostUxr_exists (based : ule.cuxrs ≠ []) :
    ∃ uxr, uleGetInnermostUxr ule = some uxr := by
  rcases ule with ⟨_ | ⟨uxr, outer⟩, _ | ⟨top, rest⟩⟩
  · exact absurd rfl based
  · exact ⟨top, uleGetInnermostUxr_committed top rest⟩
  · exact absurd rfl based
  · exact ⟨uxr, uleGetInnermostUxr_provisional (by simp)⟩

/-- Below the nesting bound a provisional push succeeds. -/
theorem ulePushUxr_provisional (room : ule.puxrs.length < maxNestedTransactions) :
    ulePushUxr ule false uxr = some { ule with puxrs := uxr :: ule.puxrs } := by
  have below : ule.numPuxrs < maxTransactionRecords - 1 := room
  simp [ulePushUxr, below]

/-- A committed push succeeds once nothing is provisional. -/
theorem ulePushUxr_committed :
    ulePushUxr { puxrs := [], cuxrs } true uxr = some { puxrs := [], cuxrs := uxr :: cuxrs } := by
  simp [ulePushUxr, Ule.numPuxrs, maxTransactionRecords, maxNestedTransactions]

/-- Removing the innermost record pops the provisional side. -/
theorem uleRemoveInnermostUxr_provisional (based : cuxrs ≠ []) :
    uleRemoveInnermostUxr { puxrs := uxr :: outer, cuxrs } = some { puxrs := outer, cuxrs } := by
  have positive : 0 < cuxrs.length := List.length_pos_of_ne_nil based
  simp [uleRemoveInnermostUxr, Ule.numCuxrs, positive]

/-- Placeholders come off the top until something else shows. -/
theorem dropPlaceholders_eq {top : Uxr} {rest : List Uxr} (solid : uxrIsPlaceholder top = false) :
    ∀ puxrs, dropPlaceholders (top :: rest) puxrs =
      some { puxrs := puxrs.dropWhile uxrIsPlaceholder, cuxrs := top :: rest } := by
  intro puxrs
  induction puxrs with
  | nil => simp [dropPlaceholders, solid]
  | cons uxr outer ih =>
    -- A placeholder is skipped by both sides, and anything else stops both.
    cases placeholder : uxrIsPlaceholder uxr with
    | true => simp [dropPlaceholders, List.dropWhile, placeholder, ih]
    | false => simp [dropPlaceholders, List.dropWhile, placeholder]

/-- The record that keeps the place of a transaction. -/
def placeholderUxr (xid : Nat) : Uxr := { type := .placeholder, xid }

variable {xids : List Nat} {own : Uxr}

/-- Pushing placeholders one by one stacks them in order. -/
theorem foldlM_ulePushPlaceholderUxr (based : cuxrs ≠ []) :
    ∀ (xids : List Nat) (puxrs : List Uxr),
      xids.length + puxrs.length ≤ maxNestedTransactions →
      xids.foldlM ulePushPlaceholderUxr { puxrs, cuxrs } =
        some { puxrs := (xids.map placeholderUxr).reverse ++ puxrs, cuxrs } := by
  have positive : 0 < cuxrs.length := List.length_pos_of_ne_nil based
  intro xids
  induction xids with
  | nil => intro puxrs _; rfl
  | cons xid rest ih =>
    intro puxrs bounded
    -- The first placeholder has room, and the rest are stacked on it.
    have room : puxrs.length < maxNestedTransactions := by simp at bounded; omega
    have pushed : ulePushPlaceholderUxr { puxrs, cuxrs } xid =
        some { puxrs := placeholderUxr xid :: puxrs, cuxrs } := by
      simp [ulePushPlaceholderUxr, Ule.numCuxrs, positive, ulePushUxr_provisional, room,
        placeholderUxr]
    rw [List.foldlM_cons, pushed]
    simp only [bind_runs]
    rw [ih _ (by simp at bounded ⊢; omega)]
    simp

/-- Promotion to the committed side keeps the innermost value and the outermost transaction. -/
theorem ulePromoteProvisionalInnermostToCommitted_eq {innermost : Uxr} (based : cuxrs ≠ [])
    (solid : innermost.type ≠ .placeholder) :
    ulePromoteProvisionalInnermostToCommitted { puxrs := innermost :: outer, cuxrs } =
      some { puxrs := [],
             cuxrs := { type := innermost.type,
                        xid := ((innermost :: outer).getLast (by simp)).xid } :: cuxrs } := by
  have last : (innermost :: outer).getLast? = some ((innermost :: outer).getLast (by simp)) :=
    List.getLast?_eq_some_getLast (by simp)
  -- The two solid kinds of record are pushed back under the outermost transaction.
  cases kind : innermost.type with
  | placeholder => exact absurd kind solid
  | delete =>
    simp [ulePromoteProvisionalInnermostToCommitted, Ule.numPuxrs,
      uleGetInnermostUxr_provisional based, uleGetOutermostProvisional, last, kind,
      ulePushDeleteUxr, ulePushUxr_committed]
  | insert val =>
    simp [ulePromoteProvisionalInnermostToCommitted, Ule.numPuxrs,
      uleGetInnermostUxr_provisional based, uleGetOutermostProvisional, last, kind,
      ulePushInsertUxr, ulePushUxr_committed]

/-- Promotion to a provisional record keeps the innermost value and that record's transaction. -/
theorem ulePromoteProvisionalInnermostToIndex_eq {innermost target : Uxr} {between : List Uxr}
    (based : cuxrs ≠ []) (solid : innermost.type ≠ .placeholder)
    (room : outer.length < maxNestedTransactions) :
    ulePromoteProvisionalInnermostToIndex
        { puxrs := innermost :: between ++ target :: outer, cuxrs } outer.length =
      some { puxrs := { type := innermost.type, xid := target.xid } :: outer, cuxrs } := by
  -- Counting from the outermost record, the target stands right above the kept ones.
  have kept : (innermost :: between ++ target :: outer).drop
      ((innermost :: between ++ target :: outer).length - 1 - outer.length) = target :: outer := by
    have depth : (innermost :: between ++ target :: outer).length - 1 - outer.length =
        (innermost :: between).length := by
      simp only [List.length_append, List.length_cons]
      omega
    rw [depth, List.drop_left]
  have above : outer.length + 1 < (innermost :: between ++ target :: outer).length := by
    simp only [List.length_append, List.length_cons]
    omega
  have top : uleGetInnermostUxr { puxrs := innermost :: between ++ target :: outer, cuxrs } =
      some innermost := uleGetInnermostUxr_provisional based
  have pushed (type : Xr) : ulePushUxr { puxrs := outer, cuxrs } false { type, xid := target.xid } =
      some { puxrs := { type, xid := target.xid } :: outer, cuxrs } := ulePushUxr_provisional room
  simp only [ulePromoteProvisionalInnermostToIndex, Ule.numPuxrs, invariant_of above, kept, top,
    bind_runs]
  cases kind : innermost.type with
  | placeholder => exact absurd kind solid
  | delete => exact pushed .delete
  | insert val => exact pushed (.insert val)

/-- Two stacks that start alike agree at least that far. -/
theorem icaDepth_append (xids : List Nat) (more : List Uxr) :
    ∀ uxrs : List Uxr, icaDepth (uxrs.map Uxr.xid ++ xids) (uxrs ++ more) =
      uxrs.length + icaDepth xids more := by
  intro uxrs
  induction uxrs with
  | nil => simp
  | cons uxr rest ih => simp [icaDepth, ih]; omega

/-- Two stacks that differ at once have no common ancestor. -/
theorem icaDepth_apart {uxrs : List Uxr}
    (apart : ∀ xid ∈ xids.head?, ∀ uxr ∈ uxrs.head?, xid ≠ uxr.xid) : icaDepth xids uxrs = 0 := by
  rcases xids with _ | ⟨xid, rest⟩
  · simp [icaDepth]
  · rcases uxrs with _ | ⟨uxr, more⟩
    · simp [icaDepth]
    · have differ : xid ≠ uxr.xid := apart xid (by simp) uxr (by simp)
      simp [icaDepth, differ]

/-- A leaf entry whose stack is an outer part of the message's stack needs no promotion. -/
theorem uleDoImplicitPromotions_aligned
    (aligned : ∃ inner, xids = (ule.puxrs.map Uxr.xid).reverse ++ inner) :
    uleDoImplicitPromotions ule xids = some ule := by
  obtain ⟨inner, rfl⟩ := aligned
  -- The common ancestor is the innermost record itself.
  have depth : icaDepth ((ule.puxrs.map Uxr.xid).reverse ++ inner) ule.puxrs.reverse =
      ule.puxrs.length := by
    have agree := icaDepth_append inner [] ule.puxrs.reverse
    simpa [icaDepth] using agree
  by_cases empty : ule.numPuxrs = 0
  · simp [uleDoImplicitPromotions, empty]
  · obtain ⟨index, count⟩ := Nat.exists_eq_succ_of_ne_zero empty
    have count : ule.puxrs.length = index + 1 := count
    have sent : 0 < ((ule.puxrs.map Uxr.xid).reverse ++ inner).length := by
      simp only [List.length_append, List.length_reverse, List.length_map, count]
      omega
    simp only [uleDoImplicitPromotions, invariant_of sent, depth, Ule.numPuxrs, count]
    simp

/--
Records that the message's stack no longer shares are folded into the innermost shared one.

The records above the common ancestor belong to transactions that committed without a message.
-/
theorem uleDoImplicitPromotions_stale {dead : Uxr} {deads shared : List Uxr} {inner : List Nat}
    (based : cuxrs ≠ []) (solid : dead.type ≠ .placeholder)
    (room : shared.length ≤ maxNestedTransactions)
    (common : xids = (shared.map Uxr.xid).reverse ++ inner) (sent : xids ≠ [])
    (apart : ∀ xid ∈ inner.head?, ∀ uxr ∈ (dead :: deads).getLast?, xid ≠ uxr.xid) :
    uleDoImplicitPromotions { puxrs := dead :: deads ++ shared, cuxrs } xids =
      some (match shared with
        | [] =>
          { puxrs := []
            cuxrs := { type := dead.type, xid := ((dead :: deads).getLast (by simp)).xid } :: cuxrs }
        | target :: outer =>
          { puxrs := { type := dead.type, xid := target.xid } :: outer, cuxrs }) := by
  have positive : 0 < xids.length := List.length_pos_of_ne_nil sent
  -- The stacks agree exactly on the shared records.
  have depth : icaDepth xids (dead :: deads ++ shared).reverse = shared.length := by
    have agree := icaDepth_append inner (dead :: deads).reverse shared.reverse
    have none : icaDepth inner (dead :: deads).reverse = 0 :=
      icaDepth_apart (by simpa only [List.head?_reverse] using apart)
    rw [none] at agree
    simpa [common] using agree
  have provisional : (dead :: deads ++ shared).length ≠ 0 := by simp
  simp only [uleDoImplicitPromotions, Ule.numPuxrs, if_neg provisional, invariant_of positive,
    depth, bind_runs]
  cases shared with
  | nil => simpa using ulePromoteProvisionalInnermostToCommitted_eq based solid
  | cons target outer =>
    have inside : outer.length + 1 < (dead :: deads ++ target :: outer).length := by
      simp only [List.length_append, List.length_cons]
      omega
    have below : outer.length < maxNestedTransactions := by simp at room; omega
    simp only [List.length_cons] at inside ⊢
    rw [if_pos inside]
    exact ulePromoteProvisionalInnermostToIndex_eq based solid below

/-- An abort leaves a leaf entry alone when the transaction has no record on top of it. -/
theorem uleApplyAbort_absent (based : ule.cuxrs ≠ []) (named : xidsGetInnermostXid xids ≠ txnidNone)
    (absent : ∀ uxr ∈ ule.puxrs.head?, uxr.xid ≠ xidsGetInnermostXid xids) :
    uleApplyAbort ule xids = some (ule, 0) := by
  obtain ⟨innermost, found⟩ := uleGetInnermostUxr_exists based
  rcases ule with ⟨_ | ⟨uxr, outer⟩, cuxrs⟩
  · simp [uleApplyAbort, named, found]
  · have same : uleGetInnermostUxr { puxrs := uxr :: outer, cuxrs } = some uxr :=
      uleGetInnermostUxr_provisional based
    have differ : uxr.xid ≠ xidsGetInnermostXid xids := absent uxr (by simp)
    simp [uleApplyAbort, named, same, differ]

/-- An abort removes the transaction's record and the placeholders below it. -/
theorem uleApplyAbort_own {top : Uxr} {rest : List Uxr} (solid : uxrIsPlaceholder top = false)
    (named : own.xid ≠ txnidNone) (same : own.xid = xidsGetInnermostXid xids) :
    uleApplyAbort { puxrs := own :: outer, cuxrs := top :: rest } xids =
      some ({ puxrs := outer.dropWhile uxrIsPlaceholder, cuxrs := top :: rest },
        abortRetval { puxrs := own :: outer, cuxrs := top :: rest } own) := by
  have innermost : uleGetInnermostUxr { puxrs := own :: outer, cuxrs := top :: rest } = some own :=
    uleGetInnermostUxr_provisional (by simp)
  have removed : uleRemoveInnermostUxr { puxrs := own :: outer, cuxrs := top :: rest } =
      some { puxrs := outer, cuxrs := top :: rest } := uleRemoveInnermostUxr_provisional (by simp)
  simp [uleApplyAbort, ← same, named, innermost, removed, uleRemoveInnermostPlaceholders,
    dropPlaceholders_eq solid]

/-- A commit leaves a leaf entry alone when the transaction has no record on top of it. -/
theorem uleApplyCommit_absent (named : xidsGetInnermostXid xids ≠ txnidNone)
    (absent : ∀ uxr ∈ ule.puxrs.head?, uxr.xid ≠ xidsGetInnermostXid xids) :
    uleApplyCommit ule xids = some ule := by
  rcases ule with ⟨_ | ⟨uxr, outer⟩, cuxrs⟩
  · simp [uleApplyCommit, named]
  · have differ : uxr.xid ≠ xidsGetInnermostXid xids := absent uxr (by simp)
    simp [uleApplyCommit, named, uleGetInnermostXid, differ]

/-- A commit of a root makes its record the newest committed one. -/
theorem uleApplyCommit_root (based : cuxrs ≠ []) (solid : own.type ≠ .placeholder)
    (named : own.xid ≠ txnidNone) (same : own.xid = xidsGetInnermostXid xids) :
    uleApplyCommit { puxrs := [own], cuxrs } xids =
      some { puxrs := [], cuxrs := own :: cuxrs } := by
  have promoted : ulePromoteProvisionalInnermostToCommitted { puxrs := own :: [], cuxrs } = _ :=
    ulePromoteProvisionalInnermostToCommitted_eq based solid
  simpa [uleApplyCommit, ← same, named, uleGetInnermostXid] using promoted

/-- A commit of a child hands its value to its parent's record. -/
theorem uleApplyCommit_nested {parent : Uxr} (based : cuxrs ≠ []) (solid : own.type ≠ .placeholder)
    (named : own.xid ≠ txnidNone) (same : own.xid = xidsGetInnermostXid xids)
    (room : outer.length < maxNestedTransactions) :
    uleApplyCommit { puxrs := own :: parent :: outer, cuxrs } xids =
      some { puxrs := { type := own.type, xid := parent.xid } :: outer, cuxrs } := by
  have promoted : ulePromoteProvisionalInnermostToIndex
      { puxrs := own :: [] ++ parent :: outer, cuxrs } outer.length =
      some { puxrs := { type := own.type, xid := parent.xid } :: outer, cuxrs } :=
    ulePromoteProvisionalInnermostToIndex_eq based solid room
  simpa [uleApplyCommit, ← same, named, uleGetInnermostXid, Ule.numPuxrs] using promoted

end Tokuft
