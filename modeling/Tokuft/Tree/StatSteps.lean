import Tokuft.Tree.StatFt

/-! Which leaves each step puts in the place of which others, and what it adds to the counts. -/

namespace Tokuft

variable {Key : Type} (sizes : KeySizes Key)

/-- What garbage collection leaves of a basement node; without transactions that is all of it. -/
def BnCollected : Option TxnGcInfo → StatBn Key → StatBn Key → Prop
  | none, bn, after => after = bn
  | some gcInfo, bn, after => ∃ delta, bn.gcAllLes sizes gcInfo = some (after, delta)

/-- Garbage collection counts what it changes in memory and in the basement nodes. -/
theorem leafRunGc_spec {gcInfo : Option TxnGcInfo} {bns collected : List (StatBn Key)}
    {ft after : StatFt Key} (ran : ft.leafRunGc sizes gcInfo bns = some (after, collected)) :
    ∃ delta, after = { ft with inMemoryStats := ft.inMemoryStats + delta } ∧
      bnsDeltas collected = bnsDeltas bns + delta ∧
      List.Forall₂ (BnCollected sizes gcInfo) bns collected := by
  cases gcInfo with
  | none =>
    cases ran
    refine ⟨0, by rw [add_zero], (add_zero _).symm, ?_⟩
    exact List.forall₂_same.mpr fun bn _ => rfl
  | some gcInfo =>
    rw [StatFt.leafRunGc] at ran
    -- One basement node after the other adds what it tells to the count.
    induction bns generalizing ft collected with
    | nil =>
      cases ran
      exact ⟨0, by rw [add_zero], (add_zero _).symm, .nil⟩
    | cons bn rest ih =>
      simp only [StatFt.leafGcAllLes, bind_inv, Prod.mk.injEq, Prod.exists] at ran
      obtain ⟨here, delta, first, last, others, later, rfl, rfl⟩ := ran
      obtain ⟨more, same, deltas, each⟩ := ih later
      have told : here.stat64Delta = bn.stat64Delta + delta := by
        simp only [StatBn.gcAllLes, bind_inv, Prod.mk.injEq, Prod.exists] at first
        obtain ⟨rows, _, _, rfl, rfl⟩ := first
        rfl
      refine ⟨delta + more, ?_, ?_, .cons ⟨delta, first⟩ each⟩
      · rw [same, ← add_assoc]
      · rw [bnsDeltas_cons, bnsDeltas_cons, deltas, told]
        abel

/-- The header counts the changes that it takes from the basement nodes. -/
theorem updateDiskStats_spec {forCheckpoint : Bool} {bns cleared : List (StatBn Key)}
    {ft after : StatFt Key}
    (updated : ft.updateDiskStats bns forCheckpoint = some (after, cleared)) :
    cleared = (getAndClearBasementStats bns).1 ∧ ∃ stats, after = { ft with
      onDiskStats := ft.onDiskStats + bnsDeltas bns, checkpointStats := stats } := by
  rw [StatFt.updateDiskStats] at updated
  cases forCheckpoint with
  | false =>
    cases updated
    exact ⟨rfl, ft.checkpointStats, rfl⟩
  | true =>
    obtain ⟨stats, started, updated⟩ := of_bind updated
    cases updated
    exact ⟨rfl, _, rfl⟩

/-- What an event does to leaves, from an index on: which they are before and after, and what the
count in memory and the count of the header gain. -/
inductive LeafChange : StatEvent Key → Nat → List (StatLeaf Key) → List (StatLeaf Key) →
    Stat64Info → Stat64Info → Prop where
  | applyMsg {i j : Nat} {msg : FtMsg Key} {gcInfo : TxnGcInfo} {leaf : StatLeaf Key}
      {bn : StatBn Key} {rows : BnRows Key} {delta : Stat64Info}
      (here : leaf.bps[j]? = some (some bn))
      (told : rowsStats sizes bn.rows + delta = rowsStats sizes rows) :
      LeafChange (.applyMsg i j msg gcInfo) i [leaf]
        [{ leaf with bps := leaf.bps.set j (some ⟨rows, bn.stat64Delta + delta⟩) }] delta 0
  | setDirty {i : Nat} {leaf : StatLeaf Key} {bns : List (StatBn Key)}
      (whole : leaf.bps = bns.map some) :
      LeafChange (.setDirty i) i [leaf] [{ leaf with dirty := true }] 0 0
  | split {i numLeftBns numLeftLes : Nat} {leaf : StatLeaf Key} {bns left right : List (StatBn Key)}
      (whole : leaf.bps = bns.map some)
      (taken : statLeafSplit bns numLeftBns numLeftLes = some (left, right)) :
      LeafChange (.split i numLeftBns numLeftLes) i [leaf]
        [{ leaf with bps := left.map some, dirty := true, reshaped := true },
          ⟨right.map some, true, [], none, true⟩] 0 0
  | merge {i : Nat} {a b : StatLeaf Key} {bnsA bnsB bns : List (StatBn Key)}
      (wholeA : a.bps = bnsA.map some) (wholeB : b.bps = bnsB.map some)
      (merged : statMergeLeafNodes bnsA bnsB = some bns) :
      LeafChange (.merge i) i [a, b]
        [{ a with bps := bns.map some, dirty := true, reshaped := true }] 0 0
  | balance {i numLeftBns numLeftLes : Nat} {a b : StatLeaf Key}
      {bnsA bnsB bns left right : List (StatBn Key)}
      (wholeA : a.bps = bnsA.map some) (wholeB : b.bps = bnsB.map some)
      (merged : statMergeLeafNodes bnsA bnsB = some bns)
      (taken : statLeafSplit bns numLeftBns numLeftLes = some (left, right)) :
      LeafChange (.balance i numLeftBns numLeftLes) i [a, b]
        [{ a with bps := left.map some, dirty := true, reshaped := true },
          { b with bps := right.map some, dirty := true, reshaped := true }] 0 0
  | write {i : Nat} {forCheckpoint : Bool} {gcInfo : Option TxnGcInfo} {lengths : List Nat}
      {leaf : StatLeaf Key} {bns collected bnsAfter : List (StatBn Key)} {delta : Stat64Info}
      (noClone : leaf.clone = none) (whole : leaf.bps = bns.map some)
      (each : List.Forall₂ (BnCollected sizes gcInfo) bns collected)
      (deltas : bnsDeltas collected = bnsDeltas bns + delta)
      (divided : leafRegroup lengths (bnsRows collected) = some bnsAfter) :
      LeafChange (.write i forCheckpoint gcInfo lengths) i [leaf]
        [{ leaf with
          bps := bnsAfter.map some, dirty := false, onDisk := bnsAfter.map StatBn.rows,
          reshaped := false }] delta (bnsDeltas collected)
  | cloneLeaf {i : Nat} {forCheckpoint : Bool} {lengths : List Nat} {leaf : StatLeaf Key}
      {bns bnsAfter : List (StatBn Key)} (whole : leaf.bps = bns.map some)
      (divided : leafRegroup lengths (bnsRows bns) = some bnsAfter) :
      LeafChange (.cloneLeaf i forCheckpoint lengths) i [leaf]
        [{ leaf with
          bps := bnsAfter.map some, dirty := false, clone := some bnsAfter,
          reshaped := false }] 0 (bnsDeltas bns)
  | writeClone {i : Nat} {gcInfo : Option TxnGcInfo} {leaf : StatLeaf Key}
      {bns collected : List (StatBn Key)} (waiting : leaf.clone = some bns)
      (each : List.Forall₂ (BnCollected sizes gcInfo) bns collected) :
      LeafChange (.writeClone i gcInfo) i [leaf]
        [{ leaf with onDisk := collected.map StatBn.rows, clone := none }] (-bnsDeltas bns) 0
  | evictBn {i j : Nat} {leaf : StatLeaf Key} {bn : StatBn Key} (clean : leaf.dirty = false)
      (here : leaf.bps[j]? = some (some bn)) :
      LeafChange (.evictBn i j) i [leaf] [{ leaf with bps := leaf.bps.set j none }]
        (-bn.stat64Delta) 0
  | evict {i : Nat} {leaf : StatLeaf Key} (clean : leaf.dirty = false) :
      LeafChange (.evict i) i [leaf] [{ leaf with bps := leaf.bps.map fun _ => none }] 0 0
  | fetch {i j : Nat} {leaf : StatLeaf Key} {rows : BnRows Key} (noClone : leaf.clone = none)
      (here : leaf.bps[j]? = some none) (image : leaf.onDisk[j]? = some rows) :
      LeafChange (.fetch i j) i [leaf] [{ leaf with bps := leaf.bps.set j (some ⟨rows, 0⟩) }] 0 0

/-- A step changes leaves that stand next to each other, and adds to the counts what the change
says. -/
def Changes (ft : StatFt Key) (event : StatEvent Key) (after : StatFt Key) : Prop :=
  ∃ i old new inMemory onDisk, LeafChange sizes event i old new inMemory onDisk ∧
    (ft.leaves.drop i).take old.length = old ∧
    after.inMemoryStats = ft.inMemoryStats + inMemory ∧
    after.onDiskStats = ft.onDiskStats + onDisk ∧
    after.leaves = splice ft.leaves i old.length new

variable {sizes} {ft after : StatFt Key} {event : StatEvent Key}

/-- A step that puts one leaf in the place of another one changes leaves. -/
theorem changes_of_set {i : Nat} {leaf new : StatLeaf Key} {inMemory onDisk : Stat64Info}
    (here : ft.leaves[i]? = some leaf)
    (change : LeafChange sizes event i [leaf] [new] inMemory onDisk)
    (counted : after.inMemoryStats = ft.inMemoryStats + inMemory)
    (header : after.onDiskStats = ft.onDiskStats + onDisk)
    (placed : after.leaves = ft.leaves.set i new) : Changes sizes ft event after := by
  rw [set_eq_splice here] at placed
  exact ⟨i, [leaf], [new], inMemory, onDisk, change, stretch_one here, counted, header, placed⟩

variable [LinearOrder Key] {updateFun : UpdateFunc Key}

/-- Every step changes leaves in one of these ways, or only touches the header of a checkpoint. -/
theorem StatFt.next_cases (taken : ft.next sizes updateFun event = some after) :
    (∃ stats, after = { ft with checkpointStats := stats }) ∨ Changes sizes ft event after := by
  cases event with
  | applyMsg i j msg gcInfo =>
    right
    obtain ⟨leaf, here, taken⟩ := of_bind taken
    obtain ⟨bp, there, taken⟩ := of_bind taken
    obtain ⟨bn, found, taken⟩ := of_bind taken
    obtain ⟨⟨rows, delta⟩, applied, taken⟩ := of_bind taken
    cases taken
    subst found
    have told := rowsApplyMsg_stats applied
    exact changes_of_set here (.applyMsg there told) rfl (add_zero _).symm rfl
  | setDirty i =>
    right
    obtain ⟨leaf, here, taken⟩ := of_bind taken
    obtain ⟨bns, whole, taken⟩ := of_bind taken
    cases taken
    exact changes_of_set here (.setDirty (bps_of_assertFullyInMemory whole)) (add_zero _).symm
      (add_zero _).symm rfl
  | split i numLeftBns numLeftLes =>
    right
    obtain ⟨leaf, here, taken⟩ := of_bind taken
    obtain ⟨bns, whole, taken⟩ := of_bind taken
    obtain ⟨⟨left, right⟩, split, taken⟩ := of_bind taken
    cases taken
    -- One leaf gives way to two.
    exact ⟨i, _, _, 0, 0, .split (bps_of_assertFullyInMemory whole) split, stretch_one here,
      (add_zero _).symm, (add_zero _).symm, rfl⟩
  | merge i =>
    right
    obtain ⟨a, here, taken⟩ := of_bind taken
    obtain ⟨b, next, taken⟩ := of_bind taken
    obtain ⟨bnsA, wholeA, taken⟩ := of_bind taken
    obtain ⟨bnsB, wholeB, taken⟩ := of_bind taken
    obtain ⟨bns, merged, taken⟩ := of_bind taken
    cases taken
    -- Two leaves give way to one.
    exact ⟨i, _, _, 0, 0, .merge (bps_of_assertFullyInMemory wholeA)
      (bps_of_assertFullyInMemory wholeB) merged, stretch_two here next, (add_zero _).symm,
      (add_zero _).symm, rfl⟩
  | balance i numLeftBns numLeftLes =>
    right
    obtain ⟨a, here, taken⟩ := of_bind taken
    obtain ⟨b, next, taken⟩ := of_bind taken
    obtain ⟨bnsA, wholeA, taken⟩ := of_bind taken
    obtain ⟨bnsB, wholeB, taken⟩ := of_bind taken
    obtain ⟨bns, merged, taken⟩ := of_bind taken
    obtain ⟨⟨left, right⟩, split, taken⟩ := of_bind taken
    cases taken
    exact ⟨i, _, _, 0, 0, .balance (bps_of_assertFullyInMemory wholeA)
      (bps_of_assertFullyInMemory wholeB) merged split, stretch_two here next, (add_zero _).symm,
      (add_zero _).symm, rfl⟩
  | write i forCheckpoint gcInfo lengths =>
    right
    obtain ⟨leaf, here, taken⟩ := of_bind taken
    obtain ⟨⟨-, alone⟩, taken⟩ := of_invariant taken
    obtain ⟨bns, whole, taken⟩ := of_bind taken
    obtain ⟨⟨ftGc, collected⟩, ran, taken⟩ := of_bind taken
    obtain ⟨⟨ftDisk, cleared⟩, updated, taken⟩ := of_bind taken
    obtain ⟨bnsAfter, divided, taken⟩ := of_bind taken
    cases taken
    obtain ⟨delta, rfl, deltas, each⟩ := leafRunGc_spec sizes ran
    obtain ⟨rfl, stats, rfl⟩ := updateDiskStats_spec updated
    rw [bnsRows_cleared] at divided
    exact changes_of_set here (.write (Option.isNone_iff_eq_none.mp alone)
      (bps_of_assertFullyInMemory whole) each deltas divided) rfl rfl rfl
  | cloneLeaf i forCheckpoint lengths =>
    right
    obtain ⟨leaf, here, taken⟩ := of_bind taken
    obtain ⟨-, taken⟩ := of_invariant taken
    obtain ⟨bns, whole, taken⟩ := of_bind taken
    obtain ⟨⟨ftDisk, cleared⟩, updated, taken⟩ := of_bind taken
    obtain ⟨bnsAfter, divided, taken⟩ := of_bind taken
    cases taken
    obtain ⟨rfl, stats, rfl⟩ := updateDiskStats_spec updated
    rw [bnsRows_cleared] at divided
    exact changes_of_set here (.cloneLeaf (bps_of_assertFullyInMemory whole) divided)
      (add_zero _).symm rfl rfl
  | writeClone i gcInfo =>
    right
    obtain ⟨leaf, here, taken⟩ := of_bind taken
    obtain ⟨bns, waiting, taken⟩ := of_bind taken
    obtain ⟨⟨ftGc, collected⟩, ran, taken⟩ := of_bind taken
    cases taken
    obtain ⟨delta, rfl, deltas, each⟩ := leafRunGc_spec sizes ran
    -- What garbage collection of the clone has counted is taken back with all it was cloned with.
    have counted : ft.inMemoryStats + delta + -bnsDeltas collected =
        ft.inMemoryStats + -bnsDeltas bns := by
      rw [deltas]
      abel
    exact changes_of_set here (.writeClone waiting each) counted (add_zero _).symm rfl
  | evictBn i j =>
    right
    obtain ⟨leaf, here, taken⟩ := of_bind taken
    obtain ⟨clean, taken⟩ := of_invariant taken
    obtain ⟨bp, there, taken⟩ := of_bind taken
    obtain ⟨bn, found, taken⟩ := of_bind taken
    cases taken
    subst found
    exact changes_of_set here (.evictBn clean there) rfl (add_zero _).symm rfl
  | evict i =>
    right
    obtain ⟨leaf, here, taken⟩ := of_bind taken
    obtain ⟨⟨clean, -⟩, taken⟩ := of_invariant taken
    cases taken
    exact changes_of_set here (.evict clean) (add_zero _).symm (add_zero _).symm rfl
  | fetch i j =>
    right
    obtain ⟨leaf, here, taken⟩ := of_bind taken
    obtain ⟨alone, taken⟩ := of_invariant taken
    obtain ⟨bp, there, taken⟩ := of_bind taken
    obtain ⟨absent, taken⟩ := of_invariant taken
    obtain ⟨rows, image, taken⟩ := of_bind taken
    cases taken
    rw [Option.isNone_iff_eq_none.mp absent] at there
    exact changes_of_set here (.fetch (Option.isNone_iff_eq_none.mp alone) there image)
      (add_zero _).symm (add_zero _).symm rfl
  | beginCheckpoint =>
    obtain ⟨-, taken⟩ := of_invariant taken
    cases taken
    exact Or.inl ⟨_, rfl⟩
  | endCheckpoint =>
    obtain ⟨-, taken⟩ := of_invariant taken
    cases taken
    exact Or.inl ⟨_, rfl⟩

end Tokuft
