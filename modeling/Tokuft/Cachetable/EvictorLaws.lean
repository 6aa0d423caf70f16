import Tokuft.Cachetable.Evictor

/-! By how much the counters of a cache move when they are told what a value takes. -/

namespace Tokuft

/-- What is counted of a value. -/
inductive Counted where
  | size
  | nonleaf
  | leaf
  | rollback
  | cachePressure

/-- What a value takes, by what is counted. -/
def PairAttr.takes (attr : PairAttr) : Counted → Int
  | .size => attr.size
  | .nonleaf => attr.nonleafSize
  | .leaf => attr.leafSize
  | .rollback => attr.rollbackSize
  | .cachePressure => attr.cachePressureSize

/-- Nothing is counted of a value that was not read yet. -/
@[simp] theorem zeroAttr_takes (counted : Counted) : zeroAttr.takes counted = 0 := by
  cases counted <;> rfl

namespace Evictor

/-- What the counters tell of values, without clones and reserved memory. -/
def tells (ev : Evictor) : Counted → Int
  | .size => ev.sizeCurrent - ev.sizeClonedData - ev.sizeReserved
  | .nonleaf => ev.sizeNonleaf
  | .leaf => ev.sizeLeaf
  | .rollback => ev.sizeRollback
  | .cachePressure => ev.sizeCachepressure

/-- By how much the counters of values, of clones and of evictions go up. -/
structure Moves (ev after : Evictor) (takes : Counted → Int) (cloned evicting : Int) : Prop where
  tells : ∀ counted, after.tells counted = ev.tells counted + takes counted
  cloned : after.sizeClonedData = ev.sizeClonedData + cloned
  evicting : after.sizeEvicting = ev.sizeEvicting + evicting

variable {ev middle after : Evictor} {takes takes' : Counted → Int}
  {cloned cloned' evicting evicting' : Int}

/-- Nothing moves. -/
theorem Moves.refl (ev : Evictor) : ev.Moves ev (fun _ => 0) 0 0 :=
  ⟨fun _ => (Int.add_zero _).symm, (Int.add_zero _).symm, (Int.add_zero _).symm⟩

/-- One move after another. -/
theorem Moves.trans (first : ev.Moves middle takes cloned evicting)
    (second : middle.Moves after takes' cloned' evicting') :
    ev.Moves after (fun counted => takes counted + takes' counted) (cloned + cloned')
      (evicting + evicting') where
  tells := fun counted => by rw [second.tells, first.tells, Int.add_assoc]
  cloned := by rw [second.cloned, first.cloned, Int.add_assoc]
  evicting := by rw [second.evicting, first.evicting, Int.add_assoc]

/-- A value is counted. -/
theorem addPairAttr_moves (ev : Evictor) {attr : PairAttr} (valid : attr.isValid = true) :
    ∃ after, ev.addPairAttr attr = some after ∧ ev.Moves after attr.takes 0 0 := by
  rw [addPairAttr, invariant_of valid]
  refine ⟨_, rfl, fun counted => ?_, (Int.add_zero _).symm, (Int.add_zero _).symm⟩
  -- Only the size is counted together with other memory.
  cases counted <;> simp only [tells, PairAttr.takes]
  all_goals ring

/-- A value is not counted any more. -/
theorem removePairAttr_moves (ev : Evictor) {attr : PairAttr} (valid : attr.isValid = true) :
    ∃ after, ev.removePairAttr attr = some after ∧
      ev.Moves after (fun counted => -attr.takes counted) 0 0 := by
  rw [removePairAttr, invariant_of valid]
  refine ⟨_, rfl, fun counted => ?_, (Int.add_zero _).symm, (Int.add_zero _).symm⟩
  cases counted <;> simp only [tells, PairAttr.takes]
  all_goals ring

/-- A value is counted with what it takes now. -/
theorem changePairAttr_moves (ev : Evictor) {oldAttr newAttr : PairAttr}
    (old : oldAttr.isValid = true) (new : newAttr.isValid = true) :
    ∃ after, ev.changePairAttr oldAttr newAttr = some after ∧
      ev.Moves after (fun counted => newAttr.takes counted - oldAttr.takes counted) 0 0 := by
  -- What it takes now is added first, and what it took is removed then.
  obtain ⟨middle, added, first⟩ := ev.addPairAttr_moves new
  obtain ⟨after, removed, second⟩ := middle.removePairAttr_moves old
  refine ⟨after, ?_, first.trans second⟩
  rw [changePairAttr, added]
  exact removed

/-- A clone is counted in two counters. -/
theorem addClonedDataSize_moves (ev : Evictor) (size : Nat) :
    ev.Moves (ev.addClonedDataSize size) (fun _ => 0) size 0 := by
  refine ⟨fun counted => ?_, rfl, (Int.add_zero _).symm⟩
  cases counted <;> simp only [tells, addClonedDataSize]
  all_goals ring

/-- A clone is taken from both counters. -/
theorem removeClonedDataSize_moves (ev : Evictor) (size : Nat) :
    ev.Moves (ev.removeClonedDataSize size) (fun _ => 0) (-size) 0 := by
  refine ⟨fun counted => ?_, rfl, (Int.add_zero _).symm⟩
  cases counted <;> simp only [tells, removeClonedDataSize]
  all_goals ring

/-- Reserved memory is counted apart from the values. -/
theorem reserveMemory_moves (ev : Evictor) (share upperBound : Nat) :
    ev.Moves (ev.reserveMemory share upperBound) (fun _ => 0) 0 0 := by
  refine ⟨fun counted => ?_, (Int.add_zero _).symm, (Int.add_zero _).symm⟩
  cases counted <;> simp only [tells, reserveMemory]
  all_goals ring

/-- Giving back reserved memory leaves what is counted of the values. -/
theorem releaseReservedMemory_moves (ev : Evictor) (reservedMemory : Nat) :
    ev.Moves (ev.releaseReservedMemory reservedMemory) (fun _ => 0) 0 0 := by
  refine ⟨fun counted => ?_, (Int.add_zero _).symm, (Int.add_zero _).symm⟩
  cases counted <;> simp only [tells, releaseReservedMemory]
  all_goals ring

/-- An eviction is counted. -/
theorem increaseSizeEvicting_moves (ev : Evictor) (sizeEvictingEstimate : Int) :
    ev.Moves (ev.increaseSizeEvicting sizeEvictingEstimate) (fun _ => 0) 0
      sizeEvictingEstimate := by
  refine ⟨fun counted => ?_, (Int.add_zero _).symm, rfl⟩
  cases counted <;> simp only [tells, increaseSizeEvicting]
  all_goals ring

/-- The end of an eviction is counted when the eviction was. -/
theorem decreaseSizeEvicting_moves {sizeEvictingEstimate : Int} (ev : Evictor)
    (estimate : 0 ≤ sizeEvictingEstimate) (counted : sizeEvictingEstimate ≤ ev.sizeEvicting) :
    ∃ after, ev.decreaseSizeEvicting sizeEvictingEstimate = some after ∧
      ev.Moves after (fun _ => 0) 0 (-sizeEvictingEstimate) := by
  by_cases positive : 0 < sizeEvictingEstimate
  · have enough : 0 ≤ ev.sizeEvicting - sizeEvictingEstimate := by omega
    rw [decreaseSizeEvicting, if_pos positive, invariant_of enough]
    refine ⟨_, rfl, fun counted => ?_, (Int.add_zero _).symm, rfl⟩
    cases counted <;> simp only [tells]
    all_goals ring
  · -- An estimate of zero was not counted.
    have none : sizeEvictingEstimate = 0 := by omega
    subst none
    exact ⟨ev, if_neg positive, .refl ev⟩

end Evictor

end Tokuft
