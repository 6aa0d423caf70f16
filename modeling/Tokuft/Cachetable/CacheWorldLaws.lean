import Tokuft.Cachetable.CacheWorld
import Tokuft.Cachetable.EvictorLaws
import Tokuft.Library.SplicedList

/-! What happens to the values of a cache keeps the counters in step with them. -/

namespace Tokuft

namespace PairLock

/-- If the lock is held for writing, then by a client. -/
def Quiet (lock : PairLock) : Prop := ∀ user, lock = .writer user → user = .client

variable {lock after : PairLock}

/-- A free lock is not held for writing. -/
theorem quiet_free : Quiet .free := nofun

/-- A client holds the lock. -/
theorem quiet_client : Quiet (.writer .client) := fun user same => by
  cases same
  rfl

/-- A checkpoint finds a lock free or held by its client. -/
theorem quiet_of_free_or_client (held : lock = .free ∨ lock = .writer .client) : lock.Quiet := by
  rcases held with rfl | rfl
  · exact quiet_free
  · exact quiet_client

/-- Readers only join readers. -/
theorem quiet_readLock (joined : lock.readLock = some after) : lock.Quiet ∧ after.Quiet := by
  cases lock with
  | free =>
    cases joined
    exact ⟨nofun, nofun⟩
  | readers n =>
    cases joined
    exact ⟨nofun, nofun⟩
  | writer user => cases joined

/-- Clients only give back locks that clients have. -/
theorem quiet_unlock (left : lock.unlock = some after) : lock.Quiet ∧ after.Quiet := by
  cases lock with
  | free => cases left
  | readers n =>
    -- The last reader leaves a free lock.
    match n with
    | 0 => cases left
    | 1 =>
      cases left
      exact ⟨nofun, nofun⟩
    | n + 2 =>
      cases left
      exact ⟨nofun, nofun⟩
  | writer user =>
    cases user with
    | client =>
      cases left
      exact ⟨quiet_client, nofun⟩
    | fetcher => cases left
    | partialEvicter => cases left
    | evicter => cases left

end PairLock

namespace CachePair

/-- What the eviction of a value that goes on in the background is expected to free. -/
def evicting (p : CachePair) : Int :=
  match p.valueRwlock with
  | .writer .partialEvicter | .writer .evicter => p.sizeEvictingEstimate
  | _ => 0

/-- What is true of every value. -/
structure Ok (p : CachePair) : Prop where
  valid : p.attr.isValid = true
  estimate : 0 ≤ p.sizeEvictingEstimate
  notCloned : p.clonedValueData = false → p.clonedValueSize = 0
  -- A value that is read for the first time takes nothing so far.
  fetched : p.valueRwlock = .writer .fetcher → p.attr = zeroAttr
  evicted : p.valueRwlock = .writer .evicter → p.clonedValueData = false
  stale : p.stale = true → p.valueRwlock = .free ∧ p.clonedValueData = false

variable {p : CachePair}

/-- Nothing evicts a value that only clients lock. -/
theorem evicting_quiet (quiet : p.valueRwlock.Quiet) : p.evicting = 0 := by
  unfold evicting
  split
  · next held => cases quiet _ held
  · next held => cases quiet _ held
  · rfl

/-- What evictions are expected to free is not negative. -/
theorem Ok.evicting (ok : p.Ok) : 0 ≤ p.evicting := by
  unfold CachePair.evicting
  split
  · exact ok.estimate
  · exact ok.estimate
  · exact Int.le_refl 0

/-- A value in the table that only clients lock has little to keep. -/
theorem Ok.of_quiet (valid : p.attr.isValid = true) (estimate : 0 ≤ p.sizeEvictingEstimate)
    (notCloned : p.clonedValueData = false → p.clonedValueSize = 0)
    (quiet : p.valueRwlock.Quiet) (listed : p.stale = false) : p.Ok where
  valid := valid
  estimate := estimate
  notCloned := notCloned
  fetched := fun held => nomatch quiet _ held
  evicted := fun held => nomatch quiet _ held
  stale := fun stale => by
    rw [listed] at stale
    cases stale

end CachePair

namespace CacheWorld

/-- What values take, with changes taken back that the counters were not told yet. -/
def taken (world : CacheWorld) (counted : Counted) : Int :=
  (world.pairs.map fun p => p.attr.takes counted).sum +
    (world.untold.map fun attrs => attrs.1.takes counted - attrs.2.takes counted).sum

/-- What clones take. -/
def clones (world : CacheWorld) : Int :=
  (world.pairs.map fun p => (p.clonedValueSize : Int)).sum

/-- What evictions that are not over are expected to free. -/
def evictions (world : CacheWorld) : Int :=
  (world.pairs.map CachePair.evicting).sum + world.undecreased.sum

/-- The counters tell what values take, up to what got lost. -/
structure Good (start lost : Counted → Int) (owed : Int) (world : CacheWorld) : Prop where
  pairs : ∀ p ∈ world.pairs, p.Ok
  untold : ∀ attrs ∈ world.untold, attrs.1.isValid = true ∧ attrs.2.isValid = true
  undecreased : ∀ estimate ∈ world.undecreased, 0 ≤ estimate
  tells : ∀ counted, world.ev.tells counted = start counted + world.taken counted + lost counted
  cloned : world.ev.sizeClonedData = world.clones
  evicting : world.ev.sizeEvicting = world.evictions + owed

variable {start lost lost' takes : Counted → Int} {owed owed' cloned evicting : Int}
  {world after : CacheWorld} {ev : Evictor} {p q : CachePair} {i : Nat} {estimate : Int}

section

variable (good : Good start lost owed world)
include good

/-- A value becomes another one. -/
theorem Good.setPair (here : world.pairs[i]? = some p) (ok : q.Ok)
    (moves : world.ev.Moves ev takes cloned evicting)
    (size : ∀ counted, lost counted + takes counted + p.attr.takes counted =
      lost' counted + q.attr.takes counted)
    (clone : (p.clonedValueSize : Int) + cloned = q.clonedValueSize)
    (eviction : owed + evicting + p.evicting = owed' + q.evicting) :
    Good start lost' owed' (world.setPair ev i q) where
  pairs := fun other member => (List.mem_or_eq_of_mem_set member).elim (good.pairs other) (· ▸ ok)
  untold := good.untold
  undecreased := good.undecreased
  tells := fun counted => by
    have sum := sum_set_item (fun p : CachePair => p.attr.takes counted) here q
    have before := good.tells counted
    have moved := moves.tells counted
    have size := size counted
    simp only [taken, CacheWorld.setPair] at before sum ⊢
    omega
  cloned := by
    have sum := sum_set_item (fun p : CachePair => (p.clonedValueSize : Int)) here q
    have before := good.cloned
    have moved := moves.cloned
    simp only [clones, CacheWorld.setPair] at before sum ⊢
    omega
  evicting := by
    have sum := sum_set_item CachePair.evicting here q
    have before := good.evicting
    have moved := moves.evicting
    simp only [evictions, CacheWorld.setPair] at before sum ⊢
    omega

/-- A value goes away. -/
theorem Good.erase (here : world.pairs[i]? = some p) (moves : world.ev.Moves ev takes 0 evicting)
    (size : ∀ counted, lost counted + takes counted + p.attr.takes counted = lost' counted)
    (clone : p.clonedValueData = false) (eviction : owed + evicting + p.evicting = owed') :
    Good start lost' owed' { world with ev := ev, pairs := world.pairs.eraseIdx i } where
  pairs := fun other member => good.pairs other (List.mem_of_mem_eraseIdx member)
  untold := good.untold
  undecreased := good.undecreased
  tells := fun counted => by
    have sum := sum_eraseIdx_item (fun p : CachePair => p.attr.takes counted) here
    have before := good.tells counted
    have moved := moves.tells counted
    have size := size counted
    simp only [taken] at before sum ⊢
    omega
  cloned := by
    have sum := sum_eraseIdx_item (fun p : CachePair => (p.clonedValueSize : Int)) here
    have before := good.cloned
    have moved := moves.cloned
    have none := (good.pairs p (List.mem_of_getElem? here)).notCloned clone
    simp only [clones] at before sum ⊢
    omega
  evicting := by
    have sum := sum_eraseIdx_item CachePair.evicting here
    have before := good.evicting
    have moved := moves.evicting
    simp only [evictions] at before sum ⊢
    omega

/-- A new value joins. -/
theorem Good.join (ok : q.Ok) (moves : world.ev.Moves ev q.attr.takes 0 0)
    (clone : q.clonedValueSize = 0) (eviction : q.evicting = 0) :
    Good start lost owed { world with ev := ev, pairs := world.pairs ++ [q] } where
  pairs := fun other member => (List.mem_append.mp member).elim (good.pairs other)
    fun new => List.mem_singleton.mp new ▸ ok
  untold := good.untold
  undecreased := good.undecreased
  tells := fun counted => by
    have before := good.tells counted
    have moved := moves.tells counted
    simp only [taken, List.map_append, List.sum_append, List.map_singleton,
      List.sum_singleton] at before ⊢
    omega
  cloned := by
    have before := good.cloned
    have moved := moves.cloned
    simp only [clones, List.map_append, List.sum_append, List.map_singleton, List.sum_singleton,
      clone] at before ⊢
    omega
  evicting := by
    have before := good.evicting
    have moved := moves.evicting
    simp only [evictions, List.map_append, List.sum_append, List.map_singleton,
      List.sum_singleton, eviction] at before ⊢
    omega

/-- A counter that is not about values moves. -/
theorem Good.move (moves : world.ev.Moves ev (fun _ => 0) 0 0) :
    Good start lost owed { world with ev := ev } where
  pairs := good.pairs
  untold := good.untold
  undecreased := good.undecreased
  tells := fun counted => by
    rw [moves.tells, Int.add_zero]
    exact good.tells counted
  cloned := by
    rw [moves.cloned, Int.add_zero]
    exact good.cloned
  evicting := by
    rw [moves.evicting, Int.add_zero]
    exact good.evicting

/-- A change of a value is kept for later. -/
theorem Good.keepChange (attrs : PairAttr × PairAttr)
    (old : attrs.1.isValid = true) (new : attrs.2.isValid = true)
    (size : ∀ counted, lost counted + attrs.2.takes counted =
      lost' counted + attrs.1.takes counted) :
    Good start lost' owed { world with untold := world.untold ++ [attrs] } where
  pairs := good.pairs
  untold := fun other member => (List.mem_append.mp member).elim (good.untold other)
    fun this => List.mem_singleton.mp this ▸ ⟨old, new⟩
  undecreased := good.undecreased
  tells := fun counted => by
    have before := good.tells counted
    have size := size counted
    simp only [taken, List.map_append, List.sum_append, List.map_singleton,
      List.sum_singleton] at before ⊢
    omega
  cloned := good.cloned
  evicting := good.evicting

/-- The end of an eviction is kept for later. -/
theorem Good.keepEnd (positive : 0 ≤ estimate) (eviction : owed = owed' + estimate) :
    Good start lost owed' { world with undecreased := world.undecreased ++ [estimate] } where
  pairs := good.pairs
  untold := good.untold
  undecreased := fun other member => (List.mem_append.mp member).elim (good.undecreased other)
    fun this => List.mem_singleton.mp this ▸ positive
  tells := good.tells
  cloned := good.cloned
  evicting := by
    have before := good.evicting
    simp only [evictions, List.sum_append, List.sum_singleton] at before ⊢
    omega

end

/-- The counters are told of a change that was kept. -/
theorem Good.tell {attrs : PairAttr × PairAttr} {j : Nat} (good : Good start lost owed world)
    (here : world.untold[j]? = some attrs)
    (moves : world.ev.Moves ev
      (fun counted => attrs.2.takes counted - attrs.1.takes counted) 0 0) :
    Good start lost owed { world with ev := ev, untold := world.untold.eraseIdx j } where
  pairs := good.pairs
  untold := fun other member => good.untold other (List.mem_of_mem_eraseIdx member)
  undecreased := good.undecreased
  tells := fun counted => by
    have sum := sum_eraseIdx_item
      (fun attrs : PairAttr × PairAttr => attrs.1.takes counted - attrs.2.takes counted) here
    have before := good.tells counted
    have moved := moves.tells counted
    simp only [taken] at before sum ⊢
    omega
  cloned := by
    rw [moves.cloned, Int.add_zero]
    exact good.cloned
  evicting := by
    rw [moves.evicting, Int.add_zero]
    exact good.evicting

/-- The counters are told of the end of an eviction that was kept. -/
theorem Good.tellEnd {j : Nat} (good : Good start lost owed world)
    (here : world.undecreased[j]? = some estimate)
    (moves : world.ev.Moves ev (fun _ => 0) 0 (-estimate)) :
    Good start lost owed { world with
      ev := ev, undecreased := world.undecreased.eraseIdx j } where
  pairs := good.pairs
  untold := good.untold
  undecreased := fun other member => good.undecreased other (List.mem_of_mem_eraseIdx member)
  tells := fun counted => by
    rw [moves.tells, Int.add_zero]
    exact good.tells counted
  cloned := by
    rw [moves.cloned, Int.add_zero]
    exact good.cloned
  evicting := by
    have sum := sum_eraseIdx_item (fun estimate : Int => estimate) here
    have before := good.evicting
    have moved := moves.evicting
    simp only [evictions, List.map_id_fun', id] at before sum ⊢
    omega

/-- No eviction is expected to free less than nothing. -/
theorem Good.evictings (good : Good start lost owed world) :
    ∀ estimate ∈ world.pairs.map CachePair.evicting, 0 ≤ estimate := by
  intro estimate member
  obtain ⟨other, inside, rfl⟩ := List.mem_map.mp member
  exact (good.pairs other inside).evicting

section

variable (good : Good start lost 0 world)
include good

/-- An eviction that goes on was counted. -/
theorem Good.evicting_le (here : world.pairs[i]? = some p) :
    p.evicting ≤ world.ev.sizeEvicting := by
  -- The counter is the sum of all evictions, none of which is negative.
  have one := List.single_le_sum good.evictings _
    (List.mem_map_of_mem (List.mem_of_getElem? here))
  have rest := List.sum_nonneg good.undecreased
  have sum := good.evicting
  simp only [evictions] at sum
  omega

/-- An eviction whose end is kept for later was counted. -/
theorem Good.ended_le (kept : estimate ∈ world.undecreased) :
    estimate ≤ world.ev.sizeEvicting := by
  have one := List.single_le_sum good.undecreased _ kept
  have rest := List.sum_nonneg good.evictings
  have sum := good.evicting
  simp only [evictions] at sum
  omega

/-- The count of evictions is not negative. -/
theorem Good.evicting_nonneg : 0 ≤ world.ev.sizeEvicting := by
  have first := List.sum_nonneg good.evictings
  have rest := List.sum_nonneg good.undecreased
  have sum := good.evicting
  simp only [evictions] at sum
  omega

end

/-- Only the lock of a value changes, and only clients lock it before and after. -/
theorem Good.relock {lock : PairLock} (good : Good start lost 0 world)
    (here : world.pairs[i]? = some p) (listed : p.stale = false) (before : p.valueRwlock.Quiet)
    (quiet : lock.Quiet) :
    Good start lost 0 (world.setPair world.ev i { p with valueRwlock := lock }) := by
  -- What the value takes is as before, and so is what clones and evictions take.
  have ok := good.pairs p (List.mem_of_getElem? here)
  refine good.setPair here (.of_quiet ok.valid ok.estimate ok.notCloned quiet listed)
    (.refl _) (fun counted => ?_) (Int.add_zero _) ?_
  · dsimp only
    omega
  · rw [CachePair.evicting_quiet before, CachePair.evicting_quiet quiet]
    rfl

/-- What a value takes changes, and the counters are told, while only clients lock it. -/
theorem Good.retake {newAttr : PairAttr} {lock : PairLock} (good : Good start lost 0 world)
    (here : world.pairs[i]? = some p) (dirty : Bool) (listed : p.stale = false)
    (before : p.valueRwlock.Quiet) (quiet : lock.Quiet) (positive : 0 ≤ estimate)
    (valid : newAttr.isValid = true)
    (moves : world.ev.Moves ev (fun counted => newAttr.takes counted - p.attr.takes counted) 0 0) :
    Good start lost 0 (world.setPair ev i { p with
      attr := newAttr, dirty := dirty, sizeEvictingEstimate := estimate
      valueRwlock := lock }) := by
  -- The counters move by what the value takes now and did not take before.
  have ok := good.pairs p (List.mem_of_getElem? here)
  refine good.setPair here (.of_quiet valid positive ok.notCloned quiet listed) moves
    (fun counted => ?_) (Int.add_zero _) ?_
  · dsimp only
    omega
  · rw [CachePair.evicting_quiet before, CachePair.evicting_quiet quiet]
    rfl

end CacheWorld

variable {p : CachePair}

section

variable (ev : Evictor) (ok : p.Ok) (clone : p.clonedValueData = false) (newAttr : PairAttr)
include ev ok clone newAttr

/-- Writing a value is a change of what it takes. -/
theorem cachetableWriteLockedPair_ok :
    ∃ after attr, cachetableWriteLockedPair ev p newAttr =
        some (after, { p with attr := attr, dirty := false }) ∧ attr.isValid = true ∧
      ev.Moves after (fun counted => attr.takes counted - p.attr.takes counted) 0 0 := by
  rw [cachetableWriteLockedPair, invariant_of clone]
  by_cases told : p.dirty = true ∧ newAttr.isValid = true
  · obtain ⟨after, changed, moves⟩ := ev.changePairAttr_moves ok.valid told.2
    refine ⟨after, newAttr, ?_, told.2, moves⟩
    simp only [if_pos told, changed, bind_runs]
  · -- What it takes is not known to have changed.
    refine ⟨ev, p.attr, ?_, ok.valid, by simpa using Evictor.Moves.refl ev⟩
    simp only [if_neg told, bind_runs]

/-- Cloning a value is a change of what it takes, and the clone takes memory too. -/
theorem clonePair_ok (cloneSize : Nat) :
    ∃ after attr, clonePair ev p newAttr cloneSize = some (after, { p with
        attr := attr, dirty := false, clonedValueData := true, clonedValueSize := cloneSize }) ∧
      attr.isValid = true ∧
      ev.Moves after (fun counted => attr.takes counted - p.attr.takes counted) cloneSize 0 := by
  -- A clone of valid size is what the callback hands out, and else a check fails.
  rw [clonePair, invariant_of clone]
  by_cases told : newAttr.isValid = true
  · obtain ⟨middle, changed, moves⟩ := ev.changePairAttr_moves ok.valid told
    refine ⟨_, newAttr, ?_, told, by
      simpa using moves.trans (middle.addClonedDataSize_moves cloneSize)⟩
    simp only [if_pos told, changed, Option.map_some, bind_runs]
  · refine ⟨_, p.attr, ?_, ok.valid, by simpa using ev.addClonedDataSize_moves cloneSize⟩
    simp only [if_neg told, bind_runs]

/-- Before an eviction a value is written, if it has to be. -/
theorem writeIfDirty_ok :
    ∃ after attr dirty, (if p.dirty then cachetableWriteLockedPair ev p newAttr
        else some (ev, p)) = some (after, { p with attr := attr, dirty := dirty }) ∧
      attr.isValid = true ∧
      ev.Moves after (fun counted => attr.takes counted - p.attr.takes counted) 0 0 := by
  cases dirty : p.dirty with
  | true =>
    obtain ⟨after, attr, wrote, valid, moves⟩ := cachetableWriteLockedPair_ok ev ok clone newAttr
    exact ⟨after, attr, false, wrote, valid, moves⟩
  | false => exact ⟨ev, p.attr, p.dirty, rfl, ok.valid, by simpa using Evictor.Moves.refl ev⟩

end

namespace CacheWorld

variable {start lost : Counted → Int} {world : CacheWorld} {i : Nat}

/-- An eviction, of which the counters were told, comes to its end. -/
theorem Good.evictPair {estimate : Int} (good : Good start lost 0 world)
    (here : world.pairs[i]? = some p) (listed : p.stale = false)
    (clone : p.clonedValueData = false) (told : p.evicting = estimate) (newAttr : PairAttr)
    (users : Bool) :
    ∃ left, Tokuft.evictPair world.ev { p with sizeEvictingEstimate := estimate } newAttr users =
      some left ∧ Good start lost 0 (world.setOrErase i left) := by
  have ok := good.pairs p (List.mem_of_getElem? here)
  have positive : 0 ≤ estimate := told ▸ ok.evicting
  have counted := good.evicting_le here
  have okNow : CachePair.Ok { p with sizeEvictingEstimate := estimate } :=
    { ok with estimate := positive }
  obtain ⟨written, attr, dirty, wrote, valid, first⟩ :=
    writeIfDirty_ok world.ev okNow clone newAttr
  obtain ⟨ended, decreased, second⟩ := written.decreaseSizeEvicting_moves positive
    (by rw [first.evicting]; omega)
  rw [Tokuft.evictPair, wrote]
  simp only [decreased, bind_runs]
  cases users with
  | true =>
    -- Others came to use the value, and it stays for them.
    let q : CachePair := { p with
      attr := attr, dirty := dirty, sizeEvictingEstimate := estimate, valueRwlock := .free }
    have okLeft : q.Ok := .of_quiet valid positive ok.notCloned PairLock.quiet_free listed
    have quiet : q.evicting = 0 := CachePair.evicting_quiet PairLock.quiet_free
    have stays : Good start lost 0 (world.setPair ended i q) := by
      refine good.setPair here okLeft (first.trans second) (fun counted => ?_) (Int.add_zero _)
        (by omega)
      dsimp only [q]
      omega
    exact ⟨_, rfl, stays⟩
  | false =>
    obtain ⟨after, removed, third⟩ := ended.removePairAttr_moves valid
    have leaves : Good start lost 0
      { world with ev := after, pairs := world.pairs.eraseIdx i } := by
      refine good.erase here ((first.trans second).trans third) (fun counted => ?_) clone (by omega)
      dsimp only
      omega
    simp only [Bool.false_eq_true, if_false, invariant_of clone, removed, Option.bind_some]
    exact ⟨_, rfl, leaves⟩

end CacheWorld

end Tokuft
