import Tokuft.Cachetable.CacheWorldLaws
import Tokuft.Library.Runs

/-! The counters of a cache are exact, unless values that press for being cleaned were removed. -/

namespace Tokuft

namespace CacheWorld

variable {start lost : Counted → Int} {world : CacheWorld} {event : CacheEvent}
  {p : CachePair} {i : Nat}

/-- Removing a value loses the pressure that was taken from it. -/
theorem Good.remove {lost' : Counted → Int} (good : Good start lost 0 world)
    (here : world.pairs[i]? = some p) (held : p.valueRwlock = .writer .client)
    (clone : p.clonedValueData = false)
    (size : ∀ counted, lost counted + p.attr.takes counted =
      lost' counted + PairAttr.takes { p.attr with cachePressureSize := 0 } counted) :
    ∃ after, world.next (.unpinAndRemove i) = some after ∧ Good start lost' 0 after := by
  have ok := good.pairs p (List.mem_of_getElem? here)
  have valid : PairAttr.isValid { p.attr with cachePressureSize := 0 } = true := ok.valid
  obtain ⟨ev, removed, moves⟩ := world.ev.removePairAttr_moves valid
  have leaves : Good start lost' 0 { world with ev := ev, pairs := world.pairs.eraseIdx i } := by
    refine good.erase here moves (fun counted => ?_) clone ?_
    · have size := size counted
      omega
    · rw [CachePair.evicting_quiet (held ▸ PairLock.quiet_client)]
      rfl
  refine ⟨_, ?_, leaves⟩
  simp only [next, here, invariant_of held, invariant_of clone, cachetableRemovePair, removed,
    bind_runs]

/-- A value that nobody uses is removed with all that is counted of it. -/
theorem Good.removeUnused (good : Good start lost 0 world) (here : world.pairs[i]? = some p)
    (unlocked : p.valueRwlock = .free) (clone : p.clonedValueData = false) :
    ∃ after, world.cachetableRemovePair i p = some after ∧ Good start lost 0 after := by
  have ok := good.pairs p (List.mem_of_getElem? here)
  obtain ⟨ev, removed, moves⟩ := world.ev.removePairAttr_moves ok.valid
  have leaves : Good start lost 0 { world with ev := ev, pairs := world.pairs.eraseIdx i } := by
    refine good.erase here moves (fun counted => by omega) clone ?_
    rw [CachePair.evicting_quiet (unlocked ▸ PairLock.quiet_free)]
    rfl
  refine ⟨_, ?_, leaves⟩
  simp only [cachetableRemovePair, removed, bind_runs]

/-- Unpinning a value keeps the change of what it takes for later. -/
theorem Good.unpin (good : Good start lost 0 world)
    (here : world.pairs[i]? = some p) (listed : p.stale = false)
    (held : p.valueRwlock.unlock.isSome) (dirty : Bool) (attr : PairAttr) :
    ∃ after, world.next (.unpin i dirty attr) = some after ∧ Good start lost 0 after := by
  have ok := good.pairs p (List.mem_of_getElem? here)
  obtain ⟨lock, unlocked⟩ := Option.isSome_iff_exists.mp held
  obtain ⟨before, quiet⟩ := PairLock.quiet_unlock unlocked
  simp only [next, here, unlocked, bind_runs]
  cases told : attr.isValid with
  | true =>
    let q : CachePair := { p with attr := attr, dirty := dirty || p.dirty, valueRwlock := lock }
    have changed : Good start (fun counted => lost counted + p.attr.takes counted -
        attr.takes counted) 0 (world.setPair world.ev i q) := by
      refine good.setPair here (.of_quiet told ok.estimate ok.notCloned quiet listed)
        (.refl _) (fun counted => ?_) (Int.add_zero _) ?_
      · dsimp only [q]
        omega
      · rw [CachePair.evicting_quiet before, CachePair.evicting_quiet quiet]
        rfl
    exact ⟨_, rfl, changed.keepChange (p.attr, attr) ok.valid told
      fun counted => by dsimp only; omega⟩
  | false =>
    -- The value is known to take what it took.
    refine ⟨_, rfl, good.setPair here (.of_quiet ok.valid ok.estimate ok.notCloned quiet listed)
      (.refl _) (fun counted => ?_) (Int.add_zero _) ?_⟩
    · dsimp only
      omega
    · rw [CachePair.evicting_quiet before, CachePair.evicting_quiet quiet]
      rfl

/-- A partial eviction gives the lock back before its end is counted. -/
theorem Good.doPartialEviction {newAttr : PairAttr} (good : Good start lost 0 world)
    (here : world.pairs[i]? = some p) (listed : p.stale = false)
    (held : p.valueRwlock = .writer .partialEvicter) (valid : newAttr.isValid = true) :
    ∃ after, world.next (.doPartialEviction i newAttr) = some after ∧ Good start lost 0 after := by
  -- Between the two the value counts as quiet, and its new size is told.
  have ok := good.pairs p (List.mem_of_getElem? here)
  obtain ⟨ev, told, moves⟩ := world.ev.changePairAttr_moves ok.valid valid
  let q : CachePair := { p with attr := newAttr, valueRwlock := .free }
  have quiet : q.evicting = 0 := CachePair.evicting_quiet PairLock.quiet_free
  have going : p.evicting = p.sizeEvictingEstimate := by rw [CachePair.evicting, held]
  have freed : Good start lost p.sizeEvictingEstimate (world.setPair ev i q) := by
    refine good.setPair here
      (.of_quiet valid ok.estimate ok.notCloned PairLock.quiet_free listed) moves
      (fun counted => ?_) (Int.add_zero _) (by omega)
    dsimp only [q]
    omega
  refine ⟨_, ?_, freed.keepEnd ok.estimate (Int.zero_add _).symm⟩
  simp only [next, here, told, bind_runs]
  rfl

/-- A clean value is evicted, and a dirty one is kept for a background thread to evict. -/
theorem Good.tryEvictPair (good : Good start lost 0 world) (here : world.pairs[i]? = some p)
    (listed : p.stale = false) (unlocked : p.valueRwlock = .free)
    (clone : p.clonedValueData = false) (users : Bool) :
    ∃ after, world.next (.tryEvictPair i users) = some after ∧ Good start lost 0 after := by
  -- One case for a clean value and one for a dirty one.
  have ok := good.pairs p (List.mem_of_getElem? here)
  have quiet : p.evicting = 0 := CachePair.evicting_quiet (unlocked ▸ PairLock.quiet_free)
  simp only [CacheWorld.next, here, invariant_of unlocked, bind_runs]
  by_cases clean : p.dirty = false
  · obtain ⟨left, evicted, goodLeft⟩ := good.evictPair here listed clone quiet p.attr users
    rw [if_pos clean, evicted]
    exact ⟨_, rfl, goodLeft⟩
  · have before := good.evicting_nonneg
    have still : 0 ≤ (world.ev.increaseSizeEvicting p.attr.size).sizeEvicting := by
      rw [(world.ev.increaseSizeEvicting_moves p.attr.size).evicting]
      omega
    let q : CachePair := { p with
      sizeEvictingEstimate := p.attr.size
      valueRwlock := .writer .evicter }
    have okNow : q.Ok := ⟨ok.valid, Int.natCast_nonneg _, ok.notCloned,
      fun wrong => (by cases wrong), fun _ => clone,
      fun stale => by cases listed.symm.trans stale⟩
    have going : q.evicting = p.attr.size := rfl
    have goes : Good start lost 0
        (world.setPair (world.ev.increaseSizeEvicting p.attr.size) i q) :=
      good.setPair here okNow (world.ev.increaseSizeEvicting_moves p.attr.size)
        (fun counted => by dsimp only [q]; omega) (Int.add_zero _) (by omega)
    rw [if_neg clean, invariant_of before, invariant_of still]
    exact ⟨_, rfl, goes⟩

/-- What happens keeps the counters in step with the values, and no assertion fails. -/
theorem Good.next (good : Good start lost 0 world) (allowed : world.Allowed event)
    (other : ∀ i, event ≠ .unpinAndRemove i) :
    ∃ after, world.next event = some after ∧ Good start lost 0 after := by
  cases event with
  | put attr =>
    obtain ⟨ev, added, moves⟩ := world.ev.addPairAttr_moves allowed
    refine ⟨_, ?_, good.join (q := pairInit attr true .client)
      (.of_quiet allowed (Int.le_refl 0) (fun _ => rfl) PairLock.quiet_client rfl) moves rfl rfl⟩
    simp only [CacheWorld.next, added, bind_runs]
  | insertToFetch =>
    obtain ⟨ev, added, moves⟩ := world.ev.addPairAttr_moves (show zeroAttr.isValid = true from rfl)
    refine ⟨_, ?_, good.join (q := pairInit zeroAttr false .fetcher)
      ⟨rfl, Int.le_refl 0, fun _ => rfl, fun _ => rfl,
        fun wrong => (by cases wrong), fun wrong => by cases wrong⟩ moves rfl rfl⟩
    simp only [CacheWorld.next, added, bind_runs]
  | fetchPair i attr dirty keepPairLocked =>
    obtain ⟨valid, p, here, listed, held⟩ := allowed
    have ok := good.pairs p (List.mem_of_getElem? here)
    obtain ⟨ev, added, moves⟩ := world.ev.addPairAttr_moves valid
    -- What the value took before it was read is nothing.
    have fetched := ok.fetched held
    have quiet : PairLock.Quiet (if keepPairLocked then .writer .client else .free) := by
      cases keepPairLocked
      · exact PairLock.quiet_free
      · exact PairLock.quiet_client
    let q : CachePair := { p with
      attr := attr
      dirty := dirty || p.dirty
      valueRwlock := if keepPairLocked then .writer .client else .free }
    have okNow : q.Ok := .of_quiet valid ok.estimate ok.notCloned quiet listed
    refine ⟨_, ?_, good.setPair here okNow moves (fun counted => ?_) (Int.add_zero _) ?_⟩
    · simp only [CacheWorld.next, here, added, bind_runs]
      rfl
    · rw [fetched, zeroAttr_takes]
      dsimp only [q]
      omega
    · rw [CachePair.evicting_quiet (show q.valueRwlock.Quiet from quiet), CachePair.evicting, held]
      rfl
  | readLock i =>
    obtain ⟨p, here, listed, joins⟩ := allowed
    obtain ⟨lock, joined⟩ := Option.isSome_iff_exists.mp joins
    obtain ⟨before, quiet⟩ := PairLock.quiet_readLock joined
    refine ⟨_, ?_, good.relock here listed before quiet⟩
    simp only [CacheWorld.next, here, joined, bind_runs]
  | writeLock i =>
    obtain ⟨p, here, listed, unlocked⟩ := allowed
    refine ⟨_, ?_, good.relock here listed (unlocked ▸ PairLock.quiet_free) PairLock.quiet_client⟩
    simp only [CacheWorld.next, here, bind_runs]
  | unlock i =>
    obtain ⟨p, here, listed, held⟩ := allowed
    obtain ⟨lock, left⟩ := Option.isSome_iff_exists.mp held
    obtain ⟨before, quiet⟩ := PairLock.quiet_unlock left
    refine ⟨_, ?_, good.relock here listed before quiet⟩
    simp only [CacheWorld.next, here, left, bind_runs]
  | doPartialFetch i newAttr keepPairLocked =>
    obtain ⟨valid, p, here, listed, held, clean⟩ := allowed
    have ok := good.pairs p (List.mem_of_getElem? here)
    obtain ⟨ev, told, moves⟩ := world.ev.changePairAttr_moves ok.valid valid
    have before : p.valueRwlock.Quiet := held ▸ PairLock.quiet_client
    have quiet : PairLock.Quiet (if keepPairLocked then p.valueRwlock else .free) := by
      cases keepPairLocked
      · exact PairLock.quiet_free
      · exact before
    refine ⟨_, ?_, good.retake here p.dirty listed before quiet ok.estimate valid moves⟩
    simp only [CacheWorld.next, here, invariant_of clean, invariant_of held, told, bind_runs]
  | unpin i dirty attr =>
    obtain ⟨p, here, listed, held⟩ := allowed
    exact good.unpin here listed held dirty attr
  | tellEvictor j =>
    have here := List.getElem?_eq_getElem allowed
    have valid := good.untold _ (List.getElem_mem allowed)
    obtain ⟨ev, told, moves⟩ := world.ev.changePairAttr_moves valid.1 valid.2
    refine ⟨_, ?_, good.tell here moves⟩
    simp only [CacheWorld.next, here, told, bind_runs]
  | writeLockedPair i newAttr =>
    obtain ⟨p, here, listed, held, clone⟩ := allowed
    have ok := good.pairs p (List.mem_of_getElem? here)
    have quiet := PairLock.quiet_of_free_or_client held
    obtain ⟨ev, attr, wrote, valid, moves⟩ :=
      cachetableWriteLockedPair_ok world.ev ok clone newAttr
    refine ⟨_, ?_, good.retake here false listed quiet quiet ok.estimate valid moves⟩
    simp only [CacheWorld.next, here, wrote, bind_runs]
  | clonePair i newAttr cloneSize =>
    obtain ⟨p, here, listed, held, clone, -⟩ := allowed
    have ok := good.pairs p (List.mem_of_getElem? here)
    have quiet := PairLock.quiet_of_free_or_client held
    obtain ⟨ev, attr, cloned, valid, moves⟩ := clonePair_ok world.ev ok clone newAttr cloneSize
    let q : CachePair := { p with
      attr := attr, dirty := false, clonedValueData := true, clonedValueSize := cloneSize }
    have okNow : q.Ok := .of_quiet valid ok.estimate
      (fun wrong => by cases wrong) quiet listed
    refine ⟨_, ?_, good.setPair here okNow moves (fun counted => ?_) ?_ ?_⟩
    · simp only [CacheWorld.next, here, cloned, bind_runs]
      rfl
    · dsimp only [q]
      omega
    · rw [ok.notCloned clone]
      exact Int.zero_add _
    · rfl
  | checkpointClonedPair i =>
    obtain ⟨p, here, listed, clone⟩ := allowed
    have ok := good.pairs p (List.mem_of_getElem? here)
    let q : CachePair := { p with clonedValueData := false, clonedValueSize := 0 }
    have okNow : q.Ok := ⟨ok.valid, ok.estimate, fun _ => rfl, ok.fetched, fun _ => rfl,
      fun stale => ⟨(ok.stale stale).1, rfl⟩⟩
    refine ⟨_, ?_, good.setPair here okNow
      (world.ev.removeClonedDataSize_moves p.clonedValueSize) (fun counted => ?_) ?_ ?_⟩
    · simp only [CacheWorld.next, here, bind_runs]
      rfl
    · dsimp only [q]
      omega
    · dsimp only [q]
      omega
    · rfl
  | runPartialEviction i cost =>
    obtain ⟨valid, p, here, listed, unlocked, clone⟩ := allowed
    have ok := good.pairs p (List.mem_of_getElem? here)
    have quiet : p.valueRwlock.Quiet := unlocked ▸ PairLock.quiet_free
    cases cost with
    | cheap newAttr =>
      obtain ⟨ev, told, moves⟩ := world.ev.changePairAttr_moves ok.valid (valid newAttr rfl)
      refine ⟨_, ?_, good.retake here p.dirty listed quiet quiet (Int.le_refl 0)
        (valid newAttr rfl) moves⟩
      simp only [CacheWorld.next, here, told, bind_runs]
    | expensive bytesFreedEstimate =>
      by_cases frees : 0 < bytesFreedEstimate
      · let q : CachePair := { p with
          sizeEvictingEstimate := bytesFreedEstimate
          valueRwlock := .writer .partialEvicter }
        have okNow : q.Ok := ⟨ok.valid, Int.le_of_lt frees, ok.notCloned,
          fun wrong => (by cases wrong), fun wrong => (by cases wrong),
          fun stale => by cases listed.symm.trans stale⟩
        have going : q.evicting = bytesFreedEstimate := rfl
        have calm := CachePair.evicting_quiet quiet
        refine ⟨_, ?_, good.setPair here okNow
          (world.ev.increaseSizeEvicting_moves bytesFreedEstimate) (fun counted => ?_)
          (Int.add_zero _) (by omega)⟩
        · simp only [CacheWorld.next, here, if_pos frees, bind_runs]
          rfl
        · dsimp only [q]
          omega
      · refine ⟨world, ?_, good⟩
        simp only [CacheWorld.next, here, if_neg frees, bind_runs]
  | doPartialEviction i newAttr =>
    obtain ⟨valid, p, here, listed, held⟩ := allowed
    exact good.doPartialEviction here listed held valid
  | decreaseSizeEvicting j =>
    have here := List.getElem?_eq_getElem allowed
    have kept := List.getElem_mem allowed
    obtain ⟨ev, ended, moves⟩ :=
      world.ev.decreaseSizeEvicting_moves (good.undecreased _ kept) (good.ended_le kept)
    refine ⟨_, ?_, good.tellEnd here moves⟩
    simp only [CacheWorld.next, here, ended, bind_runs]
  | tryEvictPair i users =>
    obtain ⟨p, here, listed, unlocked, clone⟩ := allowed
    exact good.tryEvictPair here listed unlocked clone users
  | evictPair i newAttr users =>
    obtain ⟨p, here, listed, held⟩ := allowed
    have ok := good.pairs p (List.mem_of_getElem? here)
    have evicting : p.evicting = p.sizeEvictingEstimate := by rw [CachePair.evicting, held]
    obtain ⟨left, evicted, goodLeft⟩ := good.evictPair here listed (ok.evicted held) evicting
      newAttr users
    refine ⟨_, ?_, goodLeft⟩
    simp only [CacheWorld.next, here, evicted, bind_runs]
  | unpinAndRemove i => exact absurd rfl (other i)
  | flushPairForClose i =>
    obtain ⟨p, here, listed, unlocked, clone⟩ := allowed
    have ok := good.pairs p (List.mem_of_getElem? here)
    let q : CachePair := { p with dirty := false }
    have okNow : q.Ok :=
      ⟨ok.valid, ok.estimate, ok.notCloned, ok.fetched, ok.evicted, ok.stale⟩
    refine ⟨_, ?_, good.setPair here okNow (.refl _) (fun counted => ?_) (Int.add_zero _) rfl⟩
    · simp only [CacheWorld.next, here, invariant_of unlocked, invariant_of clone, bind_runs]
      rfl
    · dsimp only [q]
      omega
  | removePairForClose i completely =>
    obtain ⟨p, here, listed, unlocked, clone, clean⟩ := allowed
    have ok := good.pairs p (List.mem_of_getElem? here)
    simp only [CacheWorld.next, here, invariant_of unlocked, invariant_of clone, invariant_of clean,
      bind_runs]
    cases completely with
    | true => exact good.removeUnused here unlocked clone
    | false =>
      let q : CachePair := { p with stale := true }
      have okNow : q.Ok := ⟨ok.valid, ok.estimate, ok.notCloned, ok.fetched, ok.evicted,
        fun _ => ⟨unlocked, clone⟩⟩
      have kept : Good start lost 0 (world.setPair world.ev i q) :=
        good.setPair here okNow (.refl _) (fun counted => by dsimp only [q]; omega)
          (Int.add_zero _) rfl
      exact ⟨_, rfl, kept⟩
  | addToCachetableOnly i =>
    obtain ⟨p, here, stale⟩ := allowed
    have ok := good.pairs p (List.mem_of_getElem? here)
    let q : CachePair := { p with stale := false }
    have okNow : q.Ok := ⟨ok.valid, ok.estimate, ok.notCloned, ok.fetched, ok.evicted,
      fun wrong => by cases wrong⟩
    refine ⟨_, ?_, good.setPair here okNow (.refl _) (fun counted => ?_) (Int.add_zero _) rfl⟩
    · simp only [CacheWorld.next, here, bind_runs]
      rfl
    · dsimp only [q]
      omega
  | evictSomeStalePair i =>
    obtain ⟨p, here, stale⟩ := allowed
    have ok := good.pairs p (List.mem_of_getElem? here)
    obtain ⟨unlocked, clone⟩ := ok.stale stale
    obtain ⟨after, removed, goodAfter⟩ := good.removeUnused here unlocked clone
    refine ⟨after, ?_, goodAfter⟩
    simp only [CacheWorld.next, here, removed, bind_runs]
  | reserveMemory share upperBound =>
    exact ⟨_, rfl, good.move (world.ev.reserveMemory_moves share upperBound)⟩
  | releaseReservedMemory reservedMemory =>
    exact ⟨_, rfl, good.move (world.ev.releaseReservedMemory_moves reservedMemory)⟩

/-- The pressure of values that was lost. -/
def lostPressure (pressure : Nat) : Counted → Int
  | .cachePressure => pressure
  | _ => 0

/-- What the counters tell before there are values. -/
def startTells (unreservable : Int) : Counted → Int
  | .size => -unreservable
  | _ => 0

/-- An empty cache is good. -/
theorem good_init (unreservable : Int) :
    Good (startTells unreservable) (lostPressure 0) 0 (init unreservable) where
  pairs := nofun
  untold := nofun
  undecreased := nofun
  tells := fun counted => by cases counted <;> simp [init, Evictor.init, Evictor.tells, taken,
    startTells, lostPressure]
  cloned := rfl
  evicting := rfl

/-- What happens loses the pressure of values that are removed, and nothing else. -/
theorem Good.step {pressure : Nat} (good : Good start (lostPressure pressure) 0 world)
    (allowed : world.Allowed event) :
    ∃ after, world.next event = some after ∧
      Good start (lostPressure (pressure + world.pressureLost event)) 0 after := by
  by_cases removes : ∃ i, event = .unpinAndRemove i
  · obtain ⟨i, rfl⟩ := removes
    obtain ⟨p, here, -, held, clone⟩ := allowed
    refine good.remove here held clone fun counted => ?_
    -- The value goes away with a pressure of zero.
    cases counted <;> simp [pressureLost, here, lostPressure, PairAttr.takes]
  · have other (i : Nat) : event ≠ .unpinAndRemove i := fun same => removes ⟨i, same⟩
    have none : world.pressureLost event = 0 := by
      cases event with
      | unpinAndRemove i => exact absurd rfl (other i)
      | _ => rfl
    rw [none]
    exact good.next allowed other

/-- When nothing goes on, the counters are those of the values up to the pressure that was lost. -/
theorem Good.exact_iff {unreservable : Int} {pressure : Nat}
    (good : Good (startTells unreservable) (lostPressure pressure) 0 world) (idle : world.Idle) :
    world.Exact unreservable ↔ pressure = 0 := by
  obtain ⟨untold, undecreased, calm⟩ := idle
  have sums (counted : Counted) :
      world.taken counted = (world.pairs.map fun p => p.attr.takes counted).sum := by
    rw [taken, untold]
    exact Int.add_zero _
  have cloned : world.ev.sizeClonedData = 0 := by
    rw [good.cloned, clones]
    refine List.sum_eq_zero fun size member => ?_
    obtain ⟨p, inside, rfl⟩ := List.mem_map.mp member
    rw [(good.pairs p inside).notCloned (calm p inside).1]
    rfl
  have evicting : world.ev.sizeEvicting = 0 := by
    rw [good.evicting, evictions, undecreased]
    refine (Int.add_zero _).trans ((Int.add_zero _).trans (List.sum_eq_zero fun size member => ?_))
    obtain ⟨p, inside, rfl⟩ := List.mem_map.mp member
    obtain ⟨-, notPartially, notFully⟩ := calm p inside
    unfold CachePair.evicting
    split
    · next held => exact absurd held notPartially
    · next held => exact absurd held notFully
    · rfl
  have size := good.tells .size
  have pressed := good.tells .cachePressure
  rw [sums] at size pressed
  simp only [Evictor.tells, startTells, lostPressure, PairAttr.takes] at size pressed
  constructor
  · intro exact
    have same := exact.cachepressure
    simp only [total] at same
    omega
  · rintro rfl
    -- The other counters tell nothing but what the values take.
    have plain (counted : Counted) (starts : startTells unreservable counted = 0)
        (loses : lostPressure 0 counted = 0) :
        world.ev.tells counted = (world.pairs.map fun p => p.attr.takes counted).sum := by
      rw [good.tells, sums, starts, loses]
      omega
    exact {
      current := by
        simp only [total]
        omega
      nonleaf := plain .nonleaf rfl rfl
      leaf := plain .leaf rfl rfl
      rollback := plain .rollback rfl rfl
      cachepressure := plain .cachePressure rfl rfl
      cloned := cloned
      evicting := evicting }

/-- The counters after a run. -/
def Follows (unreservable : Int) (labels : List (CacheEvent × Nat)) (world : CacheWorld) : Prop :=
  Good (startTells unreservable) (lostPressure (labels.map Prod.snd).sum) 0 world

/-- The steps of a run lose the pressure that is noted of them. -/
theorem follows_run {unreservable : Int} {labels : List (CacheEvent × Nat)}
    (run : Runs Step (init unreservable) labels world) : Follows unreservable labels world := by
  refine run.traceInvariant (good_init unreservable) fun _ follows taken => ?_
  obtain ⟨allowed, leads, noted⟩ := taken
  obtain ⟨after, stepped, goodAfter⟩ := Good.step follows allowed
  cases leads.symm.trans stepped
  rw [Follows, List.map_append, List.sum_append, List.map_singleton, List.sum_singleton, noted]
  exact goodAfter

/-- In every run no assertion fails and the count of evictions is never negative. When nothing goes
on, the counters are exact if and only if no value was removed while it pressed for being cleaned.
-/
theorem sizes_exact {unreservable : Int} {labels : List (CacheEvent × Nat)}
    (run : Runs Step (init unreservable) labels world) :
    (∀ event, world.Allowed event → ∃ after, world.next event = some after) ∧
    0 ≤ world.ev.sizeEvicting ∧
    (world.Idle → (world.Exact unreservable ↔ ∀ label ∈ labels, label.2 = 0)) := by
  have good := follows_run run
  refine ⟨fun event allowed => ?_, good.evicting_nonneg, fun idle => ?_⟩
  · obtain ⟨after, stepped, -⟩ := good.step allowed
    exact ⟨after, stepped⟩
  · rw [good.exact_iff idle, List.sum_eq_zero_iff_forall_eq_nat, List.forall_mem_map]

/-- A value is put into a cache, grows while it is used, and is not used any more. -/
theorem sizes_exact_grown :
    ∃ labels world, Runs Step (init 0) labels world ∧
      (∀ event, world.Allowed event → ∃ after, world.next event = some after) ∧
      0 ≤ world.ev.sizeEvicting ∧ world.Exact 0 ∧ world.ev.sizeCurrent = 20 := by
  let small : PairAttr := ⟨8, 0, 8, 0, 3, true⟩
  let large : PairAttr := ⟨20, 0, 20, 0, 5, true⟩
  let p : CachePair := pairInit small true .client
  let q : CachePair := { p with attr := large, valueRwlock := .free }
  have first : Step (init 0) (.put small, 0) ⟨⟨0, 8, 0, 0, 0, 8, 0, 3⟩, [p], [], []⟩ :=
    ⟨rfl, rfl, rfl⟩
  have second : Step ⟨⟨0, 8, 0, 0, 0, 8, 0, 3⟩, [p], [], []⟩ (.unpin 0 true large, 0)
      ⟨⟨0, 8, 0, 0, 0, 8, 0, 3⟩, [q], [(small, large)], []⟩ := ⟨⟨p, rfl, rfl, rfl⟩, rfl, rfl⟩
  have third : Step ⟨⟨0, 8, 0, 0, 0, 8, 0, 3⟩, [q], [(small, large)], []⟩ (.tellEvictor 0, 0)
      ⟨⟨0, 20, 0, 0, 0, 20, 0, 5⟩, [q], [], []⟩ := ⟨Nat.zero_lt_one, rfl, rfl⟩
  have run := ((Runs.start.next first).next second).next third
  obtain ⟨goes, nonneg, exact⟩ := sizes_exact run
  refine ⟨_, _, run, goes, nonneg, (exact ⟨rfl, rfl, ?_⟩).mpr (by simp), rfl⟩
  intro other member
  cases List.mem_singleton.mp member
  exact ⟨rfl, nofun, nofun⟩

/-- A value that presses for being cleaned is put into a cache and removed, which leaves its
pressure in the counter of an empty cache. -/
theorem sizes_leftPressure :
    ∃ labels world, Runs Step (init 0) labels world ∧ world.Idle ∧ ¬ world.Exact 0 := by
  let attr : PairAttr := ⟨8, 0, 8, 0, 5, true⟩
  let p : CachePair := pairInit attr true .client
  have first : Step (init 0) (.put attr, 0) ⟨⟨0, 8, 0, 0, 0, 8, 0, 5⟩, [p], [], []⟩ :=
    ⟨rfl, rfl, rfl⟩
  have second : Step ⟨⟨0, 8, 0, 0, 0, 8, 0, 5⟩, [p], [], []⟩ (.unpinAndRemove 0, 5)
      ⟨⟨0, 0, 0, 0, 0, 0, 0, 5⟩, [], [], []⟩ := ⟨⟨p, rfl, rfl, rfl, rfl⟩, rfl, rfl⟩
  refine ⟨_, _, (Runs.start.next first).next second, ⟨rfl, rfl, nofun⟩, fun exact => ?_⟩
  exact absurd exact.cachepressure (by decide)

end CacheWorld

end Tokuft
