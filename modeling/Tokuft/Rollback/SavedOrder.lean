import Tokuft.Rollback.World

/-! Every saved entry is answered for once, and applied in the reverse order of the saves. -/

namespace Tokuft

variable {Item : Type}

/-- What a request does to the transactions, for each kind of request that is allowed. -/
inductive SavedWorld.Stepped (world : SavedWorld Item) :
    RollEvent Item → SavedWorld Item → List (ApplyFunc × SavedEntry Item) → Prop where
  /-- A transaction begins under a live parent or under none. -/
  | begin {txnid : TxnidPair} {parent : Option TxnidPair} (absent : world.live txnid = none)
      (parentLive : ∀ above, parent = some above → (world.live above).isSome) :
      Stepped world (.begin txnid parent)
        { world with
          live := Function.update world.live txnid (some { parent := parent, saved := [] }) } []
  /-- A live transaction saves an entry. -/
  | save {txnid : TxnidPair} {txn : SavedTxn Item} (item : Item)
      (here : world.live txnid = some txn) :
      Stepped world (.save txnid item)
        { live := Function.update world.live txnid
            (some { txn with saved := txn.saved ++ [{ place := world.saves, item := item }] })
          saves := world.saves + 1 } []
  /-- A child commits into its live parent. -/
  | commitChild {child parent : TxnidPair} {childTxn parentTxn : SavedTxn Item}
      (here : world.live child = some childTxn) (isParent : childTxn.parent = some parent)
      (parentHere : world.live parent = some parentTxn) :
      Stepped world (.commit child)
        { world with
          live := Function.update (Function.update world.live parent
            (some { parentTxn with saved := parentTxn.saved ++ childTxn.saved })) child none } []
  /-- A root commits. -/
  | commitRoot {txnid : TxnidPair} {txn : SavedTxn Item} (here : world.live txnid = some txn)
      (isRoot : txn.parent = none) :
      Stepped world (.commit txnid) (world.finish .commit txnid txn).1
        (world.finish .commit txnid txn).2
  /-- Any live transaction aborts. -/
  | abort {txnid : TxnidPair} {txn : SavedTxn Item} (here : world.live txnid = some txn) :
      Stepped world (.abort txnid) (world.finish .abort txnid txn).1
        (world.finish .abort txnid txn).2

variable {world after : SavedWorld Item} {event : RollEvent Item}
  {applied : List (ApplyFunc × SavedEntry Item)}

/-- The allowed requests are of these kinds only. -/
theorem SavedWorld.stepped_of_step (allowed : world.step event = some (after, applied)) :
    world.Stepped event after applied := by
  -- One case for each request.
  cases event with
  | begin txnid parent =>
    simp only [SavedWorld.step, bind_inv, invariant_eq_some, Prod.mk.injEq] at allowed
    obtain ⟨_, absent, _, parentLive, rfl, rfl⟩ := allowed
    refine .begin absent ?_
    rintro above rfl
    simpa using parentLive
  | save txnid item =>
    simp only [SavedWorld.step, bind_inv, Prod.mk.injEq] at allowed
    obtain ⟨txn, here, rfl, rfl⟩ := allowed
    exact .save item here
  | commit txnid =>
    simp only [SavedWorld.step, bind_inv] at allowed
    obtain ⟨txn, here, allowed⟩ := allowed
    cases isChild : txn.parent with
    | none =>
      simp only [isChild, Option.some.injEq] at allowed
      obtain ⟨rfl, rfl⟩ := Prod.mk.inj allowed
      exact .commitRoot here isChild
    | some parent =>
      simp only [isChild, Option.bind_eq_some_iff, Option.some.injEq,
        Prod.mk.injEq] at allowed
      obtain ⟨parentTxn, parentHere, rfl, rfl⟩ := allowed
      exact .commitChild here isChild parentHere
  | abort txnid =>
    simp only [SavedWorld.step, bind_inv] at allowed
    obtain ⟨txn, here, allowed⟩ := allowed
    obtain ⟨rfl, rfl⟩ := Prod.mk.inj allowed
    exact .abort here

/-- The entry that a request saves, when its place in the order of saves is known. -/
def RollEvent.savedEntry (place : Nat) : RollEvent Item → Option (SavedEntry Item)
  | .save _ item => some { place := place, item := item }
  | _ => none

/-- All entries that requests save, in the order in which they are saved. -/
def savedEntries : Nat → List (RollEvent Item) → List (SavedEntry Item)
  | _, [] => []
  | place, event :: events =>
    let entry := event.savedEntry place
    entry.toList ++ savedEntries (place + entry.toList.length) events

/-- Each saved entry has been applied once, or else one live transaction answers for it. -/
structure ExactlyOnce (world : SavedWorld Item) (applied all : List (SavedEntry Item)) : Prop where
  placed : ∀ {entry}, entry ∈ all → entry.place < world.saves
  appliedOnce : applied.Nodup
  savedOnce : ∀ {txnid txn}, world.live txnid = some txn → txn.saved.Nodup
  notApplied : ∀ {txnid txn entry}, world.live txnid = some txn → entry ∈ txn.saved →
    entry ∉ applied
  oneOwner : ∀ {txnid txn other otherTxn entry}, world.live txnid = some txn →
    world.live other = some otherTxn → entry ∈ txn.saved → entry ∈ otherTxn.saved → txnid = other
  complete : ∀ {entry}, entry ∈ all ↔
    entry ∈ applied ∨ ∃ txnid txn, world.live txnid = some txn ∧ entry ∈ txn.saved

namespace ExactlyOnce

variable {applied all : List (SavedEntry Item)}

variable {txnid : TxnidPair}

section

variable (once : ExactlyOnce world applied all)
include once

/-- A new transaction answers for nothing. -/
theorem begin {parent : Option TxnidPair} (absent : world.live txnid = none) :
    ExactlyOnce { world with
      live := Function.update world.live txnid (some { parent := parent, saved := [] }) }
      applied all := by
  -- Whoever answers for an entry is a transaction from before.
  have old : ∀ {there txn entry}, Function.update world.live txnid
      (some { parent := parent, saved := [] }) there = some txn → entry ∈ txn.saved →
      world.live there = some txn := by
    intro there txn entry live member
    by_cases same : there = txnid
    · subst same
      simp only [Function.update_self, Option.some.injEq] at live
      simp [← live] at member
    · simpa [Function.update_of_ne same] using live
  refine ⟨once.placed, once.appliedOnce, ?_, ?_, ?_, ?_⟩
  · intro there txn live
    by_cases same : there = txnid
    · subst same
      simp only [Function.update_self, Option.some.injEq] at live
      simp [← live]
    · exact once.savedOnce (by simpa [Function.update_of_ne same] using live)
  · exact fun live member => once.notApplied (old live member) member
  · exact fun live otherLive member there =>
      once.oneOwner (old live member) (old otherLive there) member there
  · intro entry
    rw [once.complete]
    refine or_congr_right ⟨?_, ?_⟩
    · rintro ⟨there, txn, live, member⟩
      have different : there ≠ txnid := by
        rintro rfl
        simp [absent] at live
      exact ⟨there, txn, by simpa [Function.update_of_ne different] using live, member⟩
    · rintro ⟨there, txn, live, member⟩
      exact ⟨there, txn, old live member, member⟩

/-- A newly saved entry is a new one, and its transaction answers for it. -/
theorem save {txn : SavedTxn Item} (item : Item) (here : world.live txnid = some txn) :
    ExactlyOnce
      { live := Function.update world.live txnid
          (some { txn with saved := txn.saved ++ [{ place := world.saves, item := item }] })
        saves := world.saves + 1 }
      applied (all ++ [{ place := world.saves, item := item }]) := by
  -- Its place is above that of every earlier entry.
  have fresh : ({ place := world.saves, item := item } : SavedEntry Item) ∉ all := by
    intro member
    have below := once.placed member
    simp at below
  have notHeld : ∀ {there held}, world.live there = some held →
      ({ place := world.saves, item := item } : SavedEntry Item) ∉ held.saved :=
    fun live member => fresh (once.complete.mpr (Or.inr ⟨_, _, live, member⟩))
  have kinds : ∀ {there held entry}, Function.update world.live txnid
      (some { txn with saved := txn.saved ++ [{ place := world.saves, item := item }] }) there =
        some held → entry ∈ held.saved →
      (there = txnid ∧ entry = { place := world.saves, item := item }) ∨
        ∃ before, world.live there = some before ∧ entry ∈ before.saved := by
    intro there held entry live member
    by_cases same : there = txnid
    · subst same
      simp only [Function.update_self, Option.some.injEq] at live
      rw [← live] at member
      rcases List.mem_append.mp member with member | member
      · exact Or.inr ⟨txn, here, member⟩
      · exact Or.inl ⟨rfl, List.mem_singleton.mp member⟩
    · exact Or.inr ⟨held, by simpa [Function.update_of_ne same] using live, member⟩
  refine ⟨?_, once.appliedOnce, ?_, ?_, ?_, ?_⟩
  · intro entry member
    rcases List.mem_append.mp member with member | member
    · exact Nat.lt_succ_of_lt (once.placed member)
    · obtain rfl := List.mem_singleton.mp member
      exact Nat.lt_succ_self _
  · intro there held live
    by_cases same : there = txnid
    · subst same
      simp only [Function.update_self, Option.some.injEq] at live
      rw [← live]
      refine List.nodup_append.mpr ⟨once.savedOnce here, by simp, ?_⟩
      rintro entry member _ last rfl
      exact notHeld here (List.mem_singleton.mp last ▸ member)
    · exact once.savedOnce (by simpa [Function.update_of_ne same] using live)
  · intro there held entry live member
    rcases kinds live member with ⟨-, rfl⟩ | ⟨before, was, member⟩
    · exact fun wasApplied => fresh (once.complete.mpr (Or.inl wasApplied))
    · exact once.notApplied was member
  · intro there held other otherHeld entry live otherLive member otherMember
    rcases kinds live member with ⟨same, new⟩ | ⟨before, was, member⟩
    · rcases kinds otherLive otherMember with ⟨otherSame, -⟩ | ⟨before, was, otherMember⟩
      · exact same.trans otherSame.symm
      · exact absurd otherMember (new ▸ notHeld was)
    · rcases kinds otherLive otherMember with ⟨-, new⟩ | ⟨otherBefore, otherWas, otherMember⟩
      · exact absurd member (new ▸ notHeld was)
      · exact once.oneOwner was otherWas member otherMember
  · intro entry
    rw [List.mem_append, once.complete, List.mem_singleton]
    constructor
    · rintro ((wasApplied | ⟨there, held, live, member⟩) | rfl)
      · exact Or.inl wasApplied
      · by_cases same : there = txnid
        · subst same
          obtain rfl := Option.some.inj (here.symm.trans live)
          exact Or.inr ⟨there, _, Function.update_self .., List.mem_append_left _ member⟩
        · exact Or.inr ⟨there, held, by simpa [Function.update_of_ne same] using live, member⟩
      · exact Or.inr ⟨txnid, _, Function.update_self .., by simp⟩
    · rintro (wasApplied | ⟨there, held, live, member⟩)
      · exact Or.inl (Or.inl wasApplied)
      · rcases kinds live member with ⟨-, new⟩ | ⟨before, was, member⟩
        · exact Or.inr new
        · exact Or.inl (Or.inr ⟨there, before, was, member⟩)

/-- A transaction that closes has what it answers for applied. -/
theorem finish (func : ApplyFunc) {txn : SavedTxn Item} (here : world.live txnid = some txn) :
    ExactlyOnce (world.finish func txnid txn).1
      (applied ++ (world.finish func txnid txn).2.map Prod.snd) all := by
  -- What the transaction answers for leaves it and is applied.
  have output : (world.finish func txnid txn).2.map Prod.snd = txn.saved.reverse := by
    simp [SavedWorld.finish, Function.comp_def]
  rw [output]
  have old : ∀ {there held}, (world.finish func txnid txn).1.live there = some held →
      there ≠ txnid ∧ world.live there = some held := by
    intro there held live
    by_cases same : there = txnid
    · simp [SavedWorld.finish, same] at live
    · exact ⟨same, by simpa [SavedWorld.finish, Function.update_of_ne same] using live⟩
  refine ⟨once.placed, ?_, ?_, ?_, ?_, ?_⟩
  · refine List.nodup_append.mpr
      ⟨once.appliedOnce, List.nodup_reverse.mpr (once.savedOnce here), ?_⟩
    rintro entry wasApplied _ member rfl
    exact once.notApplied here (List.mem_reverse.mp member) wasApplied
  · exact fun live => once.savedOnce (old live).2
  · intro there held entry live member wasApplied
    obtain ⟨different, was⟩ := old live
    rcases List.mem_append.mp wasApplied with before | now
    · exact once.notApplied was member before
    · exact different (once.oneOwner was here member (List.mem_reverse.mp now))
  · exact fun live otherLive member there =>
      once.oneOwner (old live).2 (old otherLive).2 member there
  · intro entry
    rw [once.complete, List.mem_append, List.mem_reverse]
    constructor
    · rintro (wasApplied | ⟨there, held, live, member⟩)
      · exact Or.inl (Or.inl wasApplied)
      · by_cases same : there = txnid
        · subst same
          obtain rfl := Option.some.inj (here.symm.trans live)
          exact Or.inl (Or.inr member)
        · exact Or.inr ⟨there, held,
            by simpa [SavedWorld.finish, Function.update_of_ne same] using live, member⟩
    · rintro ((wasApplied | member) | ⟨there, held, live, member⟩)
      · exact Or.inl wasApplied
      · exact Or.inr ⟨txnid, txn, here, member⟩
      · exact Or.inr ⟨there, held, (old live).2, member⟩

/-- A child that commits hands what it answers for to its parent. -/
theorem commitChild {child parent : TxnidPair} {childTxn parentTxn : SavedTxn Item}
    (different : parent ≠ child) (here : world.live child = some childTxn)
    (parentHere : world.live parent = some parentTxn) :
    ExactlyOnce { world with
      live := Function.update (Function.update world.live parent
        (some { parentTxn with saved := parentTxn.saved ++ childTxn.saved })) child none }
      applied all := by
  -- An entry is answered for by the same transaction as before, or by the parent for the child.
  have kinds : ∀ {there held entry}, Function.update (Function.update world.live parent
      (some { parentTxn with saved := parentTxn.saved ++ childTxn.saved })) child none there =
        some held → entry ∈ held.saved →
      (there = parent ∧ entry ∈ childTxn.saved) ∨
        (there ≠ child ∧ ∃ before, world.live there = some before ∧ entry ∈ before.saved) := by
    intro there held entry live member
    by_cases gone : there = child
    · simp [gone] at live
    · by_cases heir : there = parent
      · subst heir
        simp only [Function.update_of_ne gone, Function.update_self, Option.some.injEq] at live
        rw [← live] at member
        rcases List.mem_append.mp member with member | member
        · exact Or.inr ⟨gone, parentTxn, parentHere, member⟩
        · exact Or.inl ⟨rfl, member⟩
      · exact Or.inr ⟨gone, held,
          by simpa [Function.update_of_ne gone, Function.update_of_ne heir] using live, member⟩
  refine ⟨once.placed, once.appliedOnce, ?_, ?_, ?_, ?_⟩
  · intro there held live
    by_cases gone : there = child
    · simp [gone] at live
    · by_cases heir : there = parent
      · subst heir
        simp only [Function.update_of_ne gone, Function.update_self, Option.some.injEq] at live
        rw [← live]
        refine List.nodup_append.mpr ⟨once.savedOnce parentHere, once.savedOnce here, ?_⟩
        rintro entry member _ childMember rfl
        exact different (once.oneOwner parentHere here member childMember)
      · exact once.savedOnce
          (by simpa [Function.update_of_ne gone, Function.update_of_ne heir] using live)
  · intro there held entry live member
    rcases kinds live member with ⟨-, member⟩ | ⟨-, before, was, member⟩
    · exact once.notApplied here member
    · exact once.notApplied was member
  · intro there held other otherHeld entry live otherLive member otherMember
    rcases kinds live member with ⟨heir, inChild⟩ | ⟨stays, before, was, member⟩
    · rcases kinds otherLive otherMember with ⟨otherHeir, -⟩ | ⟨stays, before, was, otherMember⟩
      · exact heir.trans otherHeir.symm
      · exact absurd (once.oneOwner was here otherMember inChild) stays
    · rcases kinds otherLive otherMember with ⟨-, inChild⟩ | ⟨-, otherBefore, otherWas, otherMember⟩
      · exact absurd (once.oneOwner was here member inChild) stays
      · exact once.oneOwner was otherWas member otherMember
  · intro entry
    rw [once.complete]
    refine or_congr_right ⟨?_, ?_⟩
    · rintro ⟨there, held, live, member⟩
      by_cases gone : there = child
      · subst gone
        obtain rfl := Option.some.inj (here.symm.trans live)
        exact ⟨parent, { parentTxn with saved := parentTxn.saved ++ childTxn.saved },
          by simp [Function.update_of_ne different], by simp [member]⟩
      · by_cases heir : there = parent
        · subst heir
          obtain rfl := Option.some.inj (parentHere.symm.trans live)
          exact ⟨there, { parentTxn with saved := parentTxn.saved ++ childTxn.saved },
            by simp [Function.update_of_ne gone], by simp [member]⟩
        · exact ⟨there, held,
            by simpa [Function.update_of_ne gone, Function.update_of_ne heir] using live, member⟩
    · rintro ⟨there, held, live, member⟩
      rcases kinds live member with ⟨-, inChild⟩ | ⟨-, before, was, member⟩
      · exact ⟨child, childTxn, here, inChild⟩
      · exact ⟨there, before, was, member⟩

end

end ExactlyOnce

/-- No transaction is its own parent. -/
def SavedWorld.NoLoops (world : SavedWorld Item) : Prop :=
  ∀ {txnid txn}, world.live txnid = some txn → txn.parent ≠ some txnid

/-- No step makes a transaction its own parent. -/
theorem SavedWorld.NoLoops.step (noLoops : world.NoLoops)
    (stepped : world.Stepped event after applied) : after.NoLoops := by
  -- A new transaction is the parent of no other one.
  intro there held live
  cases stepped with
  | @begin txnid parent absent parentLive =>
    by_cases same : there = txnid
    · subst same
      simp only [Function.update_self, Option.some.injEq] at live
      rw [← live]
      intro loop
      have isLive := parentLive there loop
      simp [absent] at isLive
    · exact noLoops (by simpa [Function.update_of_ne same] using live)
  | @save txnid txn item here =>
    by_cases same : there = txnid
    · subst same
      simp only [Function.update_self, Option.some.injEq] at live
      rw [← live]
      have own := noLoops here
      exact own
    · exact noLoops (by simpa [Function.update_of_ne same] using live)
  | @commitChild child parent childTxn parentTxn here isParent parentHere =>
    by_cases gone : there = child
    · simp [gone] at live
    · by_cases heir : there = parent
      · subst heir
        simp only [Function.update_of_ne gone, Function.update_self, Option.some.injEq] at live
        rw [← live]
        have own := noLoops parentHere
        exact own
      · exact noLoops
          (by simpa [Function.update_of_ne gone, Function.update_of_ne heir] using live)
  | @commitRoot txnid txn here isRoot =>
    by_cases same : there = txnid
    · simp [SavedWorld.finish, same] at live
    · exact noLoops (by simpa [SavedWorld.finish, Function.update_of_ne same] using live)
  | @abort txnid txn here =>
    by_cases same : there = txnid
    · simp [SavedWorld.finish, same] at live
    · exact noLoops (by simpa [SavedWorld.finish, Function.update_of_ne same] using live)

/-- Every request keeps each entry applied once or answered for once. -/
theorem ExactlyOnce.step {applied all : List (SavedEntry Item)}
    {now : List (ApplyFunc × SavedEntry Item)} (once : ExactlyOnce world applied all)
    (noLoops : world.NoLoops) (stepped : world.Stepped event after now) :
    ExactlyOnce after (applied ++ now.map Prod.snd)
      (all ++ (event.savedEntry world.saves).toList) ∧
      after.saves = world.saves + (event.savedEntry world.saves).toList.length := by
  -- One case for each request.
  cases stepped with
  | begin absent parentLive =>
    exact ⟨by simpa [RollEvent.savedEntry] using once.begin absent, rfl⟩
  | save item here => exact ⟨by simpa [RollEvent.savedEntry] using once.save item here, rfl⟩
  | @commitChild child parent childTxn parentTxn here isParent parentHere =>
    have different : parent ≠ child := by
      rintro rfl
      exact noLoops here isParent
    exact ⟨by simpa [RollEvent.savedEntry] using once.commitChild different here parentHere, rfl⟩
  | commitRoot here isRoot =>
    exact ⟨by simpa [RollEvent.savedEntry] using once.finish .commit here, rfl⟩
  | abort here => exact ⟨by simpa [RollEvent.savedEntry] using once.finish .abort here, rfl⟩

/-- After any run each entry saved in it was applied once or is answered for once. -/
theorem ExactlyOnce.run :
    ∀ {events : List (RollEvent Item)} {world after : SavedWorld Item}
      {applied all : List (SavedEntry Item)} {now : List (List (ApplyFunc × SavedEntry Item))},
      ExactlyOnce world applied all → world.NoLoops → world.run events = some (after, now) →
      ExactlyOnce after (applied ++ now.flatten.map Prod.snd)
        (all ++ savedEntries world.saves events) := by
  -- By induction on the requests.
  intro events
  induction events with
  | nil =>
    intro world after applied all now once _ ran
    simp only [SavedWorld.run, Option.some.injEq, Prod.mk.injEq] at ran
    obtain ⟨rfl, rfl⟩ := ran
    simpa [savedEntries] using once
  | cons event events ih =>
    intro world after applied all now once noLoops ran
    simp only [SavedWorld.run, bind_inv, Prod.exists, Prod.mk.injEq] at ran
    obtain ⟨middle, here, first, last, later, rest, rfl, rfl⟩ := ran
    have stepped := SavedWorld.stepped_of_step first
    obtain ⟨once', saves⟩ := once.step noLoops stepped
    have whole := ih once' (noLoops.step stepped) rest
    rw [saves] at whole
    simpa [savedEntries] using whole

/-- At the start nothing was saved. -/
theorem ExactlyOnce.start : ExactlyOnce (SavedWorld.start : SavedWorld Item) [] [] := by
  refine ⟨?_, List.nodup_nil, ?_, ?_, ?_, ?_⟩
  all_goals simp [SavedWorld.start]

/-- The transaction that a request works in, which for a new one is its parent. -/
def RollEvent.workingTxn : RollEvent Item → Option TxnidPair
  | .begin _ parent => parent
  | .save txnid _ => some txnid
  | .commit txnid => some txnid
  | .abort txnid => some txnid

/-- A transaction may work as long as it has no live child. -/
def SavedWorld.MayWork (world : SavedWorld Item) (txnid : TxnidPair) : Prop :=
  ∀ {child childTxn}, world.live child = some childTxn → childTxn.parent ≠ some txnid

/-- Requests work only in transactions that have no live child. -/
def SavedWorld.InnermostOnly : SavedWorld Item → List (RollEvent Item) → Prop
  | _, [] => True
  | world, event :: events =>
    (∀ txnid, event.workingTxn = some txnid → world.MayWork txnid) ∧
      ∀ after applied, world.step event = some (after, applied) → after.InnermostOnly events

/-- Entries in the order of their saves. -/
def InOrderOfSaves (entries : List (SavedEntry Item)) : Prop :=
  entries.Pairwise fun earlier later => earlier.place < later.place

/-- Everything a transaction answers for is newer than what its parent saved before it began. -/
structure Chronological (world : SavedWorld Item) (began : TxnidPair → Nat) : Prop where
  ordered : ∀ {txnid txn}, world.live txnid = some txn → InOrderOfSaves txn.saved
  since : ∀ {txnid txn entry}, world.live txnid = some txn → entry ∈ txn.saved →
    began txnid ≤ entry.place ∧ entry.place < world.saves
  startedBy : ∀ {txnid txn}, world.live txnid = some txn → began txnid ≤ world.saves
  rooted : ∀ {child childTxn parent}, world.live child = some childTxn →
    childTxn.parent = some parent → ∃ parentTxn, world.live parent = some parentTxn
  nested : ∀ {child childTxn parent}, world.live child = some childTxn →
    childTxn.parent = some parent → began parent ≤ began child
  before : ∀ {child childTxn parent parentTxn entry}, world.live child = some childTxn →
    childTxn.parent = some parent → world.live parent = some parentTxn →
    entry ∈ parentTxn.saved → entry.place < began child
  onlyChild : ∀ {child childTxn other otherTxn parent}, world.live child = some childTxn →
    world.live other = some otherTxn → childTxn.parent = some parent →
    otherTxn.parent = some parent → child = other

namespace Chronological

variable {began : TxnidPair → Nat} {txnid : TxnidPair}

section

variable (chrono : Chronological world began)
include chrono

/-- A child that begins comes after everything that was saved so far. -/
theorem begin {parent : Option TxnidPair} (absent : world.live txnid = none)
    (parentLive : ∀ above, parent = some above → (world.live above).isSome)
    (mayWork : ∀ above, parent = some above → world.MayWork above) :
    Chronological
      { world with
        live := Function.update world.live txnid (some { parent := parent, saved := [] }) }
      (Function.update began txnid world.saves) := by
  have old : ∀ {there txn}, Function.update world.live txnid
      (some { parent := parent, saved := [] }) there = some txn →
      (there = txnid ∧ txn.parent = parent ∧ txn.saved = []) ∨
        (there ≠ txnid ∧ world.live there = some txn) := by
    intro there txn live
    by_cases same : there = txnid
    · subst same
      simp only [Function.update_self, Option.some.injEq] at live
      exact Or.inl ⟨rfl, by rw [← live], by rw [← live]⟩
    · exact Or.inr ⟨same, by simpa [Function.update_of_ne same] using live⟩
  have notAbove : ∀ {child childTxn}, world.live child = some childTxn →
      childTxn.parent ≠ some txnid := by
    intro child childTxn live above
    obtain ⟨parentTxn, parentHere⟩ := chrono.rooted live above
    simp [absent] at parentHere
  have notOwn : parent ≠ some txnid := by
    intro own
    have isLive := parentLive txnid own
    simp [absent] at isLive
  refine ⟨?_, ?_, ?_, ?_, ?_, ?_, ?_⟩
  · intro there txn live
    rcases old live with ⟨-, -, empty⟩ | ⟨-, was⟩
    · simp [empty, InOrderOfSaves]
    · exact chrono.ordered was
  · intro there txn entry live member
    rcases old live with ⟨-, -, empty⟩ | ⟨different, was⟩
    · simp [empty] at member
    · simpa [Function.update_of_ne different] using chrono.since was member
  · intro there txn live
    rcases old live with ⟨rfl, -, -⟩ | ⟨different, was⟩
    · simp
    · simpa [Function.update_of_ne different] using chrono.startedBy was
  · intro child childTxn above live isParent
    rcases old live with ⟨-, sameParent, -⟩ | ⟨-, was⟩
    · have isLive := parentLive above (sameParent ▸ isParent)
      obtain ⟨parentTxn, parentHere⟩ := Option.isSome_iff_exists.mp isLive
      have different : above ≠ txnid := fun own => notOwn (own ▸ sameParent ▸ isParent)
      exact ⟨parentTxn, by simpa [Function.update_of_ne different] using parentHere⟩
    · obtain ⟨parentTxn, parentHere⟩ := chrono.rooted was isParent
      have different : above ≠ txnid := fun own => notAbove was (own ▸ isParent)
      exact ⟨parentTxn, by simpa [Function.update_of_ne different] using parentHere⟩
  · intro child childTxn above live isParent
    rcases old live with ⟨rfl, sameParent, -⟩ | ⟨different, was⟩
    · have isLive := parentLive above (sameParent ▸ isParent)
      obtain ⟨parentTxn, parentHere⟩ := Option.isSome_iff_exists.mp isLive
      have aboveDiffers : above ≠ child := fun own => notOwn (own ▸ sameParent ▸ isParent)
      simpa [Function.update_of_ne aboveDiffers] using chrono.startedBy parentHere
    · have aboveDiffers : above ≠ txnid := fun own => notAbove was (own ▸ isParent)
      simpa [Function.update_of_ne different, Function.update_of_ne aboveDiffers] using
        chrono.nested was isParent
  · intro child childTxn above parentTxn entry live isParent parentHere member
    rcases old parentHere with ⟨-, -, empty⟩ | ⟨-, parentWas⟩
    · simp [empty] at member
    · rcases old live with ⟨rfl, -, -⟩ | ⟨different, was⟩
      · simpa using (chrono.since parentWas member).2
      · simpa [Function.update_of_ne different] using chrono.before was isParent parentWas member
  · intro child childTxn other otherTxn above live otherLive isParent otherParent
    rcases old live with ⟨same, sameParent, -⟩ | ⟨-, was⟩
    · rcases old otherLive with ⟨otherSame, -, -⟩ | ⟨-, otherWas⟩
      · exact same.trans otherSame.symm
      · exact absurd otherParent (mayWork above (sameParent ▸ isParent) otherWas)
    · rcases old otherLive with ⟨-, sameParent, -⟩ | ⟨-, otherWas⟩
      · exact absurd isParent (mayWork above (sameParent ▸ otherParent) was)
      · exact chrono.onlyChild was otherWas isParent otherParent

/-- An entry saved where no child is live is the newest one of its transaction
and of its ancestors. -/
theorem save {txn : SavedTxn Item} (item : Item) (here : world.live txnid = some txn)
    (mayWork : world.MayWork txnid) :
    Chronological
      { live := Function.update world.live txnid
          (some { txn with saved := txn.saved ++ [{ place := world.saves, item := item }] })
        saves := world.saves + 1 } began := by
  have old : ∀ {there held}, Function.update world.live txnid
      (some { txn with saved := txn.saved ++ [{ place := world.saves, item := item }] }) there =
        some held →
      (there = txnid ∧ held.parent = txn.parent ∧
        held.saved = txn.saved ++ [{ place := world.saves, item := item }]) ∨
      (there ≠ txnid ∧ world.live there = some held) := by
    intro there held live
    by_cases same : there = txnid
    · subst same
      simp only [Function.update_self, Option.some.injEq] at live
      exact Or.inl ⟨rfl, by rw [← live], by rw [← live]⟩
    · exact Or.inr ⟨same, by simpa [Function.update_of_ne same] using live⟩
  -- Whatever the parent links say was so before.
  have linked : ∀ {there held}, Function.update world.live txnid
      (some { txn with saved := txn.saved ++ [{ place := world.saves, item := item }] }) there =
        some held → ∃ before, world.live there = some before ∧ before.parent = held.parent := by
    intro there held live
    rcases old live with ⟨rfl, sameParent, -⟩ | ⟨-, was⟩
    · exact ⟨txn, here, sameParent.symm⟩
    · exact ⟨held, was, rfl⟩
  refine ⟨?_, ?_, ?_, ?_, ?_, ?_, ?_⟩
  · intro there held live
    rcases old live with ⟨-, -, more⟩ | ⟨-, was⟩
    · rw [more]
      refine List.pairwise_append.mpr ⟨chrono.ordered here, List.pairwise_singleton _ _, ?_⟩
      intro earlier member later last
      rw [List.mem_singleton.mp last]
      exact (chrono.since here member).2
    · exact chrono.ordered was
  · intro there held entry live member
    rcases old live with ⟨rfl, -, more⟩ | ⟨-, was⟩
    · rw [more] at member
      rcases List.mem_append.mp member with member | member
      · have since := chrono.since here member
        exact ⟨since.1, Nat.lt_succ_of_lt since.2⟩
      · rw [List.mem_singleton.mp member]
        exact ⟨chrono.startedBy here, Nat.lt_succ_self _⟩
    · have since := chrono.since was member
      exact ⟨since.1, Nat.lt_succ_of_lt since.2⟩
  · intro there held live
    obtain ⟨before, was, -⟩ := linked live
    exact Nat.le_succ_of_le (chrono.startedBy was)
  · intro child childTxn above live isParent
    obtain ⟨before, was, sameParent⟩ := linked live
    obtain ⟨parentTxn, parentHere⟩ := chrono.rooted was (sameParent.trans isParent)
    by_cases same : above = txnid
    · exact ⟨{ txn with saved := txn.saved ++ [{ place := world.saves, item := item }] },
        by simp [same]⟩
    · exact ⟨parentTxn, by simpa [Function.update_of_ne same] using parentHere⟩
  · intro child childTxn above live isParent
    obtain ⟨before, was, sameParent⟩ := linked live
    exact chrono.nested was (sameParent.trans isParent)
  · intro child childTxn above parentTxn entry live isParent parentHere member
    obtain ⟨before, was, sameParent⟩ := linked live
    rcases old parentHere with ⟨rfl, -, -⟩ | ⟨-, parentWas⟩
    · exact absurd (sameParent.trans isParent) (mayWork was)
    · exact chrono.before was (sameParent.trans isParent) parentWas member
  · intro child childTxn other otherTxn above live otherLive isParent otherParent
    obtain ⟨before, was, sameParent⟩ := linked live
    obtain ⟨otherBefore, otherWas, otherSame⟩ := linked otherLive
    exact chrono.onlyChild was otherWas (sameParent.trans isParent) (otherSame.trans otherParent)

/-- What a committing child answers for is newer than all that its parent answers for. -/
theorem commitChild {child parent : TxnidPair} {childTxn parentTxn : SavedTxn Item}
    (here : world.live child = some childTxn) (isParent : childTxn.parent = some parent)
    (parentHere : world.live parent = some parentTxn) (mayWork : world.MayWork child) :
    Chronological { world with
      live := Function.update (Function.update world.live parent
        (some { parentTxn with saved := parentTxn.saved ++ childTxn.saved })) child none }
      began := by
  have old : ∀ {there held}, Function.update (Function.update world.live parent
      (some { parentTxn with saved := parentTxn.saved ++ childTxn.saved })) child none there =
        some held → there ≠ child ∧
      ((there = parent ∧ held.parent = parentTxn.parent ∧
        held.saved = parentTxn.saved ++ childTxn.saved) ∨ world.live there = some held) := by
    intro there held live
    by_cases gone : there = child
    · simp [gone] at live
    · refine ⟨gone, ?_⟩
      by_cases heir : there = parent
      · subst heir
        simp only [Function.update_of_ne gone, Function.update_self, Option.some.injEq] at live
        exact Or.inl ⟨rfl, by rw [← live], by rw [← live]⟩
      · exact Or.inr (by simpa [Function.update_of_ne gone, Function.update_of_ne heir] using live)
  have linked : ∀ {there held}, Function.update (Function.update world.live parent
      (some { parentTxn with saved := parentTxn.saved ++ childTxn.saved })) child none there =
        some held → ∃ before, world.live there = some before ∧ before.parent = held.parent := by
    intro there held live
    rcases (old live).2 with ⟨rfl, sameParent, -⟩ | was
    · exact ⟨parentTxn, parentHere, sameParent.symm⟩
    · exact ⟨held, was, rfl⟩
  refine ⟨?_, ?_, ?_, ?_, ?_, ?_, ?_⟩
  · intro there held live
    rcases (old live).2 with ⟨-, -, more⟩ | was
    · rw [more]
      refine List.pairwise_append.mpr ⟨chrono.ordered parentHere, chrono.ordered here, ?_⟩
      intro earlier member later inChild
      exact lt_of_lt_of_le (chrono.before here isParent parentHere member)
        (chrono.since here inChild).1
    · exact chrono.ordered was
  · intro there held entry live member
    rcases (old live).2 with ⟨rfl, -, more⟩ | was
    · rw [more] at member
      rcases List.mem_append.mp member with member | member
      · exact chrono.since parentHere member
      · have since := chrono.since here member
        exact ⟨le_trans (chrono.nested here isParent) since.1, since.2⟩
    · exact chrono.since was member
  · intro there held live
    obtain ⟨before, was, -⟩ := linked live
    exact chrono.startedBy was
  · intro other otherTxn above live otherParent
    obtain ⟨before, was, sameParent⟩ := linked live
    obtain ⟨aboveTxn, aboveHere⟩ := chrono.rooted was (sameParent.trans otherParent)
    have different : above ≠ child := by
      rintro rfl
      exact mayWork was (sameParent.trans otherParent)
    by_cases heir : above = parent
    · exact ⟨{ parentTxn with saved := parentTxn.saved ++ childTxn.saved },
        by simp [heir, heir ▸ different]⟩
    · exact ⟨aboveTxn, by
        simpa [Function.update_of_ne different, Function.update_of_ne heir] using aboveHere⟩
  · intro other otherTxn above live otherParent
    obtain ⟨before, was, sameParent⟩ := linked live
    exact chrono.nested was (sameParent.trans otherParent)
  · intro other otherTxn above aboveTxn entry live otherParent aboveHere member
    obtain ⟨before, was, sameParent⟩ := linked live
    rcases (old aboveHere).2 with ⟨rfl, -, -⟩ | aboveWas
    · -- The parent has no other child, and the committing one is gone.
      have same := chrono.onlyChild was here (sameParent.trans otherParent) isParent
      exact absurd same (old live).1
    · exact chrono.before was (sameParent.trans otherParent) aboveWas member
  · intro first firstTxn second secondTxn above live otherLive firstParent secondParent
    obtain ⟨before, was, sameParent⟩ := linked live
    obtain ⟨otherBefore, otherWas, otherSame⟩ := linked otherLive
    exact chrono.onlyChild was otherWas (sameParent.trans firstParent)
      (otherSame.trans secondParent)

/-- A transaction without live children closes without any trace. -/
theorem finish (func : ApplyFunc) {txn : SavedTxn Item} (mayWork : world.MayWork txnid) :
    Chronological (world.finish func txnid txn).1 began := by
  have old : ∀ {there held}, (world.finish func txnid txn).1.live there = some held →
      world.live there = some held := by
    intro there held live
    by_cases same : there = txnid
    · simp [SavedWorld.finish, same] at live
    · simpa [SavedWorld.finish, Function.update_of_ne same] using live
  refine ⟨fun live => chrono.ordered (old live), fun live => chrono.since (old live),
    fun live => chrono.startedBy (old live), ?_, fun live => chrono.nested (old live),
    fun live isParent above => chrono.before (old live) isParent (old above),
    fun live otherLive => chrono.onlyChild (old live) (old otherLive)⟩
  intro child childTxn above live isParent
  obtain ⟨parentTxn, parentHere⟩ := chrono.rooted (old live) isParent
  have different : above ≠ txnid := by
    rintro rfl
    exact mayWork (old live) isParent
  exact ⟨parentTxn, by simpa [SavedWorld.finish, Function.update_of_ne different] using parentHere⟩

end

end Chronological

/-- Entries that come newest first. -/
def NewestFirst (applied : List (ApplyFunc × SavedEntry Item)) : Prop :=
  applied.Pairwise fun earlier later => later.2.place < earlier.2.place

/-- Entries in the order of their saves are applied newest first. -/
theorem newestFirst_finish (func : ApplyFunc) (txnid : TxnidPair) {txn : SavedTxn Item}
    (ordered : InOrderOfSaves txn.saved) :
    NewestFirst (world.finish func txnid txn).2 := by
  simp only [NewestFirst, SavedWorld.finish, List.pairwise_map, List.pairwise_reverse]
  exact ordered

/-- A request in an innermost transaction applies entries newest first, and keeps their order. -/
theorem Chronological.step {began : TxnidPair → Nat} (chrono : Chronological world began)
    (mayWork : ∀ txnid, event.workingTxn = some txnid → world.MayWork txnid)
    (stepped : world.Stepped event after applied) :
    NewestFirst applied ∧ ∃ began', Chronological after began' := by
  -- One case for each request.
  cases stepped with
  | begin absent parentLive =>
    exact ⟨List.Pairwise.nil, _, chrono.begin absent parentLive mayWork⟩
  | save item here => exact ⟨List.Pairwise.nil, _, chrono.save item here (mayWork _ rfl)⟩
  | commitChild here isParent parentHere =>
    exact ⟨List.Pairwise.nil, _,
      chrono.commitChild here isParent parentHere (mayWork _ rfl)⟩
  | commitRoot here isRoot =>
    exact ⟨newestFirst_finish _ _ (chrono.ordered here), _, chrono.finish _ (mayWork _ rfl)⟩
  | abort here =>
    exact ⟨newestFirst_finish _ _ (chrono.ordered here), _, chrono.finish _ (mayWork _ rfl)⟩

/-- In a run that works in innermost transactions only, entries are applied newest first. -/
theorem Chronological.run :
    ∀ {events : List (RollEvent Item)} {world after : SavedWorld Item}
      {began : TxnidPair → Nat} {applied : List (List (ApplyFunc × SavedEntry Item))},
      Chronological world began → world.InnermostOnly events →
      world.run events = some (after, applied) → ∀ now ∈ applied, NewestFirst now := by
  -- By induction on the requests.
  intro events
  induction events with
  | nil =>
    intro world after began applied _ _ ran now member
    simp only [SavedWorld.run, Option.some.injEq, Prod.mk.injEq] at ran
    simp [← ran.2] at member
  | cons event events ih =>
    intro world after began applied chrono innermost ran now member
    simp only [SavedWorld.run, bind_inv, Prod.exists, Prod.mk.injEq] at ran
    obtain ⟨middle, here, first, last, later, rest, rfl, rfl⟩ := ran
    have stepped := SavedWorld.stepped_of_step first
    obtain ⟨newest, began', chrono'⟩ := chrono.step innermost.1 stepped
    rcases List.mem_cons.mp member with rfl | member
    · exact newest
    · exact ih chrono' (innermost.2 _ _ first) rest now member

/-- At the start there is no order to keep. -/
theorem Chronological.start :
    Chronological (SavedWorld.start : SavedWorld Item) (fun _ => 0) := by
  refine ⟨?_, ?_, ?_, ?_, ?_, ?_, ?_⟩
  all_goals simp [SavedWorld.start]

end Tokuft
