import Tokuft.Tree.StatSteps

/-! The counts of a tree against the changes of its leaves, and against their last images. -/

namespace Tokuft

variable {Key : Type}

/-- The last basement node of a leaf can be destroyed: it has rows, or no change of the counts. -/
def StatFt.MergeKeepsDelta (ft : StatFt Key) (i : Nat) : Prop :=
  ∀ leaf ∈ ft.leaves[i]?, ∀ bn, leaf.bps.getLast? = some (some bn) → bn.rows = [] →
    bn.stat64Delta = 0

/-- No change of the counts is dropped with a clean leaf, or by a merge. -/
def StatFt.DropsNoDelta (ft : StatFt Key) : StatEvent Key → Prop
  | .evict i => ∀ leaf ∈ ft.leaves[i]?, leaf.deltas = 0
  | .merge i | .balance i _ _ => ft.MergeKeepsDelta i
  | _ => True

/-- The condition on a merge, for a leaf that is fully in memory. -/
theorem mergeKeeps_of {ft : StatFt Key} {i : Nat} {leaf : StatLeaf Key} {bns : List (StatBn Key)}
    (keeps : ft.MergeKeepsDelta i) (here : ft.leaves[i]? = some leaf)
    (whole : leaf.bps = bns.map some) : MergeKeeps bns := by
  intro last final nothing
  refine keeps leaf here last ?_ nothing
  rw [whole, List.getLast?_map, Option.mem_def.mp final]
  rfl

section Memory

/-- The count in memory is that of the header with the changes, and no clone has a change. -/
structure StatFt.Balanced (ft : StatFt Key) : Prop where
  counted : ft.inMemoryStats = ft.onDiskStats + ft.deltas
  cloned : ∀ leaf ∈ ft.leaves, ∀ bns ∈ leaf.clone, bnsDeltas bns = 0

variable {sizes : KeySizes Key} {ft after : StatFt Key} {event : StatEvent Key} {i : Nat}
  {old new : List (StatLeaf Key)} {inMemory onDisk : Stat64Info}

/-- The changes of a leaf that is fully in memory are those of its basement nodes. -/
theorem deltas_of_whole {leaf : StatLeaf Key} {bns : List (StatBn Key)}
    (whole : leaf.bps = bns.map some) : leaf.deltas = bnsDeltas bns := by
  rw [StatLeaf.deltas, whole, List.map_map]
  rfl

/-- Setting a basement node changes the changes of its leaf. -/
theorem deltas_set {leaf : StatLeaf Key} {j : Nat} {bp : Option (StatBn Key)}
    (here : leaf.bps[j]? = some bp) (placed : Option (StatBn Key)) :
    ({ leaf with bps := leaf.bps.set j placed } : StatLeaf Key).deltas + bpDelta bp =
      leaf.deltas + bpDelta placed :=
  sum_set_item bpDelta here placed

/-- Every change of leaves that drops no delta keeps the two counts apart by the deltas. -/
theorem LeafChange.deltas (change : LeafChange sizes event i old new inMemory onDisk)
    (stretch : (ft.leaves.drop i).take old.length = old) (keeps : ft.DropsNoDelta event)
    (cloned : ∀ leaf ∈ old, ∀ bns ∈ leaf.clone, bnsDeltas bns = 0) :
    (new.map StatLeaf.deltas).sum + onDisk = (old.map StatLeaf.deltas).sum + inMemory := by
  cases change with
  | @applyMsg i j msg gcInfo leaf bn rows delta here told =>
    have set := deltas_set here (some ⟨rows, bn.stat64Delta + inMemory⟩)
    simp only [List.map_cons, List.map_nil, List.sum_singleton, add_zero]
    refine add_right_cancel (b := bn.stat64Delta) (set.trans ?_)
    show leaf.deltas + (bn.stat64Delta + inMemory) = _
    abel
  | setDirty whole => rfl
  | @split i numLeftBns numLeftLes leaf bns left right whole taken =>
    -- Splitting divides the changes among the two leaves.
    have divided := (statLeafSplit_spec taken).1
    simp only [List.map_cons, List.map_nil, List.sum_cons, List.sum_nil, add_zero]
    rw [deltas_of_whole whole, ← divided, deltas_of_whole rfl, deltas_of_whole rfl]
  | @merge i a b bnsA bnsB bns wholeA wholeB merged =>
    have all := (statMergeLeafNodes_spec merged).2
      (mergeKeeps_of keeps (head_of_stretch stretch) wholeA)
    simp only [List.map_cons, List.map_nil, List.sum_cons, List.sum_nil, add_zero]
    rw [deltas_of_whole wholeA, deltas_of_whole wholeB, ← all, deltas_of_whole rfl]
  | @balance i numLeftBns numLeftLes a b bnsA bnsB bns left right wholeA wholeB merged taken =>
    have divided := (statLeafSplit_spec taken).1
    have all := (statMergeLeafNodes_spec merged).2
      (mergeKeeps_of keeps (head_of_stretch stretch) wholeA)
    simp only [List.map_cons, List.map_nil, List.sum_cons, List.sum_nil, add_zero]
    rw [deltas_of_whole wholeA, deltas_of_whole wholeB, ← all, ← divided, deltas_of_whole rfl,
      deltas_of_whole rfl]
  | @write i forCheckpoint gcInfo lengths leaf bns collected bnsAfter delta noClone whole each
      deltas divided =>
    -- The header gains what the basement nodes have changed, and they start anew.
    have fresh := (leafRegroup_spec divided).2.1
    simp only [List.map_cons, List.map_nil, List.sum_cons, List.sum_nil, add_zero]
    rw [deltas_of_whole whole, ← deltas, deltas_of_whole rfl, fresh, zero_add]
  | @cloneLeaf i forCheckpoint lengths leaf bns bnsAfter whole divided =>
    have fresh := (leafRegroup_spec divided).2.1
    simp only [List.map_cons, List.map_nil, List.sum_cons, List.sum_nil, add_zero]
    rw [deltas_of_whole whole, deltas_of_whole rfl, fresh, zero_add]
  | @writeClone i gcInfo leaf bns collected waiting each =>
    rw [cloned leaf List.mem_cons_self bns waiting, neg_zero]
    rfl
  | @evictBn i j leaf bn clean here =>
    have set := deltas_set here none
    simp only [List.map_cons, List.map_nil, List.sum_singleton, add_zero]
    exact eq_add_neg_of_add_eq (set.trans (add_zero _))
  | @evict i leaf clean =>
    -- What the leaf had changed would be lost, and it was nothing.
    have nothing : leaf.deltas = 0 := keeps leaf (head_of_stretch stretch)
    have gone : ((leaf.bps.map fun _ => (none : Option (StatBn Key))).map bpDelta).sum = 0 := by
      rw [List.map_map]
      exact List.sum_eq_zero (by simp [bpDelta])
    simp only [List.map_cons, List.map_nil, List.sum_cons, List.sum_nil, add_zero]
    rw [nothing]
    exact gone
  | @fetch i j leaf rows noClone here image =>
    have set := deltas_set here (some ⟨rows, 0⟩)
    simp only [List.map_cons, List.map_nil, List.sum_singleton, add_zero]
    exact add_right_cancel set

/-- No change of leaves gives a clone a delta. -/
theorem LeafChange.cloned (change : LeafChange sizes event i old new inMemory onDisk)
    (cloned : ∀ leaf ∈ old, ∀ bns ∈ leaf.clone, bnsDeltas bns = 0) :
    ∀ leaf ∈ new, ∀ bns ∈ leaf.clone, bnsDeltas bns = 0 := by
  -- Only cloning makes a clone; every other leaf has that of one of the old leaves, or none.
  cases change with
  | cloneLeaf whole divided =>
    intro leaf member bns clone
    rw [List.mem_singleton.mp member] at clone
    cases clone
    exact (leafRegroup_spec divided).2.1
  | @merge i a b bnsA bnsB bns wholeA wholeB merged =>
    intro leaf member
    rw [List.mem_singleton.mp member]
    exact cloned a List.mem_cons_self
  | writeClone waiting each => simp
  | applyMsg | setDirty | split | balance | write | evictBn | evict | fetch =>
    simpa using cloned

/-- A step that drops no delta keeps the two counts apart by the deltas. -/
theorem StatFt.Balanced.step [LinearOrder Key] {updateFun : UpdateFunc Key}
    (balanced : ft.Balanced) (keeps : ft.DropsNoDelta event)
    (taken : ft.next sizes updateFun event = some after) : after.Balanced := by
  rcases StatFt.next_cases taken with ⟨stats, rfl⟩ | changes
  · exact ⟨balanced.counted, balanced.cloned⟩
  · obtain ⟨i, old, new, inMemory, onDisk, change, stretch, counted, header, placed⟩ := changes
    have cloned : ∀ leaf ∈ old, ∀ bns ∈ leaf.clone, bnsDeltas bns = 0 :=
      fun leaf member => balanced.cloned leaf (mem_of_stretch stretch member)
    refine ⟨?_, ?_⟩
    · have told := change.deltas stretch keeps cloned
      have sums := sum_splice StatLeaf.deltas stretch new
      rw [← placed] at sums
      -- The sums over the old leaves and over the new ones differ by what the counts gain.
      have gained := eq_sub_of_add_eq' told.symm
      have remaining : after.deltas = ft.deltas + (new.map StatLeaf.deltas).sum -
          (old.map StatLeaf.deltas).sum := eq_sub_of_add_eq sums
      rw [counted, header, balanced.counted, gained, remaining]
      abel
    · intro leaf member
      rw [placed] at member
      rcases mem_splice member with new | there
      · exact change.cloned cloned leaf new
      · exact balanced.cloned leaf there

end Memory

section Disk

variable (sizes : KeySizes Key)

/-- What a basement node in memory counts without its change. -/
def bpLess : Option (StatBn Key) → Stat64Info
  | none => 0
  | some bn => rowsStats sizes bn.rows + -bn.stat64Delta

/-- What a leaf contributes to the count of the header: its last image, or, once rows came from
another leaf or went to one, its rows in memory without their change. -/
def StatLeaf.settled (leaf : StatLeaf Key) : Stat64Info :=
  if leaf.reshaped then (leaf.bps.map (bpLess sizes)).sum
  else (leaf.lastImage.map (rowsStats sizes)).sum

/-- The rows and bytes of basement nodes without their changes. -/
def bnsLess (bns : List (StatBn Key)) : Stat64Info :=
  rowsStats sizes (bnsRows bns) + -bnsDeltas bns

/-- A basement node has the counts of its image and its change, unless it is on disk only. -/
def MatchesImage (bp : Option (StatBn Key)) (image : BnRows Key) : Prop :=
  ∀ bn ∈ bp, rowsStats sizes bn.rows + -bn.stat64Delta = rowsStats sizes image

/-- A clean leaf matches its last image, and one that has changed is fully in memory. -/
structure StatLeaf.Kept (leaf : StatLeaf Key) : Prop where
  imaged : leaf.dirty = false →
    leaf.reshaped = false ∧ List.Forall₂ (MatchesImage sizes) leaf.bps leaf.lastImage
  whole : leaf.dirty = true → ∃ bns, leaf.bps = bns.map some ∧
    (leaf.reshaped = false → bnsLess sizes bns = (leaf.lastImage.map (rowsStats sizes)).sum)

/-- No merge drops a change of the counts, and no garbage collection changes what a clone that is
being written counts. -/
def StatFt.WritesCounted (ft : StatFt Key) : StatEvent Key → Prop
  | .merge i | .balance i _ _ => ft.MergeKeepsDelta i
  | .writeClone i gcInfo => ∀ leaf ∈ ft.leaves[i]?, ∀ bns ∈ leaf.clone, ∀ bn ∈ bns, ∀ after,
      BnCollected sizes gcInfo bn after → rowsStats sizes after.rows = rowsStats sizes bn.rows
  | _ => True

variable {sizes} {ft after : StatFt Key} {event : StatEvent Key} {i : Nat}
  {old new : List (StatLeaf Key)} {inMemory onDisk : Stat64Info}

variable {bns collected : List (StatBn Key)} {leaf : StatLeaf Key} {bn : StatBn Key}
  {gcInfo : Option TxnGcInfo}

/-- Rows that stand one after the other count together. -/
theorem rowsStats_append (rows more : BnRows Key) :
    rowsStats sizes (rows ++ more) = rowsStats sizes rows + rowsStats sizes more := by
  rw [rowsStats, List.map_append, List.sum_append, rowsStats, rowsStats]

/-- What basement nodes count is what each of them counts, added up. -/
theorem sum_rowsStats (bns : List (StatBn Key)) :
    ((bns.map StatBn.rows).map (rowsStats sizes)).sum = rowsStats sizes (bnsRows bns) := by
  induction bns with
  | nil => rfl
  | cons bn rest ih =>
    rw [bnsRows, List.flatMap_cons, ← bnsRows, rowsStats_append, ← ih, List.map_cons,
      List.map_cons, List.sum_cons]

@[simp] theorem bnsLess_cons (bn : StatBn Key) (bns : List (StatBn Key)) :
    bnsLess sizes (bn :: bns) = bpLess sizes (some bn) + bnsLess sizes bns := by
  rw [bnsLess, bnsRows, List.flatMap_cons, ← bnsRows, rowsStats_append, bnsDeltas_cons, bpLess,
    bnsLess]
  abel

/-- The same for a leaf that is fully in memory. -/
theorem sum_bpLess (bns : List (StatBn Key)) :
    ((bns.map some).map (bpLess sizes)).sum = bnsLess sizes bns := by
  induction bns with
  | nil => exact (add_zero _).symm
  | cons bn rest ih => rw [List.map_cons, List.map_cons, List.sum_cons, ih, bnsLess_cons]

/-- Basement nodes that match images count, without their changes, what the images count. -/
theorem bnsLess_of_matches {images : List (BnRows Key)}
    (same : List.Forall₂ (MatchesImage sizes) (bns.map some) images) :
    bnsLess sizes bns = (images.map (rowsStats sizes)).sum := by
  induction bns generalizing images with
  | nil =>
    cases same
    exact add_zero _
  | cons bn rest ih =>
    cases same with
    | cons here behind =>
      rw [bnsLess_cons, ih behind, List.map_cons, List.sum_cons, ← here bn rfl]
      rfl

/-- A leaf that is fully in memory contributes its rows without their changes. -/
theorem StatLeaf.Kept.settled_of_whole (kept : leaf.Kept sizes) (whole : leaf.bps = bns.map some) :
    leaf.settled sizes = bnsLess sizes bns := by
  rw [settled]
  cases reshaped : leaf.reshaped with
  | true => rw [if_pos rfl, whole, sum_bpLess]
  | false =>
    rw [if_neg Bool.false_ne_true]
    cases dirty : leaf.dirty with
    | false =>
      have same := (kept.imaged dirty).2
      rw [whole] at same
      exact (bnsLess_of_matches same).symm
    | true =>
      obtain ⟨others, again, counts⟩ := kept.whole dirty
      -- A list of basement nodes that are in memory is determined by the leaf.
      have same : bns = others :=
        List.map_injective_iff.mpr (Option.some_injective _) (whole.symm.trans again)
      rw [same, counts reshaped]

/-- A leaf whose rows came from others, or went to others, is kept as it is. -/
theorem kept_of_reshaped (leaf : StatLeaf Key) (bns : List (StatBn Key)) :
    ({ leaf with bps := bns.map some, dirty := true, reshaped := true } : StatLeaf Key).Kept
      sizes where
  imaged := by simp
  whole := fun _ => ⟨bns, rfl, by simp⟩

/-- It contributes its rows without their changes. -/
theorem settled_of_reshaped (leaf : StatLeaf Key) (bns : List (StatBn Key)) :
    ({ leaf with bps := bns.map some, dirty := true, reshaped := true } : StatLeaf Key).settled
      sizes = bnsLess sizes bns :=
  (kept_of_reshaped leaf bns).settled_of_whole rfl

/-- When rows and change gain the same, what counts without the change stays the same. -/
theorem bpLess_told {rows : BnRows Key} {delta : Stat64Info}
    (told : rowsStats sizes bn.rows + delta = rowsStats sizes rows) :
    bpLess sizes (some ⟨rows, bn.stat64Delta + delta⟩) = bpLess sizes (some bn) := by
  show rowsStats sizes rows + -(bn.stat64Delta + delta) =
    rowsStats sizes bn.rows + -bn.stat64Delta
  rw [← told]
  abel

/-- Garbage collection tells what it changes. -/
theorem bpLess_collected {collected : StatBn Key} (gc : BnCollected sizes gcInfo bn collected) :
    bpLess sizes (some collected) = bpLess sizes (some bn) := by
  cases gcInfo with
  | none => rw [gc]
  | some gcInfo =>
    obtain ⟨delta, gc⟩ := gc
    simp only [StatBn.gcAllLes, bind_inv, Prod.mk.injEq, Prod.exists] at gc
    obtain ⟨rows, _, visited, rfl, rfl⟩ := gc
    exact bpLess_told (visitRows_stats tells_rowGcOnce visited)

/-- The same for all basement nodes of a leaf. -/
theorem bnsLess_collected (each : List.Forall₂ (BnCollected sizes gcInfo) bns collected) :
    bnsLess sizes collected = bnsLess sizes bns := by
  induction each with
  | nil => rfl
  | cons here behind ih => rw [bnsLess_cons, bnsLess_cons, ih, bpLess_collected here]

/-- Basement nodes that have just been made from rows match their own image. -/
theorem matches_fresh (fresh : ∀ bn ∈ bns, bn.stat64Delta = 0) :
    List.Forall₂ (MatchesImage sizes) (bns.map some) (bns.map StatBn.rows) := by
  rw [List.forall₂_map_left_iff, List.forall₂_map_right_iff, List.forall₂_same]
  intro bn member other same
  cases same
  rw [fresh bn member, neg_zero, add_zero]

/-- A message changes neither what a leaf contributes nor whether it matches its image. -/
theorem StatLeaf.Kept.applied (kept : leaf.Kept sizes) {j : Nat} {rows : BnRows Key}
    {delta : Stat64Info} (here : leaf.bps[j]? = some (some bn))
    (told : rowsStats sizes bn.rows + delta = rowsStats sizes rows) :
    ({ leaf with bps := leaf.bps.set j (some ⟨rows, bn.stat64Delta + delta⟩) } :
        StatLeaf Key).Kept sizes ∧
      ({ leaf with bps := leaf.bps.set j (some ⟨rows, bn.stat64Delta + delta⟩) } :
        StatLeaf Key).settled sizes = leaf.settled sizes := by
  -- The rows and the change of the basement node gain the same.
  have less := bpLess_told told
  have sums := sum_set_item (bpLess sizes) here (some ⟨rows, bn.stat64Delta + delta⟩)
  rw [less] at sums
  have same := add_right_cancel sums
  refine ⟨⟨?_, ?_⟩, ?_⟩
  · intro clean
    obtain ⟨own, all⟩ := kept.imaged clean
    refine ⟨own, forall₂_set all ?_⟩
    intro image there other placed
    cases placed
    exact less.trans (related_at all here there bn rfl)
  · intro dirty
    obtain ⟨bns, whole, counts⟩ := kept.whole dirty
    refine ⟨bns.set j ⟨rows, bn.stat64Delta + delta⟩, ?_, ?_⟩
    · rw [List.map_set, ← whole]
    · intro own
      refine Eq.trans ?_ (counts own)
      rw [← sum_bpLess, ← sum_bpLess, List.map_set, ← whole]
      exact same
  · rw [settled, settled]
    cases own : leaf.reshaped with
    | true => exact same
    | false => rfl

/-- A clean leaf that matches its image at all places but one, and there too, is kept. -/
theorem StatLeaf.Kept.placed (kept : leaf.Kept sizes)
    (clean : leaf.dirty = false) {bps : List (Option (StatBn Key))}
    (all : List.Forall₂ (MatchesImage sizes) bps leaf.lastImage) :
    ({ leaf with bps } : StatLeaf Key).Kept sizes ∧
      ({ leaf with bps } : StatLeaf Key).settled sizes = leaf.settled sizes := by
  have own := (kept.imaged clean).1
  refine ⟨⟨fun _ => ⟨own, all⟩, ?_⟩, ?_⟩
  · intro dirty
    rw [clean] at dirty
    cases dirty
  · rw [settled, settled, own]
    rfl

/-- A leaf that has just been written, or cloned, contributes the image. -/
theorem kept_fresh (sizes : KeySizes Key) (leaf : StatLeaf Key) (clean : leaf.dirty = false)
    (own : leaf.reshaped = false) (whole : leaf.bps = bns.map some)
    (image : leaf.lastImage = bns.map StatBn.rows) (fresh : ∀ bn ∈ bns, bn.stat64Delta = 0) :
    leaf.Kept sizes ∧ leaf.settled sizes = rowsStats sizes (bnsRows bns) := by
  refine ⟨⟨fun _ => ⟨own, ?_⟩, ?_⟩, ?_⟩
  · rw [whole, image]
    exact matches_fresh fresh
  · intro dirty
    rw [clean] at dirty
    cases dirty
  · rw [StatLeaf.settled, own, image]
    exact sum_rowsStats bns

/-- A clone whose garbage collection changes no count is as good as the image that it becomes. -/
theorem StatLeaf.Kept.cloneWritten (kept : leaf.Kept sizes) (waiting : leaf.clone = some bns)
    (same : List.Forall₂ (fun bn after => rowsStats sizes after.rows = rowsStats sizes bn.rows)
      bns collected) :
    ({ leaf with onDisk := collected.map StatBn.rows, clone := none } : StatLeaf Key).Kept sizes ∧
      ({ leaf with onDisk := collected.map StatBn.rows, clone := none } :
        StatLeaf Key).settled sizes = leaf.settled sizes := by
  have image : leaf.lastImage = bns.map StatBn.rows := by rw [lastImage, waiting]; rfl
  have sums : ((collected.map StatBn.rows).map (rowsStats sizes)).sum =
      (leaf.lastImage.map (rowsStats sizes)).sum := by
    rw [image]
    clear image waiting kept
    induction same with
    | nil => rfl
    | cons here behind ih => simp only [List.map_cons, List.sum_cons, here, ih]
  refine ⟨⟨?_, ?_⟩, ?_⟩
  · intro clean
    obtain ⟨own, all⟩ := kept.imaged clean
    refine ⟨own, ?_⟩
    rw [image, List.forall₂_map_right_iff] at all
    show List.Forall₂ (MatchesImage sizes) leaf.bps (collected.map StatBn.rows)
    rw [List.forall₂_map_right_iff]
    -- Every basement node matches what is written as it matched what was cloned.
    refine forall₂_comp all same ?_
    intro bp cloned written matched counts bn here
    rw [counts]
    exact matched bn here
  · intro dirty
    obtain ⟨others, whole, counts⟩ := kept.whole dirty
    exact ⟨others, whole, fun own => (counts own).trans sums.symm⟩
  · rw [settled, settled]
    cases own : leaf.reshaped with
    | true => rfl
    | false => exact sums

/-- Garbage collection that changes no count of a basement node, for all of a clone. -/
theorem counts_collected (each : List.Forall₂ (BnCollected sizes gcInfo) bns collected)
    (counted : ∀ bn ∈ bns, ∀ after, BnCollected sizes gcInfo bn after →
      rowsStats sizes after.rows = rowsStats sizes bn.rows) :
    List.Forall₂ (fun bn after => rowsStats sizes after.rows = rowsStats sizes bn.rows)
      bns collected := by
  induction each with
  | nil => exact .nil
  | cons here behind ih =>
    refine .cons (counted _ List.mem_cons_self _ here) (ih ?_)
    exact fun bn member => counted bn (List.mem_cons_of_mem _ member)

/-- Splitting divides what basement nodes count without their changes. -/
theorem bnsLess_split {numLeftBns numLeftLes : Nat} {left right : List (StatBn Key)}
    (taken : statLeafSplit bns numLeftBns numLeftLes = some (left, right)) :
    bnsLess sizes left + bnsLess sizes right = bnsLess sizes bns := by
  obtain ⟨deltas, rows⟩ := statLeafSplit_spec taken
  rw [bnsLess, bnsLess, bnsLess, ← deltas, ← rows, rowsStats_append]
  abel

/-- Merging adds it up, unless a change is destroyed. -/
theorem bnsLess_merge {a b : List (StatBn Key)} (merged : statMergeLeafNodes a b = some bns)
    (keeps : MergeKeeps a) : bnsLess sizes bns = bnsLess sizes a + bnsLess sizes b := by
  obtain ⟨rows, deltas⟩ := statMergeLeafNodes_spec merged
  rw [bnsLess, bnsLess, bnsLess, rows, deltas keeps, rowsStats_append]
  abel

/-- Every change of leaves keeps them, and their contributions gain what the header gains. -/
theorem LeafChange.settled (change : LeafChange sizes event i old new inMemory onDisk)
    (stretch : (ft.leaves.drop i).take old.length = old) (counts : ft.WritesCounted sizes event)
    (kept : ∀ leaf ∈ old, leaf.Kept sizes) :
    (∀ leaf ∈ new, leaf.Kept sizes) ∧ (new.map (StatLeaf.settled sizes)).sum =
      (old.map (StatLeaf.settled sizes)).sum + onDisk := by
  -- For one leaf in the place of another one, both are said of these two.
  have single {leaf other : StatLeaf Key} {gain : Stat64Info}
      (both : other.Kept sizes ∧ other.settled sizes = leaf.settled sizes + gain) :
      (∀ leaf ∈ [other], leaf.Kept sizes) ∧ ([other].map (StatLeaf.settled sizes)).sum =
        ([leaf].map (StatLeaf.settled sizes)).sum + gain := by
    simpa using both
  cases change with
  | @applyMsg i j msg gcInfo leaf bn rows delta here told =>
    have both := (kept leaf List.mem_cons_self).applied here told
    refine single ⟨both.1, ?_⟩
    rw [both.2, add_zero]
  | @setDirty i leaf bns whole =>
    have same := (kept leaf List.mem_cons_self).settled_of_whole whole
    refine single ⟨⟨by simp, fun _ => ⟨bns, whole, fun own => ?_⟩⟩, (add_zero _).symm⟩
    rw [← same, StatLeaf.settled, show leaf.reshaped = false from own]
    rfl
  | @split i numLeftBns numLeftLes leaf bns left right whole taken =>
    have same := (kept leaf List.mem_cons_self).settled_of_whole whole
    refine ⟨?_, ?_⟩
    · intro other member
      rcases List.mem_cons.mp member with rfl | member
      · exact kept_of_reshaped leaf left
      · rw [List.mem_singleton.mp member]
        exact kept_of_reshaped ⟨[], true, [], none, true⟩ right
    · simp only [List.map_cons, List.map_nil, List.sum_cons, List.sum_nil, add_zero]
      rw [same, ← bnsLess_split taken, settled_of_reshaped leaf left]
      exact congrArg _ (settled_of_reshaped ⟨[], true, [], none, true⟩ right)
  | @merge i a b bnsA bnsB bns wholeA wholeB merged =>
    have sameA := (kept a List.mem_cons_self).settled_of_whole wholeA
    have sameB := (kept b (List.mem_cons_of_mem _ List.mem_cons_self)).settled_of_whole wholeB
    have all : bnsLess sizes bns = bnsLess sizes bnsA + bnsLess sizes bnsB :=
      bnsLess_merge merged (mergeKeeps_of counts (head_of_stretch stretch) wholeA)
    refine ⟨?_, ?_⟩
    · intro other member
      rw [List.mem_singleton.mp member]
      exact kept_of_reshaped a bns
    · simp only [List.map_cons, List.map_nil, List.sum_cons, List.sum_nil, add_zero]
      rw [sameA, sameB, ← all, settled_of_reshaped a bns]
  | @balance i numLeftBns numLeftLes a b bnsA bnsB bns left right wholeA wholeB merged taken =>
    have sameA := (kept a List.mem_cons_self).settled_of_whole wholeA
    have sameB := (kept b (List.mem_cons_of_mem _ List.mem_cons_self)).settled_of_whole wholeB
    have all : bnsLess sizes bns = bnsLess sizes bnsA + bnsLess sizes bnsB :=
      bnsLess_merge merged (mergeKeeps_of counts (head_of_stretch stretch) wholeA)
    refine ⟨?_, ?_⟩
    · intro other member
      rcases List.mem_cons.mp member with rfl | member
      · exact kept_of_reshaped a left
      · rw [List.mem_singleton.mp member]
        exact kept_of_reshaped b right
    · simp only [List.map_cons, List.map_nil, List.sum_cons, List.sum_nil, add_zero]
      rw [sameA, sameB, ← all, ← bnsLess_split taken, settled_of_reshaped a left,
        settled_of_reshaped b right]
  | @write i forCheckpoint gcInfo lengths leaf bns collected bnsAfter delta noClone whole each
      deltas divided =>
    have same := (kept leaf List.mem_cons_self).settled_of_whole whole
    obtain ⟨rows, -, fresh⟩ := leafRegroup_spec divided
    have both := kept_fresh sizes { leaf with
      bps := bnsAfter.map some, dirty := false, onDisk := bnsAfter.map StatBn.rows,
      reshaped := false } rfl rfl rfl (by rw [StatLeaf.lastImage, noClone]; rfl) fresh
    -- The image has what the rows counted without their changes, and the changes.
    refine single ⟨both.1, ?_⟩
    rw [both.2, same, rows, ← bnsLess_collected each, bnsLess]
    abel
  | @cloneLeaf i forCheckpoint lengths leaf bns bnsAfter whole divided =>
    have same := (kept leaf List.mem_cons_self).settled_of_whole whole
    obtain ⟨rows, -, fresh⟩ := leafRegroup_spec divided
    have both := kept_fresh sizes { leaf with
      bps := bnsAfter.map some, dirty := false, clone := some bnsAfter, reshaped := false }
      rfl rfl rfl rfl fresh
    refine single ⟨both.1, ?_⟩
    rw [both.2, same, rows, bnsLess]
    abel
  | @writeClone i gcInfo leaf bns collected waiting each =>
    have same := counts_collected each (counts leaf (head_of_stretch stretch) bns waiting)
    have both := (kept leaf List.mem_cons_self).cloneWritten waiting same
    refine single ⟨both.1, ?_⟩
    rw [both.2, add_zero]
  | @evictBn i j leaf bn clean here =>
    have before := kept leaf List.mem_cons_self
    -- What is on disk only matches every image.
    have all : List.Forall₂ (MatchesImage sizes) (leaf.bps.set j none) leaf.lastImage :=
      forall₂_set (before.imaged clean).2 fun image there other absent => by cases absent
    have both := before.placed clean all
    refine single ⟨both.1, ?_⟩
    rw [both.2, add_zero]
  | @evict i leaf clean =>
    have before := kept leaf List.mem_cons_self
    have all : List.Forall₂ (MatchesImage sizes) (leaf.bps.map fun _ => none) leaf.lastImage := by
      rw [List.forall₂_map_left_iff]
      refine (before.imaged clean).2.imp ?_
      intro bp image matched other absent
      cases absent
    have both := before.placed clean all
    refine single ⟨both.1, ?_⟩
    rw [both.2, add_zero]
  | @fetch i j leaf rows noClone here image =>
    have before := kept leaf List.mem_cons_self
    -- A leaf that has changed has no basement node on disk only.
    have clean : leaf.dirty = false := by
      cases dirty : leaf.dirty with
      | false => rfl
      | true =>
        obtain ⟨bns, whole, -⟩ := before.whole dirty
        rw [whole, List.getElem?_map] at here
        cases found : bns[j]? <;> simp [found] at here
    have last : leaf.lastImage = leaf.onDisk := by rw [StatLeaf.lastImage, noClone]; rfl
    have all : List.Forall₂ (MatchesImage sizes) (leaf.bps.set j (some ⟨rows, 0⟩))
        leaf.lastImage := by
      refine forall₂_set (before.imaged clean).2 ?_
      intro found there bn fetched
      cases fetched
      rw [last, image] at there
      cases there
      exact (congrArg _ neg_zero).trans (add_zero _)
    have both := before.placed clean all
    refine single ⟨both.1, ?_⟩
    rw [both.2, add_zero]

/-- The header counts what the leaves contribute, and the leaves are kept. -/
structure StatFt.Settled (sizes : KeySizes Key) (ft : StatFt Key) : Prop where
  counted : ft.onDiskStats = (ft.leaves.map (StatLeaf.settled sizes)).sum
  kept : ∀ leaf ∈ ft.leaves, leaf.Kept sizes

/-- A step that counts what it writes keeps the header right. -/
theorem StatFt.Settled.step [LinearOrder Key] {updateFun : UpdateFunc Key}
    (settled : ft.Settled sizes) (counts : ft.WritesCounted sizes event)
    (taken : ft.next sizes updateFun event = some after) : after.Settled sizes := by
  rcases StatFt.next_cases taken with ⟨stats, rfl⟩ | changes
  · exact ⟨settled.counted, settled.kept⟩
  · obtain ⟨i, old, new, inMemory, onDisk, change, stretch, -, header, placed⟩ := changes
    have kept : ∀ leaf ∈ old, leaf.Kept sizes :=
      fun leaf member => settled.kept leaf (mem_of_stretch stretch member)
    obtain ⟨keptNew, told⟩ := change.settled stretch counts kept
    refine ⟨?_, ?_⟩
    · have sums := sum_splice (StatLeaf.settled sizes) stretch new
      rw [← placed] at sums
      -- What the header gains is what the new leaves contribute more than the old ones.
      have gained := eq_sub_of_add_eq' told.symm
      have remaining := eq_sub_of_add_eq sums
      rw [header, settled.counted, gained, remaining]
      abel
    · intro leaf member
      rw [placed] at member
      rcases mem_splice member with new | there
      · exact keptNew leaf new
      · exact settled.kept leaf there

end Disk

section Runs

variable [LinearOrder Key] (sizes : KeySizes Key) (updateFun : UpdateFunc Key)

/-- A step of the tree that meets a condition. -/
def StatFt.StepWith (condition : StatFt Key → StatEvent Key → Prop) (before : StatFt Key)
    (event : StatEvent Key) (after : StatFt Key) : Prop :=
  condition before event ∧ before.next sizes updateFun event = some after

/--
The counts of rows and bytes stay reconcilable.

In every run that drops no change with a clean leaf or by a merge, the count in memory is that of
the header with the changes in memory.
In every run that drops none by a merge, and counts what it writes of clones, the count of the
header is what the last images have, where a leaf that exchanged rows with another one since it was
written has what it holds in memory without its changes.
-/
theorem stats_reconcile :
    (∀ events (ft : StatFt Key),
      Runs (StatFt.StepWith sizes updateFun StatFt.DropsNoDelta) .create events ft →
        ft.inMemoryStats = ft.onDiskStats + ft.deltas) ∧
    (∀ events (ft : StatFt Key),
      Runs (StatFt.StepWith sizes updateFun (StatFt.WritesCounted sizes)) .create events ft →
        ft.onDiskStats = (ft.leaves.map (StatLeaf.settled sizes)).sum) := by
  constructor
  · intro events ft run
    have initial : (StatFt.create : StatFt Key).Balanced := ⟨rfl, by simp [StatFt.create]⟩
    have balanced : ft.Balanced := run.invariant initial fun held taken =>
      held.step taken.1 taken.2
    exact balanced.counted
  · intro events ft run
    -- A new leaf has no rows in memory, and no image.
    have kept : ∀ leaf ∈ (StatFt.create : StatFt Key).leaves, leaf.Kept sizes := by
      intro leaf member
      rw [List.mem_singleton.mp member]
      exact ⟨by simp, fun _ => ⟨[.createEmpty], rfl, fun _ => rfl⟩⟩
    have initial : (StatFt.create : StatFt Key).Settled sizes := ⟨rfl, kept⟩
    have settled : ft.Settled sizes := run.invariant initial fun held taken =>
      held.step taken.1 taken.2
    exact settled.counted

/-- An event that drops no change and writes no clone, whatever the tree is like. -/
def StatEvent.plain : StatEvent Key → Bool
  | .evict _ | .merge _ | .balance _ _ _ | .writeClone _ _ => false
  | _ => true

/-- One step that is only taken for a plain event. -/
def StatFt.plainNext (ft : StatFt Key) (event : StatEvent Key) : Option (StatFt Key) := do
  invariant (event.plain = true)
  ft.next sizes updateFun event

variable {sizes updateFun}

/-- A step for a plain event meets both conditions. -/
theorem StatFt.plainNext_conditions {ft after : StatFt Key} {event : StatEvent Key}
    (taken : ft.plainNext sizes updateFun event = some after) :
    ft.DropsNoDelta event ∧ ft.WritesCounted sizes event ∧
      ft.next sizes updateFun event = some after := by
  obtain ⟨plain, taken⟩ := of_invariant taken
  refine ⟨?_, ?_, taken⟩
  · cases event <;> trivial
  · cases event <;> trivial

end Runs

section Examples

/-- Eight bytes fit the length of a key. -/
theorem eightByteKeys_fit (_ : Nat) : 8 < 2 ^ 32 := by decide

/-- Keys that take eight bytes each. -/
def eightByteKeys : KeySizes Nat := ⟨fun _ => 8, eightByteKeys_fit⟩

/-- An insert of a row by the transaction that is always committed. -/
def insertRow (key : Nat) : FtMsg Nat :=
  { key, val := [7], type := .insert, msn := key, xids := [] }

/-- Nothing is known that would let garbage be collected. -/
def keepAllRows : TxnGcInfo := ⟨none, 0, 0, false⟩

/-- Two rows are written in one leaf, which is split then. -/
def splitRows : List (StatEvent Nat) :=
  [.applyMsg 0 0 (insertRow 1) keepAllRows, .applyMsg 0 0 (insertRow 2) keepAllRows,
    .write 0 false none [2], .split 0 1 1]

/-- Both leaves are written, and one leaves memory after a query has added a row to it, and is read
again. -/
def readAgain : List (StatEvent Nat) :=
  splitRows ++ [.write 1 false none [1], .write 0 false none [1],
    .applyMsg 1 0 (insertRow 3) keepAllRows, .evictBn 1 0, .fetch 1 0]

/-- Both leaves are written, and one leaves memory whole after a query has added a row to it. -/
def evictAdded : List (StatEvent Nat) :=
  splitRows ++ [.write 1 false none [1], .write 0 false none [1],
    .applyMsg 1 0 (insertRow 3) keepAllRows, .evict 1]

/-- Only one of the two leaves is written. -/
def writeHalf : List (StatEvent Nat) := splitRows ++ [.write 1 false none [1]]

/-- The counts are right when the leaves of a split are written and one is read again. -/
theorem stats_reconcile_readAgain : ∃ ft : StatFt Nat,
    readAgain.foldlM (StatFt.plainNext eightByteKeys fun _ _ _ => none) .create = some ft ∧
      ft.inMemoryStats = ft.onDiskStats + ft.deltas ∧
      ft.onDiskStats = (ft.leaves.map (StatLeaf.settled eightByteKeys)).sum := by
  have some_ : (readAgain.foldlM (StatFt.plainNext eightByteKeys fun _ _ _ => none)
      .create).isSome := by decide +kernel
  obtain ⟨ft, reached⟩ := Option.isSome_iff_exists.mp some_
  have run := Runs.of_foldlM reached
  obtain ⟨memory, disk⟩ := stats_reconcile eightByteKeys fun _ _ _ => none
  refine ⟨ft, reached, memory readAgain ft ?_, disk readAgain ft ?_⟩
  · exact run.mono fun taken => ⟨(StatFt.plainNext_conditions taken).1,
      (StatFt.plainNext_conditions taken).2.2⟩
  · exact run.mono fun taken => (StatFt.plainNext_conditions taken).2

/-- The only row of a leaf is deleted and its garbage collected, and the leaf is merged. -/
def mergeEmptied : List (StatEvent Nat) :=
  splitRows ++ [.write 1 false none [1], .write 0 false none [1], .setDirty 0,
    .applyMsg 0 0 { insertRow 1 with type := .deleteAny } keepAllRows, .merge 0]

/-- A row is committed and deleted, and only garbage collection of the clone drops it. -/
def collectClone : List (StatEvent Nat) :=
  let gcInfo : TxnGcInfo := ⟨none, 0, 0, true⟩
  [.applyMsg 0 0 { insertRow 1 with xids := [5] } gcInfo,
    .applyMsg 0 0 { insertRow 1 with xids := [5], type := .commitAny } gcInfo,
    .applyMsg 0 0 { insertRow 1 with xids := [6], type := .deleteAny } gcInfo,
    .applyMsg 0 0 { insertRow 1 with xids := [6], type := .commitAny } gcInfo,
    .cloneLeaf 0 false [1], .writeClone 0 (some ⟨some (true, ⟨[], [], []⟩), 10, 10, true⟩)]

/-- A run leads to a tree whose count in memory is not that of the header with the changes. -/
def MemoryDrifts (events : List (StatEvent Nat)) : Prop :=
  ∃ ft : StatFt Nat, Runs (fun before event after =>
      before.next eightByteKeys (fun _ _ _ => none) event = some after) .create events ft ∧
    ft.inMemoryStats ≠ ft.onDiskStats + ft.deltas

/-- A run leads to a tree whose header counts other rows or bytes than the last images have. -/
def HeaderDrifts (events : List (StatEvent Nat)) : Prop :=
  ∃ ft : StatFt Nat, Runs (fun before event after =>
      before.next eightByteKeys (fun _ _ _ => none) event = some after) .create events ft ∧
    ft.onDiskStats ≠
      (ft.leaves.map fun leaf => (leaf.onDisk.map (rowsStats eightByteKeys)).sum).sum

/-- The counts drift when a clean leaf with a change leaves memory whole, and when a merge destroys
an empty basement node with a change; the header counts other rows than the images have between the
writes of two leaves that a split has made, and when garbage collection drops rows of a clone. -/
theorem stats_drift : MemoryDrifts evictAdded ∧ MemoryDrifts mergeEmptied ∧
    HeaderDrifts writeHalf ∧ HeaderDrifts collectClone := by
  -- Each run is evaluated, and the tree that it leads to is compared with what the images have.
  have memory (events : List (StatEvent Nat))
      (drifts : (events.foldlM (StatFt.next eightByteKeys fun _ _ _ => none) .create).any
        (fun ft => decide (ft.inMemoryStats ≠ ft.onDiskStats + ft.deltas)) = true) :
      MemoryDrifts events := by
    obtain ⟨ft, reached, apart⟩ := (Option.any_eq_true _ _).mp drifts
    exact ⟨ft, Runs.of_foldlM reached, of_decide_eq_true apart⟩
  have header (events : List (StatEvent Nat))
      (drifts : (events.foldlM (StatFt.next eightByteKeys fun _ _ _ => none) .create).any
        (fun ft => decide (ft.onDiskStats ≠ (ft.leaves.map fun leaf =>
          (leaf.onDisk.map (rowsStats eightByteKeys)).sum).sum)) = true) :
      HeaderDrifts events := by
    obtain ⟨ft, reached, apart⟩ := (Option.any_eq_true _ _).mp drifts
    exact ⟨ft, Runs.of_foldlM reached, of_decide_eq_true apart⟩
  refine ⟨memory _ ?_, memory _ ?_, header _ ?_, header _ ?_⟩
  · decide +kernel
  · decide +kernel
  · decide +kernel
  · decide +kernel

end Examples

end Tokuft
