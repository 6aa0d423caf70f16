import Tokuft.Tree.UpgradeMsn

/-! The numbers that an upgrade gives to messages fall from the root to the leaves. -/

namespace Tokuft

/-- The numbers of one buffer are those above what is unused afterwards, one after another. -/
theorem takeMsns_eq : ∀ (n highest : Nat), highest + n < 2 ^ 64 →
    takeMsns n highest = ((List.range' (highest + 1) n), highest + n) := by
  -- The induction goes along the messages.
  intro n
  induction n with
  | zero => exact fun _ _ => rfl
  | succ n ih =>
    intro highest small
    have next : (highest + 1) % 2 ^ 64 = highest + 1 := Nat.mod_eq_of_lt (by omega)
    simp only [takeMsns, next, ih (highest + 1) (by omega), List.range'_succ, Prod.mk.injEq,
      true_and]
    omega

/-- Reading a buffer takes as many numbers as it has messages from the top of the unused ones. -/
theorem deserializeFromRbufV13_eq {highestUnused n : Nat} (enough : n ≤ highestUnused)
    (small : highestUnused < 2 ^ 64) :
    deserializeFromRbufV13 highestUnused n =
      (highestUnused - n, List.range' (highestUnused - n + 1) n, highestUnused) := by
  have fall : (highestUnused + 2 ^ 64 - n) % 2 ^ 64 = highestUnused - n := by omega
  simp only [deserializeFromRbufV13, fall, takeMsns_eq n (highestUnused - n) (by omega)]
  congr 2
  omega

/-- Reading the buffers of a node takes a number for every message. The highest number is the one
that was unused before, where a node has a child. -/
theorem deserializeBuffers_eq : ∀ (partitions : List V13Partition) (highestUnused : Nat)
    (buffers : List (List Nat)) (highestMsn : Nat), countMessages partitions ≤ highestUnused →
    highestUnused < 2 ^ 64 → 0 < highestUnused ∨ highestMsn ≠ 0 →
    ∃ read, deserializeBuffers partitions highestUnused buffers highestMsn =
      (highestUnused - countMessages partitions, read,
        if partitions = [] ∨ highestMsn ≠ 0 then highestMsn else highestUnused) := by
  intro partitions
  induction partitions with
  | nil => exact fun _ buffers _ _ _ _ => ⟨buffers, by simp [deserializeBuffers, countMessages]⟩
  | cons partition partitions ih =>
    intro highestUnused buffers highestMsn enough small positive
    simp only [countMessages, List.map_cons, List.sum_cons] at enough
    simp only [deserializeBuffers, deserializeChildBufferV13,
      deserializeFromRbufV13_eq (show partition.messages ≤ highestUnused by omega) small]
    -- The first buffer settles the highest number, so that the others leave it.
    have settled : (if highestMsn = 0 then highestUnused else highestMsn) ≠ 0 := by
      split <;> omega
    obtain ⟨read, rest⟩ := ih (highestUnused - partition.messages) (buffers ++ [_]) _
      (by unfold countMessages; omega) (by omega) (.inr settled)
    refine ⟨read, rest.trans ?_⟩
    rw [if_pos (.inr settled)]
    simp only [countMessages, List.map_cons, List.sum_cons, Nat.sub_sub, reduceCtorEq, false_or]
    by_cases first : highestMsn = 0 <;> simp [first]

/-- Reading a node by itself takes a number for every message, and the highest number applied to it
is the one that was unused before. -/
theorem deserializeNode_eq {node : V13Node} (highestUnused : Nat)
    (enough : countMessages node.partitions ≤ highestUnused) (small : highestUnused < 2 ^ 64)
    (positive : 0 < highestUnused) (occupied : node ≠ .internal []) :
    deserializeNode node highestUnused =
      (highestUnused - countMessages node.partitions, highestUnused) := by
  cases node with
  | leaf => rfl
  | internal partitions =>
    obtain ⟨read, rest⟩ := deserializeBuffers_eq partitions highestUnused [] 0 enough small
      (.inl positive)
    have filled : ¬ (partitions = [] ∨ (0 : Nat) ≠ 0) := by
      rintro (none | same)
      · exact occupied (by rw [none])
      · exact same rfl
    simp only [deserializeNode, rest, if_neg filled, V13Node.partitions]

/-- How many messages of a node are still to be read. -/
def unreadMessages (partitions : List V13Partition) : UpgradeState → Nat
  | .unread => countMessages partitions
  | .reading buffers _ => countMessages (partitions.drop buffers.length)
  | .internal _ _ | .leaf _ => 0

/-- How many messages of a tree are still to be read. -/
def V13Tree.remaining (tree : V13Tree) (node : Nat → UpgradeState) : Nat :=
  ∑ blocknum ∈ Finset.range tree.nodes.length,
    unreadMessages (partitionsAt tree.nodes blocknum) (node blocknum)

variable {blocknum : Nat}

/-- A node that changes its state changes what is to be read of it alone. -/
theorem V13Tree.remaining_update (tree : V13Tree) (node : Nat → UpgradeState)
    (inside : blocknum < tree.nodes.length) (state : UpgradeState) :
    tree.remaining (Function.update node blocknum state) +
        unreadMessages (partitionsAt tree.nodes blocknum) (node blocknum) =
      tree.remaining node + unreadMessages (partitionsAt tree.nodes blocknum) state := by
  -- The sum over the other nodes stays.
  have member : blocknum ∈ Finset.range tree.nodes.length := Finset.mem_range.mpr inside
  unfold V13Tree.remaining
  rw [← Finset.add_sum_erase _ _ member, ← Finset.add_sum_erase _ _ member,
    Function.update_self]
  have others : ∀ other ∈ (Finset.range tree.nodes.length).erase blocknum,
      unreadMessages (partitionsAt tree.nodes other) (Function.update node blocknum state other) =
        unreadMessages (partitionsAt tree.nodes other) (node other) := by
    intro other among
    rw [Function.update_of_ne (Finset.ne_of_mem_erase among)]
  rw [Finset.sum_congr rfl others]
  omega

/-- What is known of the numbers of a tree while its nodes are read. -/
structure MsnsInv (tree : V13Tree) (opened : Nat) (world : UpgradeWorld) : Prop where
  /-- There is a number for every message that is to be read. -/
  enough : tree.remaining world.node ≤ world.highestUnusedMsnForUpgrade
  fallen : world.highestUnusedMsnForUpgrade ≤ opened
  raised : opened ≤ world.maxMsnInFt
  injected : ∀ msn ∈ world.injected, opened < msn
  /-- The numbers that are given are no longer unused. -/
  given : ∀ blocknum, ∀ msn ∈ (world.node blocknum).msns,
    world.highestUnusedMsnForUpgrade < msn ∧ msn ≤ opened
  buffers : ∀ blocknum, ∀ buffer ∈ (world.node blocknum).buffers, buffer.Pairwise (· < ·)
  blocks : ∀ blocknum, (world.node blocknum).buffers.Pairwise
    fun earlier later => ∀ msn ∈ earlier, ∀ other ∈ later, other < msn
  apart : ∀ {blocknum other}, blocknum ≠ other →
    ∀ msn ∈ (world.node blocknum).msns, msn ∉ (world.node other).msns
  inside : ∀ blocknum, world.node blocknum ≠ .unread → blocknum < tree.nodes.length
  /-- A node is only read below nodes that are read. -/
  above : ∀ {ancestor blocknum}, tree.Ancestor ancestor blocknum →
    world.node blocknum ≠ .unread → (world.node ancestor).isInternal = true
  ancestors : ∀ {ancestor blocknum}, tree.Ancestor ancestor blocknum →
    ∀ msn ∈ (world.node ancestor).msns, (∀ other ∈ (world.node blocknum).msns, other < msn) ∧
      ∀ applied, world.node blocknum = .leaf applied → applied < msn

/-- What a node may become: its buffers rise and fall as they should, its new numbers were unused,
and it lies between nodes that are read and nodes that are not. -/
structure Upgrades (tree : V13Tree) (world : UpgradeWorld) (blocknum : Nat) (state : UpgradeState)
    (highestUnused : Nat) : Prop where
  inside : blocknum < tree.nodes.length
  rest : unreadMessages (partitionsAt tree.nodes blocknum) state +
      world.highestUnusedMsnForUpgrade ≤
    unreadMessages (partitionsAt tree.nodes blocknum) (world.node blocknum) + highestUnused
  fall : highestUnused ≤ world.highestUnusedMsnForUpgrade
  fresh : ∀ msn ∈ state.msns, msn ∈ (world.node blocknum).msns ∨
    (highestUnused < msn ∧ msn ≤ world.highestUnusedMsnForUpgrade)
  buffers : ∀ buffer ∈ state.buffers, buffer.Pairwise (· < ·)
  blocks : state.buffers.Pairwise fun earlier later => ∀ msn ∈ earlier, ∀ other ∈ later, other < msn
  above : ∀ ancestor, tree.Ancestor ancestor blocknum →
    ancestor ≠ blocknum ∧ (world.node ancestor).isInternal = true
  below : ∀ descendant, tree.Ancestor blocknum descendant → world.node descendant = .unread
  leaf : ∀ applied, state = .leaf applied → applied ≤ highestUnused

variable {tree : V13Tree} {opened : Nat} {world : UpgradeWorld}

/-- A node that becomes what it may keeps what is known of the numbers. -/
theorem MsnsInv.upgrades {after : UpgradeWorld} (inv : MsnsInv tree opened world) (blocknum : Nat)
    {state : UpgradeState}
    (next : Upgrades tree world blocknum state after.highestUnusedMsnForUpgrade)
    (changed : after.node = Function.update world.node blocknum state)
    (kept : after.maxMsnInFt = world.maxMsnInFt) (quiet : after.injected = world.injected) :
    MsnsInv tree opened after := by
  have self : after.node blocknum = state := by rw [changed, Function.update_self]
  have others {other : Nat} (different : other ≠ blocknum) :
      after.node other = world.node other := by rw [changed, Function.update_of_ne different]
  have fall := next.fall
  have fallen := inv.fallen
  -- A number of the node that is not one it had is no number of any node.
  have unused {msn other : Nat} (member : msn ∈ (world.node other).msns) :
      ¬ (after.highestUnusedMsnForUpgrade < msn ∧
        msn ≤ world.highestUnusedMsnForUpgrade) := by
    have given := (inv.given other msn member).1
    omega
  refine ⟨?_, fall.trans fallen, kept ▸ inv.raised, quiet ▸ inv.injected, ?_, ?_, ?_, ?_,
    ?_, ?_, ?_⟩
  · have sum := tree.remaining_update world.node next.inside state
    have rest := next.rest
    have enough := inv.enough
    rw [changed]
    omega
  · intro other msn member
    by_cases same : other = blocknum
    · subst same
      rw [self] at member
      rcases next.fresh msn member with old | ⟨low, high⟩
      · have given := inv.given other msn old
        omega
      · omega
    · rw [others same] at member
      have given := inv.given other msn member
      omega
  · intro other
    by_cases same : other = blocknum
    · subst same
      rw [self]
      exact next.buffers
    · rw [others same]
      exact inv.buffers other
  · intro other
    by_cases same : other = blocknum
    · subst same
      rw [self]
      exact next.blocks
    · rw [others same]
      exact inv.blocks other
  · intro one other different msn member
    by_cases same : one = blocknum
    · subst same
      rw [self] at member
      rw [others different.symm]
      rcases next.fresh msn member with old | new
      · exact inv.apart different msn old
      · exact fun among => unused among new
    · rw [others same] at member
      by_cases same' : other = blocknum
      · subst same'
        rw [self]
        intro among
        rcases next.fresh msn among with old | new
        · exact inv.apart different msn member old
        · exact unused member new
      · rw [others same']
        exact inv.apart different msn member
  · intro other started
    by_cases same : other = blocknum
    · exact same ▸ next.inside
    · rw [others same] at started
      exact inv.inside other started
  · intro ancestor other lies started
    by_cases same : other = blocknum
    · subst same
      obtain ⟨different, read⟩ := next.above ancestor lies
      rw [others different]
      exact read
    · rw [others same] at started
      by_cases same' : ancestor = blocknum
      · subst same'
        exact absurd (next.below other lies) started
      · rw [others same']
        exact inv.above lies started
  · intro ancestor other lies msn member
    by_cases same : ancestor = blocknum
    · -- Nothing is read below the node.
      subst same
      have different : other ≠ ancestor := by
        intro equal
        subst equal
        exact (next.above other lies).1 rfl
      rw [others different, next.below other lies]
      exact ⟨fun number among => by simp [UpgradeState.msns, UpgradeState.buffers] at among, nofun⟩
    · rw [others same] at member
      by_cases same' : other = blocknum
      · -- What the node gets was unused, and its ancestors have theirs.
        subst same'
        rw [self]
        have given := (inv.given ancestor msn member).1
        refine ⟨fun number among => ?_, fun applied leaf => ?_⟩
        · rcases next.fresh number among with old | ⟨-, high⟩
          · exact (inv.ancestors lies msn member).1 number old
          · omega
        · have low := next.leaf applied leaf
          omega
      · rw [others same']
        exact inv.ancestors lies msn member

/-- A leaf lies above no node. -/
theorem V13Tree.ancestor_leaf (leaf : tree.nodes[blocknum]? = some .leaf) (descendant : Nat) :
    ¬ tree.Ancestor blocknum descendant := by
  intro lies
  obtain ⟨_, ⟨_, member, -⟩, -⟩ := Relation.TransGen.head'_iff.mp lies
  simp [partitionsAt, leaf, V13Node.partitions] at member

/-- All ancestors of a node that can be found are read, and it is none of them. -/
theorem MsnsInv.canFind (inv : MsnsInv tree opened world) (found : world.canFind tree blocknum)
    (unfinished : (world.node blocknum).isInternal = false ∨
      ∀ descendant, ¬ tree.Ancestor blocknum descendant) :
    ∀ ancestor, tree.Ancestor ancestor blocknum →
      ancestor ≠ blocknum ∧ (world.node ancestor).isInternal = true := by
  intro ancestor lies
  have read : (world.node ancestor).isInternal = true := by
    rcases found with root | ⟨parent, -, read, isParent⟩
    · -- Nothing lies above the root.
      subst root
      cases lies with
      | single last => exact absurd last (tree.rootFree _)
      | tail _ last => exact absurd last (tree.rootFree _)
    · cases lies with
      | single last => exact tree.oneParent isParent last ▸ read
      | tail earlier last =>
        cases tree.oneParent isParent last
        refine inv.above earlier ?_
        intro unread
        rw [unread] at read
        cases read
  refine ⟨?_, read⟩
  intro same
  subst same
  rcases unfinished with unfinished | leaf
  · rw [read] at unfinished
    cases unfinished
  · exact leaf _ lies

/-- Nothing is read below a node that is not read itself. -/
theorem MsnsInv.unread_below (inv : MsnsInv tree opened world)
    (unfinished : (world.node blocknum).isInternal = false) :
    ∀ descendant, tree.Ancestor blocknum descendant → world.node descendant = .unread := by
  intro descendant lies
  by_contra started
  rw [inv.above lies started] at unfinished
  cases unfinished

/-- The ancestors of a node that is being read are read, and it is none of them. -/
theorem MsnsInv.started (inv : MsnsInv tree opened world) (started : world.node blocknum ≠ .unread)
    (unfinished : (world.node blocknum).isInternal = false) :
    ∀ ancestor, tree.Ancestor ancestor blocknum →
      ancestor ≠ blocknum ∧ (world.node ancestor).isInternal = true := by
  intro ancestor lies
  have read := inv.above lies started
  refine ⟨?_, read⟩
  intro same
  subst same
  rw [read] at unfinished
  cases unfinished

/-- What is to be read of one node is a part of what is to be read. -/
theorem V13Tree.unread_le_remaining (tree : V13Tree) (node : Nat → UpgradeState)
    (inside : blocknum < tree.nodes.length) :
    unreadMessages (partitionsAt tree.nodes blocknum) (node blocknum) ≤ tree.remaining node := by
  unfold V13Tree.remaining
  exact Finset.single_le_sum (f := fun other =>
    unreadMessages (partitionsAt tree.nodes other) (node other)) (fun _ _ => Nat.zero_le _)
    (Finset.mem_range.mpr inside)

/-- Numbers one after another rise, and lie between the ends. -/
theorem range'_rises (start n : Nat) : (List.range' start n).Pairwise (· < ·) := by
  rw [List.pairwise_iff_getElem]
  intro i j hi hj before
  simp
  omega

/-- Beginning a node, reading one more of its buffers or finishing it keeps what is known of the
numbers, and so does injecting a message. -/
theorem MsnsInv.step {before after : UpgradeWorld} {event : UpgradeEvent} (small : opened < 2 ^ 64)
    (inv : MsnsInv tree opened before) (taken : before.step tree event = some after) :
    MsnsInv tree opened after := by
  cases event with
  | read blocknum =>
    simp only [UpgradeWorld.step] at taken
    split at taken
    case isFalse => cases taken
    case isTrue found =>
      split at taken
      case h_1 leaf =>
        -- A leaf takes what is unused, which is less than all numbers above it.
        cases taken
        have childless := V13Tree.ancestor_leaf leaf
        have inside := (List.getElem?_eq_some_iff.mp leaf).1
        refine inv.upgrades blocknum ⟨inside, ?_, ?_, ?_, ?_, ?_, ?_, ?_, ?_⟩ rfl rfl rfl
        · simp [unreadMessages, UpgradeWorld.setNode]
        · exact Nat.le_refl _
        · simp [UpgradeState.msns, UpgradeState.buffers]
        · simp [UpgradeState.buffers]
        · exact List.Pairwise.nil
        · exact inv.canFind found (.inr childless)
        · exact fun descendant lies => absurd lies (childless descendant)
        · intro applied same
          cases same
          exact Nat.le_refl _
      case h_2 partitions internal =>
        split at taken
        case isFalse => cases taken
        case isTrue unread =>
          cases taken
          have unfinished : (before.node blocknum).isInternal = false := by rw [unread]; rfl
          have inside := (List.getElem?_eq_some_iff.mp internal).1
          refine inv.upgrades blocknum ⟨inside, ?_, ?_, ?_, ?_, ?_, ?_, ?_, ?_⟩
            rfl rfl rfl
          · simp [unreadMessages, UpgradeWorld.setNode, unread]
          · exact Nat.le_refl _
          · simp [UpgradeState.msns, UpgradeState.buffers]
          · simp [UpgradeState.buffers]
          · exact List.Pairwise.nil
          · exact inv.canFind found (.inl unfinished)
          · exact inv.unread_below unfinished
          · nofun
      case h_3 => cases taken
  | readBuffer blocknum =>
    simp only [UpgradeWorld.step] at taken
    split at taken
    case h_2 => cases taken
    case h_1 buffers highestMsn reading =>
      split at taken
      case h_2 => cases taken
      case h_1 partition here =>
        cases taken
        have started : before.node blocknum ≠ .unread := by rw [reading]; nofun
        have unfinished : (before.node blocknum).isInternal = false := by rw [reading]; rfl
        have inside := inv.inside blocknum started
        -- The messages of the buffer are among those that are to be read.
        obtain ⟨within, last⟩ := List.getElem?_eq_some_iff.mp here
        have more : countMessages ((partitionsAt tree.nodes blocknum).drop buffers.length) =
            partition.messages +
              countMessages ((partitionsAt tree.nodes blocknum).drop (buffers.length + 1)) := by
          rw [List.drop_eq_getElem_cons within, last]
          simp [countMessages]
        have part := tree.unread_le_remaining before.node inside
        rw [reading] at part
        simp only [unreadMessages, more] at part
        have enough := inv.enough
        have fallen := inv.fallen
        have numbers := deserializeFromRbufV13_eq
          (show partition.messages ≤ before.highestUnusedMsnForUpgrade by omega) (by omega)
        refine inv.upgrades blocknum ⟨inside, ?_, ?_, ?_, ?_, ?_, ?_, ?_, ?_⟩
          rfl rfl rfl
        all_goals try simp only [deserializeChildBufferV13, numbers]
        · simp only [reading, unreadMessages, more, List.length_append, List.length_singleton]
          omega
        · omega
        · intro msn member
          simp only [UpgradeState.msns, UpgradeState.buffers, List.flatten_append, List.mem_append,
            List.flatten_singleton, List.mem_range'_1, reading] at member ⊢
          refine member.imp id fun among => ?_
          omega
        · intro buffer member
          rcases List.mem_append.mp member with old | new
          · exact inv.buffers blocknum buffer (by rw [reading]; exact old)
          · rw [List.mem_singleton.mp new]
            exact range'_rises _ _
        · have blocks := inv.blocks blocknum
          rw [reading] at blocks
          refine List.pairwise_append.mpr ⟨blocks, List.pairwise_singleton _ _, ?_⟩
          intro earlier member later last msn among other within
          -- What is given now was unused when the earlier buffers were read.
          have given := (inv.given blocknum msn (by
            rw [reading]
            exact List.mem_flatten.mpr ⟨earlier, member, among⟩)).1
          rw [List.mem_singleton.mp last, List.mem_range'_1] at within
          omega
        · exact inv.started started unfinished
        · exact inv.unread_below unfinished
        · nofun
  | finish blocknum =>
    simp only [UpgradeWorld.step] at taken
    split at taken
    case h_2 => cases taken
    case h_1 buffers highestMsn reading =>
      split at taken
      case isFalse => cases taken
      case isTrue all =>
        cases taken
        have started : before.node blocknum ≠ .unread := by rw [reading]; nofun
        have unfinished : (before.node blocknum).isInternal = false := by rw [reading]; rfl
        refine inv.upgrades blocknum
          ⟨inv.inside blocknum started, ?_, ?_, ?_, ?_, ?_, ?_, ?_, ?_⟩ rfl rfl rfl
        · simp [unreadMessages, UpgradeWorld.setNode]
        · exact Nat.le_refl _
        · intro msn member
          rw [reading]
          exact .inl member
        · intro buffer member
          exact inv.buffers blocknum buffer (by rw [reading]; exact member)
        · have blocks := inv.blocks blocknum
          rw [reading] at blocks
          exact blocks
        · exact inv.started started unfinished
        · exact inv.unread_below unfinished
        · nofun
  | inject =>
    cases taken
    have raised := inv.raised
    refine { inv with raised := ?_, injected := ?_ }
    · simp only
      omega
    · intro msn member
      rcases List.mem_cons.mp member with same | old
      · omega
      · exact inv.injected msn old

/-- Opening a dictionary takes numbers for the messages of its root twice. -/
theorem openFt_inv (tree : V13Tree) :
    (openFt tree).maxMsnInFt < minMsn ∧ MsnsInv tree (openFt tree).maxMsnInFt (openFt tree) := by
  have few := tree.few
  have limit : minMsn < 2 ^ 64 := by decide
  have positive : 1 < minMsn := by decide
  have partitions : ((tree.nodes[tree.root]?).getD .leaf).partitions =
      partitionsAt tree.nodes tree.root := by
    unfold partitionsAt
    cases tree.nodes[tree.root]? <;> rfl
  have occupied : (tree.nodes[tree.root]?).getD .leaf ≠ .internal [] := by
    cases found : tree.nodes[tree.root]? with
    | none => nofun
    | some node =>
      rintro same
      cases same
      exact tree.occupied (List.mem_of_getElem? found)
  -- The messages of the root are also among those of the tree.
  have part : countMessages (partitionsAt tree.nodes tree.root) ≤
      ∑ blocknum ∈ Finset.range tree.nodes.length,
        countMessages (partitionsAt tree.nodes blocknum) := by
    by_cases inside : tree.root < tree.nodes.length
    · exact tree.unread_le_remaining (fun _ => .unread) inside
    · simp [partitionsAt, List.getElem?_eq_none (Nat.le_of_not_lt inside), countMessages]
  have first := deserializeNode_eq (minMsn - 1)
    (by rw [partitions]; omega) (by omega) (by omega) occupied
  have second := deserializeNode_eq
    (minMsn - 1 - countMessages (partitionsAt tree.nodes tree.root))
    (by rw [partitions]; omega) (by omega) (by omega) occupied
  rw [partitions] at first second
  have opened : openFt tree = {
      highestUnusedMsnForUpgrade := minMsn - 1 -
        countMessages (partitionsAt tree.nodes tree.root) -
        countMessages (partitionsAt tree.nodes tree.root)
      maxMsnInFt := minMsn - 1 - countMessages (partitionsAt tree.nodes tree.root)
      node := fun _ => .unread
      injected := [] } := by
    simp only [openFt, first, second]
  rw [opened]
  refine ⟨by simp only; omega, ?_, ?_, Nat.le_refl _, nofun, ?_, ?_, ?_, ?_, ?_, ?_, ?_⟩
  · change ∑ blocknum ∈ Finset.range tree.nodes.length,
      countMessages (partitionsAt tree.nodes blocknum) ≤ _
    simp only
    omega
  · simp only
    omega
  · simp [UpgradeState.msns, UpgradeState.buffers]
  · simp [UpgradeState.buffers]
  · exact fun _ => List.Pairwise.nil
  · simp [UpgradeState.msns, UpgradeState.buffers]
  · exact fun _ started => absurd rfl started
  · exact fun _ started => absurd rfl started
  · simp [UpgradeState.msns, UpgradeState.buffers]

/-- What an upgrade promises of the numbers of messages. -/
structure MsnsOk (tree : V13Tree) (world : UpgradeWorld) : Prop where
  /-- They rise along every buffer of a node. -/
  buffers : ∀ blocknum, ∀ buffer ∈ (world.node blocknum).buffers, buffer.Pairwise (· < ·)
  /-- Those of an earlier buffer are the higher ones. -/
  blocks : ∀ blocknum, (world.node blocknum).buffers.Pairwise
    fun earlier later => ∀ msn ∈ earlier, ∀ other ∈ later, other < msn
  /-- No other node uses them. -/
  apart : ∀ {blocknum other}, blocknum ≠ other →
    ∀ msn ∈ (world.node blocknum).msns, msn ∉ (world.node other).msns
  /-- Those of a node are above those of the nodes below it, and above what is applied to a leaf. -/
  ancestors : ∀ {ancestor blocknum}, tree.Ancestor ancestor blocknum →
    ∀ msn ∈ (world.node ancestor).msns, (∀ other ∈ (world.node blocknum).msns, other < msn) ∧
      ∀ applied, world.node blocknum = .leaf applied → applied < msn
  /-- They are below those of later versions and below those of injected messages. -/
  below : ∀ blocknum, ∀ msn ∈ (world.node blocknum).msns,
    msn < minMsn ∧ ∀ injected ∈ world.injected, msn < injected

/-- However the nodes of a dictionary of version 13 are read and upgraded, parents before their
children and with messages injected meanwhile, the numbers of their messages are as promised. -/
theorem upgrade_msns (tree : V13Tree) {events : List UpgradeEvent} {world : UpgradeWorld}
    (run : UpgradeRun tree events world) : MsnsOk tree world := by
  obtain ⟨limit, initial⟩ := openFt_inv tree
  have small : minMsn < 2 ^ 64 := by decide
  have inv : MsnsInv tree (openFt tree).maxMsnInFt world :=
    run.invariant initial fun inv taken => inv.step (by omega) taken
  refine ⟨inv.buffers, inv.blocks, inv.apart, inv.ancestors, fun blocknum msn member => ?_⟩
  have given := (inv.given blocknum msn member).2
  refine ⟨by omega, fun injected among => ?_⟩
  have above := inv.injected injected among
  omega

/-- Only the root of a fork has children. -/
theorem forked_root {partitions : List V13Partition} {parent child : Nat}
    (isParent : IsParent [.internal partitions, .leaf, .leaf] parent child) :
    parent = 0 ∧ ∃ partition ∈ partitions, partition.blocknum = child := by
  obtain ⟨partition, member, same⟩ := isParent
  match parent, member with
  | 0, member => exact ⟨rfl, partition, member, same⟩
  | 1, member => cases member
  | 2, member => cases member
  | parent + 3, member => cases member

/-- A root with one message for each of two leaves. -/
def forkedTree : V13Tree where
  nodes := [.internal [⟨1, 1⟩, ⟨2, 1⟩], .leaf, .leaf]
  root := 0
  oneParent first second := (forked_root first).1.trans (forked_root second).1.symm
  rootFree parent isParent := by
    obtain ⟨-, partition, member, same⟩ := forked_root isParent
    simp only [List.mem_cons, List.not_mem_nil, or_false] at member
    rcases member with rfl | rfl <;> cases same
  occupied := by simp
  few := by decide

/-- The root is read and upgraded, then a leaf, and a message is injected. -/
def forkedEvents : List UpgradeEvent :=
  [.read 0, .readBuffer 0, .readBuffer 0, .finish 0, .read 1, .inject]

/-- What the reading of the fork leads to. -/
def forkedWorld : UpgradeWorld :=
  (forkedEvents.foldlM (UpgradeWorld.step forkedTree) (openFt forkedTree)).getD (openFt forkedTree)

/-- The reading of the fork is a run. -/
theorem forked_run : UpgradeRun forkedTree forkedEvents forkedWorld := Runs.of_foldlM rfl

/-- The numbers of the fork are as promised. -/
theorem upgrade_msns_forked :
    (forkedWorld.node 0).buffers = [[2 ^ 62 - 5], [2 ^ 62 - 6]] ∧
      forkedWorld.node 1 = .leaf (2 ^ 62 - 7) ∧ forkedWorld.injected = [2 ^ 62 - 2] ∧
      MsnsOk forkedTree forkedWorld :=
  ⟨by decide, by decide, by decide, upgrade_msns forkedTree forked_run⟩

/-- The numbers of the messages of a node do not rise from the buffer of one child to that of the
next. -/
theorem upgrade_msns_fall : ∃ (tree : V13Tree) (events : List UpgradeEvent) (world : UpgradeWorld),
    UpgradeRun tree events world ∧ ¬ (world.node tree.root).msns.Pairwise (· < ·) :=
  ⟨forkedTree, forkedEvents, forkedWorld, forked_run, by decide⟩

end Tokuft
