import Tokuft.Txn.WorldLaws

/-! The lists of live roots as objects in memory, which transactions point to and may share. -/

namespace Tokuft

/-- An allocated list of live roots, and how often it has been destroyed. -/
structure LiveRootTxnList where
  xids : List Nat
  destroyed : Nat
  deriving DecidableEq, Repr

/-- Every list that was ever allocated, each at its address. -/
abbrev LiveLists := List LiveRootTxnList

namespace LiveLists

/-- Allocate a list, with nothing in it yet. -/
def allocate (lists : LiveLists) : LiveLists × Nat :=
  (lists ++ [{ xids := [], destroyed := 0 }], lists.length)

/-- Overwrite a list with a copy of the roots that are live now. -/
def setupLiveRootTxnList (lists : LiveLists) (address : Nat) (liveRootIds : List Nat) : LiveLists :=
  lists.modify address fun list => { list with xids := liveRootIds }

/-- Destroy a list, also if that has happened before. -/
def destroy (lists : LiveLists) (address : Nat) : LiveLists :=
  lists.modify address fun list => { list with destroyed := list.destroyed + 1 }

/-- What can be read where a transaction points to. -/
def read (lists : LiveLists) (address : Option Nat) : Option (List Nat) :=
  address.bind fun address => lists[address]?.map LiveRootTxnList.xids

/-- Starting a root transaction gives it a list when it copies a snapshot. -/
def startTxn (lists : LiveLists) (snapshotType : TxnSnapshotType) (liveRootIds : List Nat) :
    LiveLists × Option Nat :=
  if txnCopiesSnapshot snapshotType false then
    let (lists, address) := lists.allocate
    (lists.setupLiveRootTxnList address liveRootIds, some address)
  else (lists, none)

/-- A child that records a snapshot gets a list, and every other one the pointer of its parent. -/
def handleSnapshotCreateForChildTxn (lists : LiveLists) (snapshotType : TxnSnapshotType)
    (parentList : Option Nat) (liveRootIds : List Nat) : Option (LiveLists × Option Nat) :=
  let (lists, txnList) :=
    if txnRecordsSnapshot snapshotType true then
      let (lists, address) := lists.allocate
      (lists, some address)
    else (lists, parentList)
  if txnCopiesSnapshot snapshotType true then do
    -- Nothing asks here whether the list is the child's own.
    let address ← txnList
    return (lists.setupLiveRootTxnList address liveRootIds, some address)
  else some (lists, txnList)

/-- A child that copies a snapshot destroys the list that it points to. -/
def handleSnapshotDestroyForChildTxn (lists : LiveLists) (snapshotType : TxnSnapshotType)
    (txnList : Option Nat) : Option LiveLists :=
  if txnCopiesSnapshot snapshotType true then do
    let address ← txnList
    return lists.destroy address
  else some lists

/-- A root transaction destroys the list that it points to, if there is one. -/
def finishTxn (lists : LiveLists) (txnList : Option Nat) : LiveLists :=
  txnList.elim lists lists.destroy

end LiveLists

/-- Transactions and the lists in memory that they point to. -/
structure LiveListWorld where
  world : TxnWorld
  lists : LiveLists
  /-- Where a root's open transactions point to, the innermost child first and the root last. -/
  addresses : Nat → List (Option Nat)

namespace LiveListWorld

/-- Before anything happens. -/
def init : LiveListWorld where
  world := .init
  lists := []
  addresses := fun _ => []

/-- One step, absent when the event cannot happen. -/
def next (state : LiveListWorld) : TxnEvent → Option LiveListWorld
  | .beginRoot snapshotType readOnly =>
    let root := state.world.mgr.lastXid + 1
    let world := state.world.beginRoot snapshotType readOnly
    let (lists, txnList) := state.lists.startTxn snapshotType world.mgr.liveRootIds
    some { world, lists, addresses := Function.update state.addresses root [txnList] }
  | .beginChild root =>
    match state.world.txns root, state.addresses root with
    | parent :: _, parentList :: outer => do
      let world ← state.world.beginChild root
      let (lists, txnList) ← state.lists.handleSnapshotCreateForChildTxn parent.snapshotType
        parentList world.mgr.liveRootIds
      return { world, lists,
               addresses := Function.update state.addresses root (txnList :: parentList :: outer) }
    | _, _ => none
  | .completeChild root =>
    match state.world.txns root, state.addresses root with
    | child :: _, txnList :: outer => do
      let world ← state.world.completeChild root
      let lists ← state.lists.handleSnapshotDestroyForChildTxn child.snapshotType txnList
      return { world, lists, addresses := Function.update state.addresses root outer }
    | _, _ => none
  | .completeRoot root =>
    match state.addresses root with
    | [txnList] => do
      let world ← state.world.completeRoot root
      return { world, lists := state.lists.finishTxn txnList,
               addresses := Function.update state.addresses root [] }
    | _ => none
  | event => do
    let world ← state.world.next event
    return { state with world }

/-- No child is begun by a transaction that copies the list of live roots without recording it. -/
def NoCopyingChild (state : LiveListWorld) : TxnEvent → Prop
  | .beginChild root =>
    ∀ parent ∈ (state.world.txns root).head?, parent.snapshotType ≠ .copies
  | _ => True

/-- A step that begins no such child. -/
def Step (state : LiveListWorld) (event : TxnEvent) (after : LiveListWorld) : Prop :=
  state.NoCopyingChild event ∧ state.next event = some after

end LiveListWorld

/-- What has been allocated and filled is a list at the next address. -/
theorem LiveLists.setup_allocate (lists : LiveLists) (liveRootIds : List Nat) :
    lists.allocate.1.setupLiveRootTxnList lists.length liveRootIds =
      lists ++ [{ xids := liveRootIds, destroyed := 0 }] := by
  rw [LiveLists.allocate, LiveLists.setupLiveRootTxnList, List.modify_eq_take_drop,
    List.take_left, List.drop_left]
  rfl

/-- The lists that open transactions point to are the ones that have not been destroyed, and the
transactions of different roots point to different ones. -/
structure LiveLists.Owned (lists : LiveLists) (addresses : Nat → List (Option Nat)) : Prop where
  alive : ∀ root address, some address ∈ addresses root →
    ∃ list, lists[address]? = some list ∧ list.destroyed = 0
  destroyed : ∀ address list, lists[address]? = some list →
    (∀ root, some address ∉ addresses root) → list.destroyed = 1
  apart : ∀ root other address, some address ∈ addresses root → some address ∈ addresses other →
    root = other

namespace LiveLists.Owned

variable {lists : LiveLists} {addresses : Nat → List (Option Nat)} {root : Nat}

section

variable (owned : lists.Owned addresses)
include owned

/-- It only matters which lists the transactions of a root point to. -/
theorem congr {others : Nat → List (Option Nat)}
    (same : ∀ root address, some address ∈ others root ↔ some address ∈ addresses root) :
    lists.Owned others where
  alive := fun root address member => owned.alive root address ((same root address).mp member)
  destroyed := fun address list there nobody => owned.destroyed address list there
    fun root member => nobody root ((same root address).mpr member)
  apart := fun root other address one two => owned.apart root other address
    ((same root address).mp one) ((same other address).mp two)

/-- Nobody points to what is not allocated. -/
theorem fresh (root : Nat) :
    some lists.length ∉ addresses root := by
  intro member
  obtain ⟨list, there, -⟩ := owned.alive root lists.length member
  exact Nat.lt_irrefl _ (List.getElem?_eq_some_iff.mp there).1

/-- A new list belongs to the one that allocated it. -/
theorem allocate (root : Nat) (xids : List Nat) :
    LiveLists.Owned (lists ++ [{ xids, destroyed := 0 }])
      (Function.update addresses root (some lists.length :: addresses root)) := by
  -- No one points to the address yet, and now only one transaction does.
  have pointed (other address : Nat) :
      some address ∈ Function.update addresses root (some lists.length :: addresses root) other ↔
        (other = root ∧ address = lists.length) ∨ some address ∈ addresses other := by
    by_cases here : other = root
    · subst here
      simp
    · simp [here]
  constructor
  · intro other address member
    rcases (pointed other address).mp member with ⟨-, rfl⟩ | old
    · exact ⟨_, List.getElem?_concat_length, rfl⟩
    · obtain ⟨list, there, alive⟩ := owned.alive other address old
      exact ⟨list, List.getElem?_append_left (List.getElem?_eq_some_iff.mp there).1 ▸ there, alive⟩
  · intro address list there nobody
    have notNew : address ≠ lists.length := fun new =>
      nobody root ((pointed root address).mpr (.inl ⟨rfl, new⟩))
    have old : address < lists.length := by
      have inRange := (List.getElem?_eq_some_iff.mp there).1
      rw [List.length_append, List.length_singleton] at inRange
      omega
    rw [List.getElem?_append_left old] at there
    exact owned.destroyed address list there fun other member =>
      nobody other ((pointed other address).mpr (.inr member))
  · intro one two address first second
    rcases (pointed one address).mp first with ⟨rfl, rfl⟩ | inOne <;>
      rcases (pointed two _).mp second with ⟨rfl, new⟩ | inTwo
    · rfl
    · exact absurd inTwo (owned.fresh two)
    · exact absurd (new ▸ inOne) (owned.fresh one)
    · exact owned.apart one two address inOne inTwo

/-- The last transaction that points to a list destroys it. -/
theorem destroy {address : Nat} {outer : List (Option Nat)}
    (found : addresses root = some address :: outer) (own : some address ∉ outer) :
    (lists.destroy address).Owned (Function.update addresses root outer) := by
  -- Every other address keeps those who point to it.
  have pointed (other otherAddress : Nat) :
      some otherAddress ∈ Function.update addresses root outer other ↔
        some otherAddress ∈ addresses other ∧ otherAddress ≠ address := by
    by_cases here : other = root
    · subst here
      rw [Function.update_self, found, List.mem_cons, Option.some.injEq]
      constructor
      · exact fun member => ⟨.inr member, fun same => own (same ▸ member)⟩
      · rintro ⟨same | member, different⟩
        · exact absurd same different
        · exact member
    · rw [Function.update_of_ne here]
      refine (and_iff_left_of_imp ?_).symm
      rintro member rfl
      have inRoot : some otherAddress ∈ addresses root := found ▸ List.mem_cons_self
      exact here (owned.apart other root otherAddress member inRoot)
  have others {otherAddress : Nat} (different : otherAddress ≠ address) :
      (lists.destroy address)[otherAddress]? = lists[otherAddress]? :=
    List.getElem?_modify_ne _ lists different.symm
  constructor
  · intro other otherAddress member
    obtain ⟨old, different⟩ := (pointed other otherAddress).mp member
    rw [others different]
    exact owned.alive other otherAddress old
  · intro otherAddress list there nobody
    by_cases same : otherAddress = address
    · subst same
      obtain ⟨before, was, alive⟩ := owned.alive root otherAddress (found ▸ List.mem_cons_self)
      rw [LiveLists.destroy, List.getElem?_modify_eq, was] at there
      cases there
      exact congrArg (· + 1) alive
    · rw [others same] at there
      exact owned.destroyed otherAddress list there fun other member =>
        nobody other ((pointed other otherAddress).mpr ⟨member, same⟩)
  · intro one two otherAddress first second
    exact owned.apart one two otherAddress ((pointed one otherAddress).mp first).1
      ((pointed two otherAddress).mp second).1

/-- A new list changes nothing for those who point to others. -/
theorem read_allocate (list : LiveRootTxnList) {root : Nat} {txnList : Option Nat}
    (member : txnList ∈ addresses root) :
    LiveLists.read (lists ++ [list]) txnList = lists.read txnList := by
  cases txnList with
  | none => rfl
  | some address =>
    obtain ⟨_, there, -⟩ := owned.alive root address member
    have inRange := (List.getElem?_eq_some_iff.mp there).1
    simp only [LiveLists.read, Option.bind_some, List.getElem?_append_left inRange]

end

end LiveLists.Owned

/-- A destroyed list still reads as before. -/
theorem LiveLists.read_destroy (lists : LiveLists) (address : Nat) (txnList : Option Nat) :
    (lists.destroy address).read txnList = lists.read txnList := by
  cases txnList with
  | none => rfl
  | some other =>
    simp only [LiveLists.read, LiveLists.destroy, Option.bind_some, List.getElem?_modify]
    split
    · cases lists[other]? <;> rfl
    · cases lists[other]? <;> rfl

/-- The last list reads as it is. -/
theorem LiveLists.read_last (lists : LiveLists) (list : LiveRootTxnList) :
    LiveLists.read (lists ++ [list]) (some lists.length) = some list.xids := by
  rw [LiveLists.read, Option.bind_some, List.getElem?_concat_length, Option.map_some]

/-- Where the open transactions of a root point to, of which none copies its parent's list. -/
inductive ChainOwned : List TokuTxn → List (Option Nat) → Prop where
  | nil : ChainOwned [] []
  | root {txn : TokuTxn} {txnList : Option Nat}
      (copies : txnList.isSome = txnCopiesSnapshot txn.snapshotType false) :
      ChainOwned [txn] [txnList]
  | recorded {child parent : TokuTxn} {outer : List TokuTxn} {address : Nat}
      {rest : List (Option Nat)} (records : txnRecordsSnapshot child.snapshotType true = true)
      (own : some address ∉ rest) (earlier : ChainOwned (parent :: outer) rest) :
      ChainOwned (child :: parent :: outer) (some address :: rest)
  | shared {child parent : TokuTxn} {outer : List TokuTxn} {parentList : Option Nat}
      {rest : List (Option Nat)} (copiesNothing : txnCopiesSnapshot child.snapshotType true = false)
      (earlier : ChainOwned (parent :: outer) (parentList :: rest)) :
      ChainOwned (child :: parent :: outer) (parentList :: parentList :: rest)

variable {world after : TxnWorld} {root : Nat}

section

variable {chain : List TokuTxn} {pointers : List (Option Nat)} (chained : ChainOwned chain pointers)
include chained

/-- Only the kinds of the transactions matter. -/
theorem ChainOwned.map (change : TokuTxn → TokuTxn)
    (sameKind : ∀ txn, (change txn).snapshotType = txn.snapshotType) :
    ChainOwned (chain.map change) pointers := by
  induction chained with
  | nil => exact .nil
  | root copies => exact .root (by rwa [sameKind])
  | recorded records own _ ih => exact .recorded (by rwa [sameKind]) own ih
  | shared copiesNothing _ ih => exact .shared (by rwa [sameKind]) ih

/-- Every transaction has a pointer. -/
theorem ChainOwned.length_eq : chain.length = pointers.length := by
  induction chained with
  | nil | root => rfl
  | recorded _ _ _ ih | shared _ _ ih => exact congrArg (· + 1) ih

end

/-- What begins a root transaction is its only open one. -/
theorem TxnWorld.beginRoot_txns (world : TxnWorld) (snapshotType : TxnSnapshotType)
    (readOnly : Bool) :
    ∃ txn, (world.beginRoot snapshotType readOnly).txns =
        Function.update world.txns (world.mgr.lastXid + 1) [txn] ∧
      txn.snapshotType = snapshotType ∧
      txn.liveRootTxnList = if txnCopiesSnapshot snapshotType false then
        some (world.beginRoot snapshotType readOnly).mgr.liveRootIds else none := by
  cases snapshotType <;> cases readOnly <;> exact ⟨_, rfl, rfl, rfl⟩

/-- A child joins the open transactions, and gets a list only when it records a snapshot. -/
theorem TxnWorld.beginChild_txns {parent : TokuTxn} {outer : List TokuTxn}
    (found : world.txns root = parent :: outer) (kind : parent.snapshotType ≠ .copies)
    (done : world.beginChild root = some after) :
    ∃ child, after.txns = Function.update world.txns root (child :: parent :: outer) ∧
      child.snapshotType = parent.snapshotType ∧
      child.liveRootTxnList = if txnRecordsSnapshot parent.snapshotType true then
        some after.mgr.liveRootIds else parent.liveRootTxnList := by
  -- The kind of the child is inherited, and only it decides about the list.
  simp only [TxnWorld.beginChild, found, bind_inv, Prod.exists] at done
  obtain ⟨-, -, -, -, mgr, chain, create, rfl⟩ := done
  have sameKind (childXid : Nat) : (parent.createChild childXid).snapshotType =
      parent.snapshotType := rfl
  rw [TxnManager.handleSnapshotCreateForChildTxn, sameKind, txnCopiesSnapshot] at create
  split at create
  · rename_i records
    simp only [Option.some.injEq, Prod.mk.injEq] at create
    obtain ⟨rfl, rfl⟩ := create
    exact ⟨_, rfl, rfl, (if_pos records).symm⟩
  · rename_i unrecorded
    rw [Bool.eq_false_iff.mpr unrecorded, Bool.or_false,
      if_neg (by simpa using kind), Option.some.injEq, Prod.mk.injEq] at create
    obtain ⟨rfl, rfl⟩ := create
    exact ⟨_, rfl, rfl, (if_neg unrecorded).symm⟩

/-- A child that completes leaves its ancestors as they are. -/
theorem TxnWorld.completeChild_txns {child : TokuTxn} {outer : List TokuTxn}
    (found : world.txns root = child :: outer) (kind : child.snapshotType ≠ .copies)
    (done : world.completeChild root = some after) :
    after.txns = Function.update world.txns root outer := by
  -- A child that does not copy leaves its parent with the list it had.
  cases outer with
  | nil => simp [TxnWorld.completeChild, found] at done
  | cons parent outer =>
    simp only [TxnWorld.completeChild, found, bind_inv, Prod.exists] at done
    obtain ⟨mgr, chain, destroy, rfl⟩ := done
    rw [TxnManager.handleSnapshotDestroyForChildTxn, txnCopiesSnapshot] at destroy
    split at destroy
    · simp only [bind_inv, Prod.mk.injEq] at destroy
      obtain ⟨-, -, -, rfl⟩ := destroy
      rfl
    · rename_i unrecorded
      rw [Bool.eq_false_iff.mpr unrecorded, Bool.or_false,
        if_neg (by simpa using kind), Option.some.injEq, Prod.mk.injEq] at destroy
      rw [destroy.2]

/-- A root that completes has had no other open transaction, and has none any more. -/
theorem TxnWorld.completeRoot_txns (done : world.completeRoot root = some after) :
    after.txns = Function.update world.txns root [] := by
  unfold TxnWorld.completeRoot at done
  split at done
  · simp only [bind_inv] at done
    obtain ⟨-, -, mgr, -, rfl⟩ := done
    rfl
  · cases done

/-- Logging a start and noting an end change neither kinds nor lists of transactions. -/
theorem TxnWorld.noted_txns {state : TokuTxnState}
    (done : world.logBegin root = some after ∨ world.note root state = some after) :
    ∃ change : TokuTxn → TokuTxn, (∀ txn, (change txn).snapshotType = txn.snapshotType ∧
        (change txn).liveRootTxnList = txn.liveRootTxnList) ∧
      after.txns = Function.update world.txns root ((world.txns root).map change) := by
  rcases done with done | done
  · obtain ⟨txn, outer, found, -, -, rfl⟩ := TxnWorld.logBegin_inv done
    exact ⟨fun txn => { txn with beginWasLogged := true }, fun _ => ⟨rfl, rfl⟩, by rw [found]⟩
  · obtain ⟨txn, found, -, rfl⟩ := TxnWorld.note_inv done
    exact ⟨fun txn => { txn with state }, fun _ => ⟨rfl, rfl⟩, by rw [found]; rfl⟩

namespace LiveListWorld

/-- What holds in every state that is reached without a child that copies. -/
structure Ok (state : LiveListWorld) : Prop where
  world : state.world.Ok
  chains : ∀ root, ChainOwned (state.world.txns root) (state.addresses root)
  owned : state.lists.Owned state.addresses
  /-- Where a transaction points to, it reads the list that it copied or inherited. -/
  read : ∀ root, (state.world.txns root).map TokuTxn.liveRootTxnList =
    (state.addresses root).map state.lists.read

/-- At first there are neither transactions nor lists. -/
theorem Ok.init : init.Ok where
  world := TxnWorld.Ok.init
  chains _ := .nil
  owned :=
    { alive := fun _ _ member => (List.not_mem_nil member).elim
      destroyed := fun _ _ there => nomatch there
      apart := fun _ _ _ member => (List.not_mem_nil member).elim }
  read _ := rfl

variable {state after : LiveListWorld}

section

variable (ok : state.Ok)
include ok

/-- A step on one root leaves where the others point to, and what they read there. -/
theorem Ok.update (worldOk : world.Ok) {lists : LiveLists} {chain : List TokuTxn}
    {pointers : List (Option Nat)} (txns : world.txns = Function.update state.world.txns root chain)
    (chained : ChainOwned chain pointers)
    (owned : lists.Owned (Function.update state.addresses root pointers))
    (own : chain.map TokuTxn.liveRootTxnList = pointers.map lists.read)
    (others : ∀ other, ∀ txnList ∈ state.addresses other,
      lists.read txnList = state.lists.read txnList) :
    Ok { world, lists, addresses := Function.update state.addresses root pointers } := by
  -- On the root itself the new lists count, and on others what they had.
  refine ⟨worldOk, fun other => ?_, owned, fun other => ?_⟩ <;>
    simp only [txns] <;> by_cases here : other = root
  · subst here
    rwa [Function.update_self, Function.update_self]
  · rw [Function.update_of_ne here, Function.update_of_ne here]
    exact ok.chains other
  · subst here
    rwa [Function.update_self, Function.update_self]
  · rw [Function.update_of_ne here, Function.update_of_ne here, ok.read other]
    exact List.map_congr_left fun txnList member => (others other txnList member).symm

/-- A new root has no open transactions yet. -/
theorem Ok.fresh : state.addresses (state.world.mgr.lastXid + 1) = [] := by
  have closed : state.world.txns (state.world.mgr.lastXid + 1) = [] := by
    by_contra some
    exact absurd (ok.world.rootBound _ some).2 (by omega)
  have chained := ok.chains (state.world.mgr.lastXid + 1)
  rw [closed] at chained
  exact List.eq_nil_of_length_eq_zero chained.length_eq.symm

/-- A root that is begun points to a list of its own when it copies a snapshot. -/
theorem Ok.beginRoot {snapshotType : TxnSnapshotType} {readOnly : Bool}
    (done : state.next (.beginRoot snapshotType readOnly) = some after) : after.Ok := by
  -- The id of the root is new, so that it has no open transactions.
  have fresh := ok.fresh
  obtain ⟨txn, txns, kind, copied⟩ := state.world.beginRoot_txns snapshotType readOnly
  have worldOk := ok.world.beginRoot snapshotType readOnly
  simp only [next, LiveLists.startTxn] at done
  split at copied
  · rename_i copies
    rw [if_pos copies] at done
    cases done
    have owned := ok.owned.allocate (state.world.mgr.lastXid + 1)
      (state.world.beginRoot snapshotType readOnly).mgr.liveRootIds
    rw [fresh] at owned
    rw [show state.lists.allocate.2 = state.lists.length from rfl, LiveLists.setup_allocate]
    refine ok.update worldOk txns (.root (by rw [kind, copies]; rfl)) owned ?_
      fun other txnList member => ok.owned.read_allocate _ member
    rw [List.map_singleton, List.map_singleton, LiveLists.read_last, copied]
  · rename_i copiesNothing
    rw [if_neg copiesNothing] at done
    cases done
    refine ok.update worldOk txns
      (.root (by rw [kind, Bool.eq_false_iff.mpr copiesNothing]; rfl)) ?_ ?_ fun _ _ _ => rfl
    · refine ok.owned.congr fun other address => ?_
      by_cases here : other = state.world.mgr.lastXid + 1
      · subst here
        simp [fresh]
      · rw [Function.update_of_ne here]
    · rw [List.map_singleton, List.map_singleton, copied]
      rfl

/-- A child points to a list of its own when it records a snapshot, and otherwise where its parent
does. -/
theorem Ok.beginChild (step : state.Step (.beginChild root) after) :
    after.Ok ∧
      (∃ txnList, after.addresses =
        Function.update state.addresses root (txnList :: state.addresses root)) ∧
      ∀ address < state.lists.length, after.lists[address]? = state.lists[address]? := by
  -- A child that copies is excluded, which would share the list that it destroys.
  obtain ⟨noCopies, done⟩ := step
  simp only [next] at done
  split at done
  case h_2 => cases done
  rename_i parent outer parentList rest found pointers
  simp only [bind_inv, Prod.exists] at done
  obtain ⟨world, began, lists, txnList, create, rfl⟩ := done
  have kind : parent.snapshotType ≠ .copies := noCopies parent (by rw [found]; rfl)
  obtain ⟨child, txns, sameKind, copied⟩ := TxnWorld.beginChild_txns found kind began
  have worldOk := ok.world.beginChild began
  have chained := ok.chains root
  have read := ok.read root
  rw [found, pointers] at chained read
  rw [LiveLists.handleSnapshotCreateForChildTxn, txnCopiesSnapshot] at create
  split at copied
  · rename_i records
    simp only [records, if_true, Bool.or_true, bind_runs, Option.some.injEq,
      Prod.mk.injEq] at create
    obtain ⟨rfl, rfl⟩ := create
    have owned := ok.owned.allocate root world.mgr.liveRootIds
    have fresh := ok.owned.fresh root
    rw [pointers] at owned fresh
    rw [show state.lists.allocate.2 = state.lists.length from rfl, LiveLists.setup_allocate]
    refine ⟨?_, ⟨_, by rw [pointers]⟩, fun address old => List.getElem?_append_left old⟩
    refine ok.update worldOk txns (.recorded (by rwa [sameKind]) fresh chained) owned ?_
      fun other txnList member => ok.owned.read_allocate _ member
    have sameRead : (parentList :: rest).map (LiveLists.read (state.lists ++
        [{ xids := world.mgr.liveRootIds, destroyed := 0 }])) =
          (parentList :: rest).map state.lists.read :=
      List.map_congr_left fun txnList member => ok.owned.read_allocate _ (pointers ▸ member)
    have last := state.lists.read_last { xids := world.mgr.liveRootIds, destroyed := 0 }
    exact congrArg₂ List.cons (copied.trans last.symm) (read.trans sameRead.symm)
  · rename_i unrecorded
    have notCopies : (parent.snapshotType == .copies) = false := by simpa using kind
    rw [Bool.eq_false_iff.mpr unrecorded, notCopies] at create
    cases create
    have copiesNothing : txnCopiesSnapshot child.snapshotType true = false := by
      rw [txnCopiesSnapshot, sameKind, Bool.eq_false_iff.mpr unrecorded, notCopies]
      rfl
    refine ⟨?_, ⟨_, by rw [pointers]⟩, fun _ _ => rfl⟩
    refine ok.update worldOk txns (.shared copiesNothing chained) ?_ ?_ fun _ _ _ => rfl
    · refine ok.owned.congr fun other address => ?_
      by_cases here : other = root
      · subst here
        simp [pointers]
      · rw [Function.update_of_ne here]
    · exact congrArg₂ List.cons (copied.trans (List.cons.inj read).1) read

/-- A child destroys its list only when it is its own. -/
theorem Ok.completeChild (done : state.next (.completeChild root) = some after) :
    after.Ok ∧ after.addresses = Function.update state.addresses root (state.addresses root).tail ∧
      ∀ address, some address ∈ (state.addresses root).tail →
        after.lists[address]? = state.lists[address]? := by
  -- The list of the child is its own exactly when the child recorded a snapshot.
  simp only [next] at done
  split at done
  case h_2 => cases done
  rename_i child outer txnList rest found pointers
  simp only [bind_inv] at done
  obtain ⟨world, completed, lists, destroyed, rfl⟩ := done
  have worldOk := ok.world.completeChild completed
  have chained := ok.chains root
  have read := ok.read root
  rw [found, pointers] at chained read
  rw [LiveLists.handleSnapshotDestroyForChildTxn] at destroyed
  rw [pointers, List.tail_cons]
  cases chained with
  | root copies => simp [TxnWorld.completeChild, found] at completed
  | @recorded _ parent outer address _ records own earlier =>
    have copies : txnCopiesSnapshot child.snapshotType true = true := by
      rw [txnCopiesSnapshot, records, Bool.or_true]
    have kind : child.snapshotType ≠ .copies := by
      intro kind
      rw [kind] at records
      cases records
    rw [if_pos copies] at destroyed
    cases destroyed
    refine ⟨?_, rfl, fun other member => ?_⟩
    · refine ok.update worldOk (TxnWorld.completeChild_txns found kind completed) earlier
        (ok.owned.destroy pointers own) ?_ fun _ _ _ => LiveLists.read_destroy _ _ _
      rw [List.map_congr_left fun txnList _ => LiveLists.read_destroy state.lists address txnList]
      exact (List.cons.inj read).2
    · refine List.getElem?_modify_ne _ state.lists ?_
      rintro rfl
      exact own member
  | @shared _ parent outer _ rest copiesNothing earlier =>
    have kind : child.snapshotType ≠ .copies := by
      intro kind
      rw [kind] at copiesNothing
      cases copiesNothing
    rw [copiesNothing] at destroyed
    cases destroyed
    refine ⟨?_, rfl, fun _ _ => rfl⟩
    refine ok.update worldOk (TxnWorld.completeChild_txns found kind completed) earlier ?_
      (List.cons.inj read).2 fun _ _ _ => rfl
    refine ok.owned.congr fun other address => ?_
    by_cases here : other = root
    · subst here
      simp [pointers]
    · rw [Function.update_of_ne here]

/-- A root destroys its list, if it has one, and it is its own. -/
theorem Ok.completeRoot (done : state.next (.completeRoot root) = some after) :
    after.Ok := by
  -- No transaction but the root itself is left in its chain.
  simp only [next] at done
  split at done
  case h_2 => cases done
  rename_i txnList pointers
  simp only [bind_inv] at done
  obtain ⟨world, completed, rfl⟩ := done
  have worldOk := ok.world.completeRoot completed
  have txns := TxnWorld.completeRoot_txns completed
  cases txnList with
  | none =>
    refine ok.update worldOk txns .nil ?_ rfl fun _ _ _ => rfl
    refine ok.owned.congr fun other address => ?_
    by_cases here : other = root
    · subst here
      simp [pointers]
    · rw [Function.update_of_ne here]
  | some address =>
    exact ok.update worldOk txns .nil (ok.owned.destroy pointers (List.not_mem_nil)) rfl
      fun _ _ _ => LiveLists.read_destroy _ _ _

/-- Logging a start and noting an end touch no list. -/
theorem Ok.noted (noted : TokuTxnState) (worldOk : world.Ok)
    (done : state.world.logBegin root = some world ∨ state.world.note root noted = some world) :
    Ok { state with world } := by
  -- The change is made to each open transaction of the root, and to no list.
  obtain ⟨change, same, txns⟩ := TxnWorld.noted_txns done
  have own : ((state.world.txns root).map change).map TokuTxn.liveRootTxnList =
      (state.addresses root).map state.lists.read := by
    rw [List.map_map, ← ok.read root]
    exact List.map_congr_left fun txn _ => (same txn).2
  have updated := ok.update worldOk txns ((ok.chains root).map change fun txn => (same txn).1)
    (by rw [Function.update_eq_self]; exact ok.owned) own fun _ _ _ => rfl
  rwa [Function.update_eq_self] at updated

end

/-- A step of the transactions alone. -/
theorem of_next_world {world : Option TxnWorld}
    (done : (do let world ← world; return { state with world }) = some after) :
    ∃ taken, world = some taken ∧ { state with world := taken } = after := by
  simpa only [bind_inv] using done

/-- Every step that begins no copying child keeps the lists in order. -/
theorem Ok.step (ok : state.Ok) {event : TxnEvent} (step : state.Step event after) : after.Ok := by
  -- One case for each event.
  cases event with
  | beginRoot snapshotType readOnly => exact ok.beginRoot step.2
  | beginChild root => exact (ok.beginChild step).1
  | completeChild root => exact (ok.completeChild step.2).1
  | completeRoot root => exact ok.completeRoot step.2
  | logBegin root =>
    obtain ⟨world, logged, rfl⟩ := of_next_world step.2
    exact ok.noted .live (ok.world.logBegin logged) (.inl logged)
  | noteCommit root =>
    obtain ⟨world, noted, rfl⟩ := of_next_world step.2
    exact ok.noted .committing (ok.world.note noted) (.inr noted)
  | noteAbort root =>
    obtain ⟨world, noted, rfl⟩ := of_next_world step.2
    exact ok.noted .aborting (ok.world.note noted) (.inr noted)

/-- Whatever transactions do their lists can follow. -/
theorem Ok.follows (ok : state.Ok) {event : TxnEvent} (noCopies : state.NoCopyingChild event)
    (taken : state.world.next event = some world) :
    ∃ after, state.next event = some after ∧ after.world = world := by
  -- The chain of pointers is as long as that of open transactions.
  have sameLength (root : Nat) := (ok.chains root).length_eq
  cases event with
  | beginRoot snapshotType readOnly =>
    cases taken
    exact ⟨_, rfl, rfl⟩
  | logBegin root | noteCommit root | noteAbort root =>
    simp only [TxnWorld.next] at taken
    simp [next, TxnWorld.next, taken]
  | completeRoot root =>
    obtain ⟨txn, single⟩ : ∃ txn, state.world.txns root = [txn] := by
      simp only [TxnWorld.next, TxnWorld.completeRoot] at taken
      split at taken
      · exact ⟨_, by assumption⟩
      · cases taken
    have length := sameLength root
    rw [single] at length
    obtain ⟨txnList, pointers⟩ := List.length_eq_one_iff.mp length.symm
    simp only [TxnWorld.next] at taken
    simp [next, pointers, taken]
  | beginChild root =>
    simp only [TxnWorld.next] at taken
    have chained := ok.chains root
    rcases found : state.world.txns root with - | ⟨parent, outer⟩
    · simp [TxnWorld.beginChild, found] at taken
    obtain ⟨txnList, rest, pointers⟩ : ∃ txnList rest, state.addresses root = txnList :: rest :=
      List.exists_cons_of_length_pos (by rw [← sameLength root, found]; exact Nat.succ_pos _)
    have kind : parent.snapshotType ≠ .copies := noCopies parent (by rw [found]; rfl)
    cases records : txnRecordsSnapshot parent.snapshotType true <;>
      simp [next, found, pointers, taken, LiveLists.handleSnapshotCreateForChildTxn,
        txnCopiesSnapshot, records, kind]
  | completeChild root =>
    simp only [TxnWorld.next] at taken
    have chained := ok.chains root
    rcases found : state.world.txns root with - | ⟨child, outer⟩
    · simp [TxnWorld.completeChild, found] at taken
    obtain ⟨txnList, rest, pointers⟩ : ∃ txnList rest, state.addresses root = txnList :: rest :=
      List.exists_cons_of_length_pos (by rw [← sameLength root, found]; exact Nat.succ_pos _)
    rw [found, pointers] at chained
    cases chained with
    | root copies => simp [TxnWorld.completeChild, found] at taken
    | recorded records own earlier =>
      simp [next, found, pointers, taken, LiveLists.handleSnapshotDestroyForChildTxn,
        txnCopiesSnapshot, records]
    | shared copiesNothing earlier =>
      simp [next, found, pointers, taken, LiveLists.handleSnapshotDestroyForChildTxn,
        copiesNothing]

end LiveListWorld

/--
Lists of live roots are well owned as long as no copying transaction begins a child.

A list is destroyed once nobody points to it, and never again.
Where an open transaction points to, it reads the list that its manager gave it.
The beginning and the end of a child leave the lists of its ancestors as they are.
-/
theorem liveLists_owned {events : List TxnEvent} {state : LiveListWorld}
    (run : Runs LiveListWorld.Step .init events state) :
    (∀ address list, state.lists[address]? = some list →
      (list.destroyed = 0 ∧ ∃ root, some address ∈ state.addresses root) ∨
        (list.destroyed = 1 ∧ ∀ root, some address ∉ state.addresses root)) ∧
    (∀ root address, some address ∈ state.addresses root →
      ∃ list, state.lists[address]? = some list ∧ list.destroyed = 0) ∧
    (∀ root, (state.world.txns root).map TokuTxn.liveRootTxnList =
      (state.addresses root).map state.lists.read) ∧
    (∀ event world, state.NoCopyingChild event → state.world.next event = some world →
      ∃ after, state.next event = some after ∧ after.world = world) ∧
    ∀ root after,
      (state.Step (.beginChild root) after →
        (∃ txnList, after.addresses =
          Function.update state.addresses root (txnList :: state.addresses root)) ∧
        ∀ address < state.lists.length, after.lists[address]? = state.lists[address]?) ∧
      (state.Step (.completeChild root) after →
        after.addresses = Function.update state.addresses root (state.addresses root).tail ∧
        ∀ address, some address ∈ (state.addresses root).tail →
          after.lists[address]? = state.lists[address]?) := by
  -- The lists are in order after every run, by induction over its steps.
  have ok : state.Ok := run.invariant LiveListWorld.Ok.init fun ok step => ok.step step
  refine ⟨fun address list there => ?_, ok.owned.alive, ok.read,
    fun event world noCopies taken => ok.follows noCopies taken, fun root after => ?_⟩
  · by_cases pointed : ∃ root, some address ∈ state.addresses root
    · obtain ⟨root, member⟩ := pointed
      obtain ⟨same, alsoThere, alive⟩ := ok.owned.alive root address member
      rw [there, Option.some.injEq] at alsoThere
      exact .inl ⟨alsoThere ▸ alive, root, member⟩
    · have nobody := not_exists.mp pointed
      exact .inr ⟨ok.owned.destroyed address list there nobody, nobody⟩
  · exact ⟨fun step => (ok.beginChild step).2, fun step => (ok.completeChild step.2).2⟩

instance (state : LiveListWorld) (event : TxnEvent) : Decidable (state.NoCopyingChild event) := by
  cases event <;> dsimp only [LiveListWorld.NoCopyingChild] <;> infer_instance

/-- Take a step that begins no copying child. -/
def LiveListWorld.nextAllowed (state : LiveListWorld) (event : TxnEvent) :
    Option LiveListWorld := do
  invariant (state.NoCopyingChild event)
  state.next event

/-- A root with children of its own snapshots, next to one that shares its list with its child. -/
def ownedEvents : List TxnEvent :=
  [.beginRoot .child false, .beginRoot .root false, .beginChild 1, .beginChild 3, .completeChild 1]

/-- There one list has been destroyed, and the other two are in use. -/
theorem liveLists_owned_nested :
    ∃ state, Runs LiveListWorld.Step .init ownedEvents state ∧
      state.lists.map LiveRootTxnList.destroyed = [0, 0, 1] ∧
      ∀ address list, state.lists[address]? = some list →
        (list.destroyed = 0 ∧ ∃ root, some address ∈ state.addresses root) ∨
          (list.destroyed = 1 ∧ ∀ root, some address ∉ state.addresses root) := by
  have served : (ownedEvents.foldlM LiveListWorld.nextAllowed .init).map
      (fun state => state.lists.map LiveRootTxnList.destroyed) = some [0, 0, 1] := by
    decide +kernel
  obtain ⟨state, folded, counts⟩ := Option.map_eq_some_iff.mp served
  have run : Runs LiveListWorld.Step .init ownedEvents state :=
    (Runs.of_foldlM folded).mono of_invariant
  exact ⟨state, run, counts, (liveLists_owned run).1⟩

/-- A child that copies overwrites the list of its parent and destroys it, and at last the parent
destroys it again. -/
theorem liveLists_destroyedTwice :
    ∃ state, Runs (fun before event after => LiveListWorld.next before event = some after)
        .init [.beginRoot .copies false, .beginChild 1, .completeChild 1, .noteCommit 1,
          .completeRoot 1] state ∧
      state.lists = [{ xids := [1], destroyed := 2 }] :=
  ⟨_, Runs.of_foldlM rfl, rfl⟩

end Tokuft
