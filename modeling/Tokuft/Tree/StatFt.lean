import Tokuft.Tree.Stat64

/-! The counts of rows and bytes of a tree and of its leaves, and what each step does to them. -/

namespace Tokuft

variable {Key : Type}

/-- A basement node in memory, with the change of its counts since it was last written. -/
structure StatBn (Key : Type) where
  rows : BnRows Key
  stat64Delta : Stat64Info
  deriving DecidableEq, Repr

/-- A leaf with its basement nodes, of which some may be on disk only. -/
structure StatLeaf (Key : Type) where
  bps : List (Option (StatBn Key))
  dirty : Bool
  /-- The rows of the basement nodes of the image that was written last. -/
  onDisk : List (BnRows Key)
  /-- A clone that waits to be written. -/
  clone : Option (List (StatBn Key))
  /-- Whether rows came from another leaf or went to one since the leaf was last written, which
  the program does not keep. -/
  reshaped : Bool
  deriving DecidableEq, Repr

/-- A tree with its counts in memory, in its header, and in the header of a checkpoint. -/
structure StatFt (Key : Type) where
  inMemoryStats : Stat64Info
  onDiskStats : Stat64Info
  checkpointStats : Option Stat64Info
  /-- The leaves in order of their keys. -/
  leaves : List (StatLeaf Key)
  deriving DecidableEq, Repr

/-- A basement node without rows. -/
def StatBn.createEmpty : StatBn Key := ⟨[], 0⟩

/-- A new tree has one leaf, with one basement node. -/
def StatFt.create : StatFt Key where
  inMemoryStats := 0
  onDiskStats := 0
  checkpointStats := none
  -- The leaf has never been written.
  leaves := [⟨[some .createEmpty], true, [], none, false⟩]

/-- The basement nodes of a leaf that is fully in memory. -/
def StatLeaf.assertFullyInMemory (leaf : StatLeaf Key) : Option (List (StatBn Key)) :=
  leaf.bps.mapM id

/-- The rows of basement nodes, in order. -/
def bnsRows (bns : List (StatBn Key)) : BnRows Key := bns.flatMap StatBn.rows

/-- Take the changes of the counts from basement nodes. -/
def getAndClearBasementStats (bns : List (StatBn Key)) : List (StatBn Key) × Stat64Info :=
  (bns.map fun bn => { bn with stat64Delta := 0 }, (bns.map StatBn.stat64Delta).sum)

/-- Divide rows among new basement nodes, which take these numbers of rows. -/
def leafRegroup : List Nat → BnRows Key → Option (List (StatBn Key))
  | [], rows => do
    invariant (rows.length = 0)
    return []
  | length :: lengths, rows => do
    invariant (length ≤ rows.length)
    let rest ← leafRegroup lengths (rows.drop length)
    return ⟨rows.take length, 0⟩ :: rest

/-- Put all changes of the counts into the first basement node. -/
def gatherDeltas (bns : List (StatBn Key)) : List (StatBn Key) :=
  match getAndClearBasementStats bns with
  | ([], _) => []
  | (bn :: rest, deltas) => { bn with stat64Delta := deltas } :: rest

/-- Split a leaf behind a number of rows of one of its basement nodes. -/
def statLeafSplit (bns : List (StatBn Key)) (numLeftBns numLeftLes : Nat) :
    Option (List (StatBn Key) × List (StatBn Key)) := do
  invariant (0 < numLeftBns)
  let bns := gatherDeltas bns
  let last ← bns[numLeftBns - 1]?
  let splitOnBoundary := numLeftLes = 0 ∨ numLeftLes = last.rows.length
  -- The part of a divided basement node that moves starts without a change.
  let divided := if splitOnBoundary then [] else [⟨last.rows.drop numLeftLes, 0⟩]
  let moved := divided ++ bns.drop numLeftBns
  let last := if splitOnBoundary then last else { last with rows := last.rows.take numLeftLes }
  return (bns.take (numLeftBns - 1) ++ [last], if moved.isEmpty then [.createEmpty] else moved)

/-- Move the basement nodes of a leaf behind those of another one. -/
def statMergeLeafNodes (a b : List (StatBn Key)) : Option (List (StatBn Key)) := do
  invariant (0 < b.length)
  let aLast ← a.getLast?
  -- An empty last basement node is destroyed, as there is no pivot for it.
  if 0 < aLast.rows.length then return a ++ b
  else return a.dropLast ++ b

/-- The header counts what the basement nodes have changed, for a checkpoint in both headers. -/
def StatFt.updateDiskStats (ft : StatFt Key) (bns : List (StatBn Key)) (forCheckpoint : Bool) :
    Option (StatFt Key × List (StatBn Key)) := do
  let (bns, deltas) := getAndClearBasementStats bns
  let ft := { ft with onDiskStats := ft.onDiskStats + deltas }
  if forCheckpoint then
    let stats ← ft.checkpointStats
    return ({ ft with checkpointStats := some (stats + deltas) }, bns)
  else return (ft, bns)

section Collection

variable (sizes : KeySizes Key)

/-- Collect the garbage of all rows of a basement node. -/
def StatBn.gcAllLes (bn : StatBn Key) (gcInfo : TxnGcInfo) : Option (StatBn Key × Stat64Info) := do
  let (rows, delta) ← visitRows (fun key le => rowGcOnce sizes key le gcInfo) bn.rows
  return (⟨rows, bn.stat64Delta + delta⟩, delta)

/-- Collect the garbage of basement nodes, one after the other. -/
def StatFt.leafGcAllLes (ft : StatFt Key) (gcInfo : TxnGcInfo) :
    List (StatBn Key) → Option (StatFt Key × List (StatBn Key))
  | [] => some (ft, [])
  | bn :: rest => do
    let (bn, delta) ← bn.gcAllLes sizes gcInfo
    let ft := { ft with inMemoryStats := ft.inMemoryStats + delta }
    let (ft, rest) ← ft.leafGcAllLes gcInfo rest
    return (ft, bn :: rest)

/-- Collect the garbage of a leaf, unless there is no log and so no transactions. -/
def StatFt.leafRunGc (ft : StatFt Key) (gcInfo : Option TxnGcInfo) (bns : List (StatBn Key)) :
    Option (StatFt Key × List (StatBn Key)) :=
  match gcInfo with
  | none => some (ft, bns)
  | some gcInfo => ft.leafGcAllLes sizes gcInfo bns

end Collection

/-- What can happen to the leaves of a tree. -/
inductive StatEvent (Key : Type) where
  /-- A query, or a flush, applies a message to a basement node. -/
  | applyMsg (leaf bn : Nat) (msg : FtMsg Key) (gcInfo : TxnGcInfo)
  /-- A flush marks a leaf before it applies messages. -/
  | setDirty (leaf : Nat)
  | split (leaf numLeftBns numLeftLes : Nat)
  /-- A leaf takes the rows of the next one. -/
  | merge (leaf : Nat)
  /-- A leaf and the next one divide their rows anew. -/
  | balance (leaf numLeftBns numLeftLes : Nat)
  /-- A leaf is written and kept, and its rows are divided among basement nodes of these lengths. -/
  | write (leaf : Nat) (forCheckpoint : Bool) (gcInfo : Option TxnGcInfo) (lengths : List Nat)
  | cloneLeaf (leaf : Nat) (forCheckpoint : Bool) (lengths : List Nat)
  | writeClone (leaf : Nat) (gcInfo : Option TxnGcInfo)
  /-- A basement node of a clean leaf leaves memory. -/
  | evictBn (leaf bn : Nat)
  /-- A clean leaf leaves memory. -/
  | evict (leaf : Nat)
  /-- A basement node is read from disk. -/
  | fetch (leaf bn : Nat)
  | beginCheckpoint
  | endCheckpoint

namespace StatFt

/-- A leaf takes the place of another one. -/
def setLeaf (ft : StatFt Key) (i : Nat) (leaf : StatLeaf Key) : StatFt Key :=
  { ft with leaves := ft.leaves.set i leaf }

/-- Mark a leaf as changed, once it is fully in memory. -/
def setDirty (ft : StatFt Key) (i : Nat) : Option (StatFt Key) := do
  let leaf ← ft.leaves[i]?
  let _ ← leaf.assertFullyInMemory
  return ft.setLeaf i { leaf with dirty := true }

/-- Split a leaf, and put the new leaf behind it. -/
def ftleafSplit (ft : StatFt Key) (i numLeftBns numLeftLes : Nat) : Option (StatFt Key) := do
  let node ← ft.leaves[i]?
  let bns ← node.assertFullyInMemory
  let (left, right) ← statLeafSplit bns numLeftBns numLeftLes
  let a := { node with bps := left.map some, dirty := true, reshaped := true }
  let b : StatLeaf Key := ⟨right.map some, true, [], none, true⟩
  return { ft with leaves := splice ft.leaves i 1 [a, b] }

/-- Merge a leaf with the next one, which is removed with its image. -/
def mergeLeafNodes (ft : StatFt Key) (i : Nat) : Option (StatFt Key) := do
  let a ← ft.leaves[i]?
  let b ← ft.leaves[i + 1]?
  let bnsA ← a.assertFullyInMemory
  let bnsB ← b.assertFullyInMemory
  let bns ← statMergeLeafNodes bnsA bnsB
  let a := { a with bps := bns.map some, dirty := true, reshaped := true }
  return { ft with leaves := splice ft.leaves i 2 [a] }

/-- Merge a leaf with the next one, and split it again. -/
def balanceLeafNodes (ft : StatFt Key) (i numLeftBns numLeftLes : Nat) : Option (StatFt Key) := do
  let a ← ft.leaves[i]?
  let b ← ft.leaves[i + 1]?
  let bnsA ← a.assertFullyInMemory
  let bnsB ← b.assertFullyInMemory
  let bns ← statMergeLeafNodes bnsA bnsB
  let (left, right) ← statLeafSplit bns numLeftBns numLeftLes
  let a := { a with bps := left.map some, dirty := true, reshaped := true }
  let b := { b with bps := right.map some, dirty := true, reshaped := true }
  return { ft with leaves := splice ft.leaves i 2 [a, b] }

/-- Copy a leaf to be written, after its changes are counted and its rows are divided anew. -/
def cloneCallback (ft : StatFt Key) (i : Nat) (forCheckpoint : Bool) (lengths : List Nat) :
    Option (StatFt Key) := do
  let node ← ft.leaves[i]?
  invariant (node.dirty ∧ node.clone.isNone)
  let bns ← node.assertFullyInMemory
  -- The header counts the changes before the rows are divided, which clears them.
  let (ft, bns) ← ft.updateDiskStats bns forCheckpoint
  let bns ← leafRegroup lengths (bnsRows bns)
  return ft.setLeaf i { node with
    bps := bns.map some, dirty := false, clone := some bns, reshaped := false }

/-- A basement node of a clean leaf is destroyed, and its changes with it. -/
def evictBnFromMemory (ft : StatFt Key) (i j : Nat) : Option (StatFt Key) := do
  let node ← ft.leaves[i]?
  invariant (node.dirty = false)
  let bn ← (← node.bps[j]?)
  let ft := { ft with inMemoryStats := ft.inMemoryStats + -bn.stat64Delta }
  return ft.setLeaf i { node with bps := node.bps.set j none }

/-- Read a basement node from the image on disk. -/
def fetchBn (ft : StatFt Key) (i j : Nat) : Option (StatFt Key) := do
  let node ← ft.leaves[i]?
  -- A clone that is being written keeps the image from being read.
  invariant (node.clone.isNone)
  let bp ← node.bps[j]?
  invariant (bp.isNone)
  let rows ← node.onDisk[j]?
  return ft.setLeaf i { node with bps := node.bps.set j (some ⟨rows, 0⟩) }

variable (sizes : KeySizes Key)

/-- Write a leaf that has changed, and keep it. -/
def flushCallbackWrite (ft : StatFt Key) (i : Nat) (forCheckpoint : Bool)
    (gcInfo : Option TxnGcInfo) (lengths : List Nat) : Option (StatFt Key) := do
  let node ← ft.leaves[i]?
  invariant (node.dirty ∧ node.clone.isNone)
  let bns ← node.assertFullyInMemory
  let (ft, bns) ← ft.leafRunGc sizes gcInfo bns
  let (ft, bns) ← ft.updateDiskStats bns forCheckpoint
  let bns ← leafRegroup lengths (bnsRows bns)
  return ft.setLeaf i { node with
    bps := bns.map some, dirty := false, onDisk := bns.map StatBn.rows, reshaped := false }

/-- Write a clone and free it, where garbage collection of the clone is not counted. -/
def flushCallbackClone (ft : StatFt Key) (i : Nat) (gcInfo : Option TxnGcInfo) :
    Option (StatFt Key) := do
  let node ← ft.leaves[i]?
  let bns ← node.clone
  let (ft, bns) ← ft.leafRunGc sizes gcInfo bns
  let deltas := (bns.map StatBn.stat64Delta).sum
  let ft := { ft with inMemoryStats := ft.inMemoryStats + -deltas }
  return ft.setLeaf i { node with onDisk := bns.map StatBn.rows, clone := none }

/-- Free a leaf that has not changed; its basement nodes are on disk only, then. -/
def flushCallbackFree (ft : StatFt Key) (i : Nat) : Option (StatFt Key) := do
  let node ← ft.leaves[i]?
  invariant (node.dirty = false ∧ node.clone.isNone)
  return ft.setLeaf i { node with bps := node.bps.map fun _ => none }

variable [LinearOrder Key] (updateFun : UpdateFunc Key)

/-- Apply a message to a basement node that is in memory. -/
def applyMsg (ft : StatFt Key) (i j : Nat) (msg : FtMsg Key) (gcInfo : TxnGcInfo) :
    Option (StatFt Key) := do
  let leaf ← ft.leaves[i]?
  let bn ← (← leaf.bps[j]?)
  let (rows, delta) ← rowsApplyMsg sizes updateFun bn.rows msg gcInfo
  let bn : StatBn Key := ⟨rows, bn.stat64Delta + delta⟩
  let ft := { ft with inMemoryStats := ft.inMemoryStats + delta }
  return ft.setLeaf i { leaf with bps := leaf.bps.set j (some bn) }

/-- One step, absent when the event cannot happen. -/
def next (ft : StatFt Key) : StatEvent Key → Option (StatFt Key)
  | .applyMsg leaf bn msg gcInfo => ft.applyMsg sizes updateFun leaf bn msg gcInfo
  | .setDirty leaf => ft.setDirty leaf
  | .split leaf numLeftBns numLeftLes => ft.ftleafSplit leaf numLeftBns numLeftLes
  | .merge leaf => ft.mergeLeafNodes leaf
  | .balance leaf numLeftBns numLeftLes => ft.balanceLeafNodes leaf numLeftBns numLeftLes
  | .write leaf forCheckpoint gcInfo lengths =>
    ft.flushCallbackWrite sizes leaf forCheckpoint gcInfo lengths
  | .cloneLeaf leaf forCheckpoint lengths => ft.cloneCallback leaf forCheckpoint lengths
  | .writeClone leaf gcInfo => ft.flushCallbackClone sizes leaf gcInfo
  | .evictBn leaf bn => ft.evictBnFromMemory leaf bn
  | .evict leaf => ft.flushCallbackFree leaf
  | .fetch leaf bn => ft.fetchBn leaf bn
  | .beginCheckpoint => do
    invariant (ft.checkpointStats.isNone)
    return { ft with checkpointStats := some ft.onDiskStats }
  | .endCheckpoint => do
    invariant (ft.checkpointStats.isSome)
    return { ft with checkpointStats := none }

end StatFt

/-- The changes of basement nodes, added up. -/
def bnsDeltas (bns : List (StatBn Key)) : Stat64Info := (bns.map StatBn.stat64Delta).sum

/-- The change of a basement node, which is nothing when it is on disk only. -/
def bpDelta : Option (StatBn Key) → Stat64Info
  | none => 0
  | some bn => bn.stat64Delta

/-- The changes of the basement nodes of a leaf that are in memory. -/
def StatLeaf.deltas (leaf : StatLeaf Key) : Stat64Info := (leaf.bps.map bpDelta).sum

/-- The changes of all basement nodes of a tree that are in memory. -/
def StatFt.deltas (ft : StatFt Key) : Stat64Info := (ft.leaves.map StatLeaf.deltas).sum

/-- The image of a leaf that was written last, where a clone that waits is as good as written. -/
def StatLeaf.lastImage (leaf : StatLeaf Key) : List (BnRows Key) :=
  leaf.clone.elim leaf.onDisk fun bns => bns.map StatBn.rows

section Spec

variable {bns after left right a b : List (StatBn Key)} {leaf : StatLeaf Key}

/-- A leaf that is fully in memory has these basement nodes and no others. -/
theorem bps_of_assertFullyInMemory (whole : leaf.assertFullyInMemory = some bns) :
    leaf.bps = bns.map some := by
  rw [StatLeaf.assertFullyInMemory] at whole
  generalize leaf.bps = bps at whole ⊢
  induction bps generalizing bns with
  | nil =>
    cases whole
    rfl
  | cons bp rest ih =>
    rw [List.mapM_cons] at whole
    obtain ⟨bn, here, whole⟩ := of_bind whole
    obtain ⟨others, behind, whole⟩ := of_bind whole
    cases whole
    rw [List.map_cons, ← ih behind]
    exact congrArg (· :: rest) here

@[simp] theorem bnsDeltas_nil : bnsDeltas ([] : List (StatBn Key)) = 0 := rfl

@[simp] theorem bnsDeltas_cons (bn : StatBn Key) :
    bnsDeltas (bn :: bns) = bn.stat64Delta + bnsDeltas bns := by
  rw [bnsDeltas, List.map_cons, List.sum_cons, bnsDeltas]

@[simp] theorem bnsDeltas_append : bnsDeltas (a ++ b) = bnsDeltas a + bnsDeltas b := by
  rw [bnsDeltas, List.map_append, List.sum_append, bnsDeltas, bnsDeltas]

/-- Basement nodes whose changes were taken have none. -/
theorem bnsDeltas_cleared (bns : List (StatBn Key)) :
    bnsDeltas (getAndClearBasementStats bns).1 = 0 := by
  induction bns with
  | nil => rfl
  | cons bn rest ih =>
    show bnsDeltas ({ bn with stat64Delta := 0 } :: (getAndClearBasementStats rest).1) = 0
    rw [bnsDeltas_cons, ih]
    rfl

/-- Taking the changes leaves the rows. -/
theorem bnsRows_cleared (bns : List (StatBn Key)) :
    bnsRows (getAndClearBasementStats bns).1 = bnsRows bns := by
  rw [bnsRows, getAndClearBasementStats, List.flatMap_map]
  rfl

/-- Gathering the changes in the first basement node loses none of them, and no row. -/
theorem gatherDeltas_spec (bns : List (StatBn Key)) :
    bnsDeltas (gatherDeltas bns) = bnsDeltas bns ∧ bnsRows (gatherDeltas bns) = bnsRows bns := by
  cases bns with
  | nil => exact ⟨rfl, rfl⟩
  | cons bn rest =>
    -- The first one gets the sum, and the others were cleared.
    have gathered : gatherDeltas (bn :: rest) =
        { bn with stat64Delta := bnsDeltas (bn :: rest) } :: (getAndClearBasementStats rest).1 :=
      rfl
    rw [gathered, bnsDeltas_cons, bnsDeltas_cleared]
    refine ⟨add_zero _, ?_⟩
    rw [bnsRows, List.flatMap_cons, ← bnsRows, bnsRows_cleared]
    rfl

/-- Splitting divides the rows and the changes. -/
theorem statLeafSplit_spec {numLeftBns numLeftLes : Nat}
    (taken : statLeafSplit bns numLeftBns numLeftLes = some (left, right)) :
    bnsDeltas left + bnsDeltas right = bnsDeltas bns ∧
      bnsRows left ++ bnsRows right = bnsRows bns := by
  obtain ⟨deltas, rows⟩ := gatherDeltas_spec bns
  obtain ⟨positive, taken⟩ := of_invariant taken
  obtain ⟨last, here, taken⟩ := of_bind taken
  rw [← deltas, ← rows]
  generalize gatherDeltas bns = bns at here taken ⊢
  obtain ⟨count, rfl⟩ : ∃ count, numLeftBns = count + 1 := ⟨numLeftBns - 1, by omega⟩
  rw [Nat.add_sub_cancel] at here
  obtain ⟨inside, found⟩ := List.getElem?_eq_some_iff.mp here
  -- The basement nodes stand before the last one on the left, or are that one, or behind it.
  have parts : bns = bns.take count ++ (last :: bns.drop (count + 1)) := by
    rw [← found, ← List.drop_eq_getElem_cons inside, List.take_append_drop]
  have moved (more : List (StatBn Key)) :
      bnsDeltas (if more.isEmpty then [.createEmpty] else more) = bnsDeltas more ∧
        bnsRows (if more.isEmpty then [.createEmpty] else more) = bnsRows more := by
    cases more with
    | nil => exact ⟨rfl, rfl⟩
    | cons bn rest => exact ⟨rfl, rfl⟩
  simp only [Option.pure_def, Option.some.injEq, Prod.mk.injEq, Nat.add_sub_cancel] at taken
  obtain ⟨rfl, rfl⟩ := taken
  rw [(moved _).1, (moved _).2]
  by_cases boundary : numLeftLes = 0 ∨ numLeftLes = last.rows.length
  · simp only [if_pos boundary, List.nil_append]
    constructor
    · conv_rhs => rw [parts]
      simp only [bnsDeltas_append, bnsDeltas_cons, bnsDeltas_nil]
      abel
    · conv_rhs => rw [parts]
      simp [bnsRows]
  · simp only [if_neg boundary]
    constructor
    · -- The part that moves has no change of its own.
      conv_rhs => rw [parts]
      simp only [bnsDeltas_append, bnsDeltas_cons, bnsDeltas_nil]
      abel
    · conv_rhs => rw [parts]
      simp [bnsRows]
      rw [← List.append_assoc (List.take _ _), List.take_append_drop]

/-- The last basement node of a leaf may be destroyed by a merge: it has rows, or no change. -/
def MergeKeeps (bns : List (StatBn Key)) : Prop :=
  ∀ last ∈ bns.getLast?, last.rows = [] → last.stat64Delta = 0

/-- Merging keeps all rows, and all changes when the one that is destroyed has none. -/
theorem statMergeLeafNodes_spec (merged : statMergeLeafNodes a b = some after) :
    bnsRows after = bnsRows a ++ bnsRows b ∧
      (MergeKeeps a → bnsDeltas after = bnsDeltas a + bnsDeltas b) := by
  obtain ⟨-, merged⟩ := of_invariant merged
  obtain ⟨last, final, merged⟩ := of_bind merged
  by_cases tail : 0 < last.rows.length
  · rw [if_pos tail] at merged
    cases merged
    exact ⟨List.flatMap_append, fun _ => bnsDeltas_append⟩
  · rw [if_neg tail] at merged
    cases merged
    have nothing : last.rows = [] := List.length_eq_zero_iff.mp (by omega)
    obtain ⟨early, rfl⟩ := List.getLast?_eq_some_iff.mp final
    rw [List.dropLast_concat]
    refine ⟨by simp [bnsRows, nothing], fun keeps => ?_⟩
    rw [bnsDeltas_append, bnsDeltas_append, bnsDeltas_cons, keeps last final nothing]
    simp

/-- Rows that are divided anew are the same rows, without changes. -/
theorem leafRegroup_spec {lengths : List Nat} : ∀ {rows : BnRows Key} {bns : List (StatBn Key)},
    leafRegroup lengths rows = some bns → bnsRows bns = rows ∧ bnsDeltas bns = 0 ∧
      ∀ bn ∈ bns, bn.stat64Delta = 0 := by
  induction lengths with
  | nil =>
    intro rows bns divided
    obtain ⟨nothing, divided⟩ := of_invariant divided
    cases divided
    exact ⟨(List.length_eq_zero_iff.mp nothing).symm, rfl, by simp⟩
  | cons length lengths ih =>
    intro rows bns divided
    obtain ⟨-, divided⟩ := of_invariant divided
    obtain ⟨rest, behind, divided⟩ := of_bind divided
    cases divided
    obtain ⟨same, none_, each⟩ := ih behind
    refine ⟨?_, ?_, ?_⟩
    · rw [bnsRows, List.flatMap_cons, ← bnsRows, same, List.take_append_drop]
    · rw [bnsDeltas_cons, none_]
      rfl
    · intro bn member
      rcases List.mem_cons.mp member with rfl | member
      · rfl
      · exact each bn member

end Spec

end Tokuft
