import Tokuft.Basic

/-! Merging the temporary files of a bulk load in passes, until one merge can write to the queue. -/

namespace Tokuft

/-- A temporary file of a load, by its place in the table of files. -/
abbrev FIDX := Nat

/--
What the passes ask of the files, of the merge of a few files, and of the queue.

Every call answers with an error number, which is zero on success.
-/
structure LoaderCalls (World : Type) where
  fiReopen : FIDX → World → Int × World
  openTempFile : World → Int × FIDX × World
  /-- Whether the rows go to the queue, the file they go to otherwise, the sources, the progress. -/
  mergeSomeFiles : Bool → Option FIDX → List FIDX → Int → World → Int × World
  fiClose : FIDX → World → Int × World
  fiUnlink : FIDX → World → Int × World
  queueEof : World → Int × World
  updateProgress : Int → World → Int × World

/-- How many times a number of files shrinks by the limit before one is left. -/
def nPasses : Nat → Nat → Nat → Option Nat
  -- The source loops without a bound, and with a limit of one it never stops.
  | 0, _, _ => none
  | fuel + 1, files, limit =>
    if 1 < files then (nPasses fuel ((files + limit - 1) / limit) limit).map (· + 1) else some 0

/-- The number of passes that is computed before the first of them. -/
def nPassesAtStart (fuel finalMergelimit earlierMergelimit files : Nat) : Option Nat :=
  if files ≤ finalMergelimit then some 1
  else
    (nPasses fuel ((files + finalMergelimit - 1) / finalMergelimit) earlierMergelimit).map (1 + ·)

/-- The first error of two is the one that is returned. -/
def firstError (result next : Int) : Int := if next ≠ 0 ∧ result = 0 then next else result

section

variable {World : Type}

/-- Open files again for reading, up to the first that cannot be opened. -/
def reopenFiles (calls : LoaderCalls World) : List FIDX → World → Int × List FIDX × World
  | [], world => (0, [], world)
  | fidx :: files, world =>
    let (r, world) := calls.fiReopen fidx world
    -- What was opened before the error is closed and unlinked with the others below.
    if r ≠ 0 then (r, [], world)
    else
      let (result, opened, world) := reopenFiles calls files world
      (result, fidx :: opened, world)

/-- Close and unlink files, all of them, and keep the first error. -/
def closeAndUnlink (calls : LoaderCalls World) : List FIDX → Int → World → Int × World
  | [], result, world => (result, world)
  | fidx :: files, result, world =>
    let (r, world) := calls.fiClose fidx world
    let result := firstError result r
    let (r, world) := calls.fiUnlink fidx world
    closeAndUnlink calls files (firstError result r) world

/-- One pass over a set of files, while it is going on. -/
structure MergePass (World : Type) where
  world : World
  result : Int
  /-- The files that this pass has not merged yet. -/
  files : List FIDX
  /-- The files that this pass has written. -/
  nextFileSet : List FIDX
  progressAllocationForThisPass : Int
  /-- The sources of every merge of this pass, which the source does not record. -/
  merges : List (List FIDX)

/-- Open the file that a merge writes to, unless it writes to the queue. -/
def extendFileset (calls : LoaderCalls World) (toQueue : Bool) (result : Int) (world : World) :
    Int × Option FIDX × World :=
  if result = 0 ∧ toQueue = false then
    let (r, fidx, world) := calls.openTempFile world
    if r = 0 then (0, some fidx, world) else (r, none, world)
  else (result, none, world)

/-- Merge some files, unless something failed before. -/
def mergeSomeFiles (calls : LoaderCalls World) (toQueue : Bool) (merged : Option FIDX)
    (dataFidxs : List FIDX) (progressAllocation result : Int) (world : World) : Int × World :=
  if result = 0 then calls.mergeSomeFiles toQueue merged dataFidxs progressAllocation world
  else (result, world)

/-- Close the file that a merge wrote to, if there is one. -/
def closeMerged (calls : LoaderCalls World) (merged : Option FIDX) (result : Int) (world : World) :
    Int × World :=
  match merged with
  | some fidx =>
    let (r, world) := calls.fiClose fidx world
    (firstError result r, world)
  | none => (result, world)

namespace MergePass

/-- Merge some files from the end of what this pass has left. -/
def mergeGroup (calls : LoaderCalls World) (toQueue : Bool) (limit : Nat)
    (pass : MergePass World) : MergePass World :=
  let nToMerge := min limit pass.files.length
  -- The fraction is a double in the source, cut to an integer when it is stored.
  let progressAllocationForThisSubpass :=
    (pass.progressAllocationForThisPass * nToMerge).tdiv pass.files.length
  let (result, dataFidxs, world) :=
    reopenFiles calls (pass.files.reverse.take nToMerge) pass.world
  let (result, merged, world) := extendFileset calls toQueue result world
  let merges := if result = 0 then pass.merges ++ [dataFidxs] else pass.merges
  let (result, world) := mergeSomeFiles calls toQueue merged dataFidxs
    progressAllocationForThisSubpass result world
  let (result, world) := closeAndUnlink calls dataFidxs result world
  let (result, world) := closeMerged calls merged result world
  { world := world
    result := result
    files := pass.files.take (pass.files.length - nToMerge)
    nextFileSet := pass.nextFileSet ++ merged.toList
    progressAllocationForThisPass :=
      pass.progressAllocationForThisPass - progressAllocationForThisSubpass
    merges := merges }

/-- Merge groups of files until none is left or one fails. -/
def run (calls : LoaderCalls World) (toQueue : Bool) (limit : Nat) :
    Nat → MergePass World → Option (MergePass World)
  | 0, _ => none
  | fuel + 1, pass =>
    if pass.files = [] then some pass
    else
      let pass := pass.mergeGroup calls toQueue limit
      if pass.result ≠ 0 then some pass else run calls toQueue limit fuel pass

end MergePass

/-- What one pass did, which the source does not record. -/
structure PassRecord where
  /-- What the allocation was divided by. -/
  nPassesLeft : Int
  toQueue : Bool
  files : List FIDX
  merges : List (List FIDX)
  /-- The files that the next pass starts from. -/
  nextFileSet : List FIDX
  progressAllocationForThisPass : Int
  deriving DecidableEq, Repr

/-- The state between two passes. -/
structure MergeFiles (World : Type) where
  world : World
  result : Int
  files : List FIDX
  progressAllocation : Int
  nPassesLeft : Int
  passes : List PassRecord

namespace MergeFiles

/-- What a pass did, as it ends. -/
def record (m : MergeFiles World) (toQueue : Bool) (done : MergePass World) : PassRecord where
  nPassesLeft := m.nPassesLeft
  toQueue := toQueue
  files := m.files
  merges := done.merges
  nextFileSet := done.nextFileSet
  progressAllocationForThisPass := done.progressAllocationForThisPass

/-- The state after a pass, whose files are the ones that it wrote. -/
def afterPass (m : MergeFiles World) (progressAllocationForThisPass : Int) (toQueue : Bool)
    (done : MergePass World) : MergeFiles World where
  world := done.world
  result := done.result
  files := done.nextFileSet
  progressAllocation := m.progressAllocation - progressAllocationForThisPass
  nPassesLeft := m.nPassesLeft - 1
  passes := m.passes ++ [m.record toQueue done]

/-- Make one pass over the files. -/
def pass (calls : LoaderCalls World) (finalMergelimit earlierMergelimit fuel : Nat)
    (m : MergeFiles World) : Option (MergeFiles World) := do
  -- The processor traps on a division by zero.
  invariant (m.nPassesLeft ≠ 0)
  let progressAllocationForThisPass := m.progressAllocation.tdiv m.nPassesLeft
  let toQueue := decide (m.files.length ≤ finalMergelimit)
  let done ← MergePass.run calls toQueue (if toQueue then finalMergelimit else earlierMergelimit)
    fuel
    { world := m.world
      result := m.result
      files := m.files
      nextFileSet := []
      progressAllocationForThisPass := progressAllocationForThisPass
      merges := [] }
  invariant (done.result = 0 → done.progressAllocationForThisPass = 0)
  return m.afterPass progressAllocationForThisPass toQueue done

/-- Make passes until no file is left or one fails. -/
def run (calls : LoaderCalls World) (finalMergelimit earlierMergelimit : Nat) :
    Nat → MergeFiles World → Option (MergeFiles World)
  | 0, _ => none
  | fuel + 1, m =>
    if m.files = [] then some m
    else do
      let m ← m.pass calls finalMergelimit earlierMergelimit fuel
      if m.result ≠ 0 then some m else run calls finalMergelimit earlierMergelimit fuel m

end MergeFiles

/-- Merge all the files of a set and write the answers into the queue. -/
def mergeFiles (calls : LoaderCalls World) (finalMergelimit earlierMergelimit : Nat)
    (files : List FIDX) (progressAllocation : Int) (world : World) (fuel : Nat) :
    Option (MergeFiles World) := do
  let nPassesLeft ← nPassesAtStart fuel finalMergelimit earlierMergelimit files.length
  let m ← MergeFiles.run calls finalMergelimit earlierMergelimit fuel
    { world := world
      result := 0
      files := files
      progressAllocation := progressAllocation
      nPassesLeft := nPassesLeft
      passes := [] }
  -- The queue is told of its end and the progress is counted after an error, too.
  let (r, world) := calls.queueEof m.world
  let result := firstError m.result r
  let (r, world) := calls.updateProgress m.progressAllocation world
  return { m with world := world, result := firstError result r }

end

end Tokuft
