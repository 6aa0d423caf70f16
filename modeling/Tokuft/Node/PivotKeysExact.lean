import Tokuft.Library.Runs
import Tokuft.Node.PivotKeysSteps

/-! Containers of pivot keys stand for lists of keys, whatever is done to them. -/

namespace Tokuft

namespace PivotKeys

variable {pivotkeys : PivotKeys} {keys : List Dbt}

/-- As many values are read as were asked for. -/
theorem readMany_length {Value : Type} {reader : Reader Value} {n : Nat} {bytes rest : Bytes}
    {values : List Value} (read : (readMany reader n).run bytes = some (values, rest)) :
    values.length = n := by
  -- By induction on the count.
  induction n generalizing bytes values with
  | zero =>
    cases read
    rfl
  | succ n ih =>
    simp only [readMany, StateT.run_bind, bind_inv, StateT.run_pure, Prod.mk.injEq,
      Prod.exists] at read
    obtain ⟨first, middle, -, others, end_, readOthers, rfl, rfl⟩ := read
    exact congrArg (· + 1) (ih readOthers)

/-- What is read is held. -/
theorem deserializeFromRbuf_eq (zero : ZeroSized) {n : Nat} {bytes rest : Bytes}
    (read : (readMany rbufBytes n).run bytes = some (keys, rest))
    (positive : ∀ key ∈ keys, 0 < key.size) :
    ∃ created, (deserializeFromRbuf zero n).run bytes = some (created, rest) ∧
      created.Holds keys := by
  -- The keys are read into separate cells, with their sizes added up.
  have length := readMany_length read
  subst length
  have boxed : Boxed { createEmpty with
      dbtKeys := allocated zero.mallocAligned keys
      numPivots := keys.length
      totalSize := (keys.map Dbt.size).sum } keys :=
    ⟨rfl, allocated_getD _ keys, rfl, rfl, positive⟩
  have finish {created : PivotKeys} (holds : created.Holds keys)
      (done : (if keysSameSize keys && decide (0 < keys.length) then
          PivotKeys.convertToFixedFormat { createEmpty with
            dbtKeys := allocated zero.mallocAligned keys
            numPivots := keys.length
            totalSize := (keys.map Dbt.size).sum }
        else some { createEmpty with
          dbtKeys := allocated zero.mallocAligned keys
          numPivots := keys.length
          totalSize := (keys.map Dbt.size).sum }) = some created) :
      (deserializeFromRbuf zero keys.length).run bytes = some (created, rest) := by
    simp only [deserializeFromRbuf, StateT.run_bind, read, bind_runs, StateT.run_lift, done,
      holds.sanityCheck, StateT.run_pure]
  by_cases packable : (keysSameSize keys && decide (0 < keys.length)) = true
  · obtain ⟨same, some⟩ := Bool.and_eq_true_iff.mp packable
    obtain ⟨first, others, rfl⟩ := List.exists_cons_of_length_pos (of_decide_eq_true some)
    obtain ⟨created, block, made, fixed⟩ :=
      createFixed_eq (keysSameSize_iff.mp same) (positive first List.mem_cons_self)
    have holds : created.Holds (first :: others) := .inl ⟨block, fixed⟩
    have isFixed : created.fixedFormat = true := by rw [fixedFormat, fixed.fixedKeys]; rfl
    refine ⟨created, finish holds ?_, holds⟩
    rw [if_pos packable]
    have notFixed : PivotKeys.fixedFormat { createEmpty with
        dbtKeys := allocated zero.mallocAligned (first :: others)
        numPivots := (first :: others).length
        totalSize := ((first :: others).map Dbt.size).sum } = false := rfl
    simp only [PivotKeys.convertToFixedFormat, invariant_of notFixed, allocated_getD,
      List.take_length, made, invariant_of isFixed, holds.sanityCheck, bind_runs]
  · exact ⟨_, finish (.inr boxed) (if_neg packable), .inr boxed⟩

/-- Keys that are not empty are written one after the other. -/
theorem writeKeys_eq (positive : ∀ key ∈ keys, 0 < key.size) :
    writeKeys keys = some (keys.flatMap wbufBytes, (keys.map Dbt.size).sum) := by
  -- By induction on the keys.
  induction keys with
  | nil => rfl
  | cons key rest ih =>
    have first : key.size ≠ 0 := Nat.ne_of_gt (positive key List.mem_cons_self)
    have others := ih fun other member => positive other (List.mem_cons_of_mem _ member)
    simp only [writeKeys, invariant_of first, others, bind_runs, List.flatMap_cons, List.map_cons,
      List.sum_cons]

/-- The size of what is written is the sum of the sizes of the keys. -/
theorem Holds.serializedSize (holds : pivotkeys.Holds keys) :
    pivotkeys.serializedSize = (keys.map Dbt.size).sum := by
  rcases holds with ⟨block, fixed⟩ | boxed
  · have isFixed : pivotkeys.fixedFormat = true := by rw [fixedFormat, fixed.fixedKeys]; rfl
    rw [PivotKeys.serializedSize, if_pos isFixed, sum_of_sizes fixed.sizes, fixed.numPivots]
  · have notFixed : ¬pivotkeys.fixedFormat = true := by simp [fixedFormat, boxed.fixedKeys]
    rw [PivotKeys.serializedSize, if_neg notFixed, boxed.totalSize]

/-- The keys that are held are written, in either format. -/
theorem Holds.serializeToWbuf (holds : pivotkeys.Holds keys) :
    pivotkeys.serializeToWbuf = some (keys.flatMap wbufBytes) := by
  simp only [PivotKeys.serializeToWbuf, holds.eachKey, writeKeys_eq holds.positive,
    invariant_of holds.serializedSize.symm, bind_runs]

/-- A key is read back as it was written. -/
theorem reads_wbufBytes (key : Dbt) : Reads rbufBytes (wbufBytes key) key := by
  -- The size in front of the bytes tells how many to read.
  have filled : Dbt.fill key.data key.size = key := by
    apply Dbt.ext_data
    exact (Dbt.fill_data key.fits).trans List.take_length
  have data := (Reads.bytes key.data).map fun bytes => Dbt.fill bytes key.size
  rw [filled] at data
  have size : key.size < 2 ^ (8 * 4) := key.fits
  exact (Reads.uint 4 size).bind data

/-- What is written is read back. -/
theorem readMany_writeKeys (keys : List Dbt) (rest : Bytes) :
    (readMany rbufBytes keys.length).run (keys.flatMap wbufBytes ++ rest) = some (keys, rest) := by
  have read : Reads (readMany rbufBytes keys.length) (keys.flatMap wbufBytes) (keys.map id) :=
    Reads.many fun key _ => reads_wbufBytes key
  rw [List.map_id] at read
  exact read rest

end PivotKeys

/-- What is done to containers of pivot keys, each named by its place. -/
inductive PivotKeysEvent where
  | createFromDbts (place : Nat) (keys : List Dbt)
  | createFromPivotKeys (place source : Nat)
  | deserializeFromRbuf (place : Nat) (bytes : Bytes) (n : Nat)
  | insertAt (place : Nat) (key : Dbt) (i : Nat)
  | append (place other : Nat)
  | replaceAt (place : Nat) (key : Dbt) (i : Nat)
  | deleteAt (place i : Nat)
  | splitAt (place i other : Nat)
  deriving DecidableEq, Repr

namespace PivotKeysEvent

/-- What happens to the containers. -/
def next (zero : ZeroSized) (containers : Nat → PivotKeys) :
    PivotKeysEvent → Option (Nat → PivotKeys)
  | .createFromDbts place keys => do
    let created ← PivotKeys.createFromDbts zero keys
    return Function.update containers place created
  | .createFromPivotKeys place source => do
    let copy ← (containers source).createFromPivotKeys zero
    return Function.update containers place copy
  | .deserializeFromRbuf place bytes n => do
    let (created, _) ← (PivotKeys.deserializeFromRbuf zero n).run bytes
    return Function.update containers place created
  | .insertAt place key i => do
    let inserted ← (containers place).insertAt zero key i
    return Function.update containers place inserted
  | .append place other => do
    let appended ← (containers place).append zero (containers other)
    return Function.update containers place appended
  | .replaceAt place key i => do
    let replaced ← (containers place).replaceAt zero key i
    return Function.update containers place replaced
  | .deleteAt place i => do
    let deleted ← (containers place).deleteAt zero i
    return Function.update containers place deleted
  | .splitAt place i other => do
    let (left, right) ← (containers place).splitAt zero i (containers other)
    return Function.update (Function.update containers place left) other right

/-- Keys are not empty, places in a list are in range, and what is split off goes to an empty
container. -/
def Allowed (lists : Nat → List Dbt) : PivotKeysEvent → Prop
  | .createFromDbts _ keys => ∀ key ∈ keys, 0 < key.size
  | .createFromPivotKeys _ _ | .append _ _ => True
  | .deserializeFromRbuf _ bytes n =>
    ∃ read ∈ (readMany PivotKeys.rbufBytes n).run bytes, ∀ key ∈ read.1, 0 < key.size
  | .insertAt place key i | .replaceAt place key i => 0 < key.size ∧ i ≤ (lists place).length
  | .deleteAt place i => i < (lists place).length
  | .splitAt place i other => i ≤ (lists place).length ∧ other ≠ place ∧ lists other = []

/-- What happens to the lists of keys that the containers stand for. -/
def applyToLists (lists : Nat → List Dbt) : PivotKeysEvent → Nat → List Dbt
  | .createFromDbts place keys => Function.update lists place keys
  | .createFromPivotKeys place source => Function.update lists place (lists source)
  | .deserializeFromRbuf place bytes n =>
    Function.update lists place
      (((readMany PivotKeys.rbufBytes n).run bytes).elim [] Prod.fst)
  | .insertAt place key i => Function.update lists place ((lists place).insertIdx i key)
  | .append place other => Function.update lists place (lists place ++ lists other)
  | .replaceAt place key i =>
    Function.update lists place (if i < (lists place).length then (lists place).set i key
      else (lists place).insertIdx i key)
  | .deleteAt place i => Function.update lists place ((lists place).eraseIdx i)
  | .splitAt place i other =>
    Function.update (Function.update lists place ((lists place).take i)) other
      ((lists place).drop i)

/-- An allowed operation on lists. -/
def Step (lists : Nat → List Dbt) (event : PivotKeysEvent) (after : Nat → List Dbt) : Prop :=
  Allowed lists event ∧ applyToLists lists event = after

/-- Holding keys is kept where one container changes. -/
theorem holds_update {containers : Nat → PivotKeys} {lists : Nat → List Dbt}
    (all : ∀ place, (containers place).Holds (lists place)) (place : Nat)
    {container : PivotKeys} {keys : List Dbt} (holds : container.Holds keys) (other : Nat) :
    (Function.update containers place container other).Holds
      (Function.update lists place keys other) := by
  by_cases here : other = place
  · subst here
    rwa [Function.update_self, Function.update_self]
  · rw [Function.update_of_ne here, Function.update_of_ne here]
    exact all other

/-- An allowed operation passes all checks, and does to the containers what it does to the lists. -/
theorem next_holds (zero : ZeroSized) {containers : Nat → PivotKeys} {lists : Nat → List Dbt}
    (all : ∀ place, (containers place).Holds (lists place)) {event : PivotKeysEvent}
    (allowed : Allowed lists event) :
    ∃ after, event.next zero containers = some after ∧
      ∀ place, (after place).Holds (applyToLists lists event place) := by
  -- One case for each operation, by its law.
  cases event with
  | createFromDbts place keys =>
    obtain ⟨created, done, holds⟩ := PivotKeys.createFromDbts_eq zero allowed
    exact ⟨_, by simp [next, done], holds_update all place holds⟩
  | createFromPivotKeys place source =>
    obtain ⟨copy, done, holds⟩ := (all source).createFromPivotKeys zero
    exact ⟨_, by simp [next, done], holds_update all place holds⟩
  | deserializeFromRbuf place bytes n =>
    obtain ⟨⟨keys, rest⟩, read, positive⟩ := allowed
    obtain ⟨created, done, holds⟩ := PivotKeys.deserializeFromRbuf_eq zero read positive
    refine ⟨Function.update containers place created, by simp [next, done], ?_⟩
    rw [applyToLists, show (readMany PivotKeys.rbufBytes n).run bytes = some (keys, rest) from read]
    exact holds_update all place holds
  | insertAt place key i =>
    obtain ⟨inserted, done, holds⟩ := (all place).insertAt zero allowed.1 allowed.2
    exact ⟨_, by simp [next, done], holds_update all place holds⟩
  | append place other =>
    obtain ⟨appended, done, holds⟩ := (all place).append zero (all other)
    exact ⟨_, by simp [next, done], holds_update all place holds⟩
  | replaceAt place key i =>
    obtain ⟨replaced, done, holds⟩ := (all place).replaceAt zero allowed.1 allowed.2
    exact ⟨_, by simp [next, done], holds_update all place holds⟩
  | deleteAt place i =>
    obtain ⟨deleted, done, holds⟩ := (all place).deleteAt zero allowed
    exact ⟨_, by simp [next, done], holds_update all place holds⟩
  | splitAt place i other =>
    obtain ⟨inRange, -, empty⟩ := allowed
    have otherEmpty : (containers other).Holds [] := empty ▸ all other
    obtain ⟨left, right, done, leftHolds, rightHolds⟩ :=
      (all place).splitAt zero otherEmpty inRange
    exact ⟨_, by simp [next, done],
      holds_update (holds_update all place leftHolds) other rightHolds⟩

end PivotKeysEvent

/-- A container stands for a list of keys. -/
structure PivotKeys.Represents (pivotkeys : PivotKeys) (keys : List Dbt) : Prop where
  sane : pivotkeys.sanityCheck = some ()
  numPivots : pivotkeys.numPivots = keys.length
  getPivot : ∀ i key, keys[i]? = some key → pivotkeys.getPivot i = some key
  fillPivot : ∀ i key, keys[i]? = some key → pivotkeys.fillPivot i = some key

/-- A container that holds keys stands for them. -/
theorem PivotKeys.Holds.represents {pivotkeys : PivotKeys} {keys : List Dbt}
    (holds : pivotkeys.Holds keys) : pivotkeys.Represents keys where
  sane := holds.sanityCheck
  numPivots := holds.numPivots
  getPivot _ _ there := holds.getPivot there
  fillPivot _ _ there := holds.fillPivot there

/--
Containers of pivot keys do what lists of keys do.

Every allowed sequence of operations passes all checks, after each of which every container stands
for its list, and what it writes is as large as its keys and is read back as the same list.
-/
theorem pivotKeys_exact (zero : ZeroSized) {events : List PivotKeysEvent}
    {lists : Nat → List Dbt} (run : Runs PivotKeysEvent.Step (fun _ => []) events lists) :
    ∃ containers, Runs (fun before event after => event.next zero before = some after)
        (fun _ => PivotKeys.createEmpty) events containers ∧
      ∀ place, (containers place).Represents (lists place) ∧
        (containers place).serializedSize = ((lists place).map Dbt.size).sum ∧
        ∃ bytes, (containers place).serializeToWbuf = some bytes ∧
          ∀ rest, ∃ restored, (PivotKeys.deserializeFromRbuf zero (containers place).numPivots).run
              (bytes ++ rest) = some (restored, rest) ∧
            restored.Represents (lists place) := by
  -- By induction on the run, in step with the lists.
  have reached : ∃ containers, Runs (fun before event after => event.next zero before = some after)
      (fun _ => PivotKeys.createEmpty) events containers ∧
        ∀ place, (containers place).Holds (lists place) := by
    induction run with
    | start => exact ⟨_, .start, fun _ => .inr ⟨rfl, rfl, rfl, rfl, fun _ member => nomatch member⟩⟩
    | next _ last ih =>
      obtain ⟨containers, earlier, all⟩ := ih
      obtain ⟨allowed, rfl⟩ := last
      obtain ⟨after, done, holds⟩ := PivotKeysEvent.next_holds zero all allowed
      exact ⟨after, .next earlier done, holds⟩
  obtain ⟨containers, containersRun, all⟩ := reached
  refine ⟨containers, containersRun, fun place => ?_⟩
  have holds := all place
  refine ⟨holds.represents, holds.serializedSize, _, holds.serializeToWbuf, fun rest => ?_⟩
  obtain ⟨restored, read, restoredHolds⟩ := PivotKeys.deserializeFromRbuf_eq zero
    (PivotKeys.readMany_writeKeys (lists place) rest) holds.positive
  exact ⟨restored, holds.numPivots ▸ read, restoredHolds.represents⟩

/-- Two keys of one length come and go, and then a longer one comes. -/
def emptiedEvents : List PivotKeysEvent :=
  [.createFromDbts 0 [⟨[1], by decide⟩, ⟨[2], by decide⟩], .deleteAt 0 0, .deleteAt 0 0,
    .insertAt 0 ⟨[3, 4, 5], by decide⟩ 0]

/-- A packed array that has become empty takes a key of another length. -/
theorem pivotKeys_exact_emptied :
    ∃ containers, Runs (fun before event after =>
          PivotKeysEvent.next ⟨true, false, true⟩ before event = some after)
        (fun _ => PivotKeys.createEmpty) emptiedEvents containers ∧
      (containers 0).Represents [⟨[3, 4, 5], by decide⟩] := by
  have made : ∀ key ∈ [(⟨[1], by decide⟩ : Dbt), ⟨[2], by decide⟩], 0 < key.size := by decide
  have run : Runs PivotKeysEvent.Step (fun _ => []) emptiedEvents _ :=
    .next (.next (.next (.next .start ⟨made, rfl⟩) ⟨Nat.zero_lt_two, rfl⟩) ⟨Nat.one_pos, rfl⟩)
      ⟨⟨Nat.zero_lt_succ 2, Nat.zero_le _⟩, rfl⟩
  obtain ⟨containers, done, all⟩ := pivotKeys_exact ⟨true, false, true⟩ run
  exact ⟨containers, done, (all 0).1⟩

end Tokuft
