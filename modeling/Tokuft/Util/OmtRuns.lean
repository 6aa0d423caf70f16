import Tokuft.Library.Runs
import Tokuft.Util.OmtExact

/-! Whatever is done to sequences, they behave like plain lists. -/

namespace Tokuft

variable {α σ : Type} {supportsMarks : Bool} {omt : Omt α} {list : List α}

namespace Omt

/-- Searching a sequence for a zero finds what a search of its list finds. -/
theorem findZero_eq (holds : omt.Holds supportsMarks list) {h : α → Int}
    (rise : SignsRise h list) : omt.findZero h = some (linearZero h list) := by
  -- One case for an array and one for a tree.
  cases holds.contains with
  | array array =>
    have held := held_array array
    obtain ⟨_, _, _, _, rfl, _⟩ := array
    exact findZeroArray_eq held rise
  | tree ok _ same =>
    subst same
    simp only [findZero, WeightTree.findZero_eq ok.weighted ((signsRise_map _ _ _).mp rise),
      linearZero_map]

/-- A sequence has the values of a list, whatever is marked. -/
inductive HasValues : Omt α → List α → Prop where
  | array {capacity startIdx numValues : Nat} {values : List (Option α)} {list : List α}
      (holds : ArrayHolds capacity startIdx numValues values list) :
      HasValues ⟨capacity, .array startIdx numValues values⟩ list
  | tree {capacity freeIdx : Nat} {root : WeightTree (OmtNode α)} {list : List α}
      (ok : OmtTreeOk capacity freeIdx root) (holds : root.toList.map OmtNode.value = list) :
      HasValues ⟨capacity, .tree freeIdx root⟩ list

/-- A sequence that holds a list has its values. -/
theorem Holds.hasValues (holds : omt.Holds supportsMarks list) : omt.HasValues list := by
  cases holds.contains with
  | array array => exact .array array
  | tree ok _ same => exact .tree ok same

/-- The size is the number of the values. -/
theorem HasValues.size (has : omt.HasValues list) : omt.size = list.length := by
  cases has with
  | array array =>
    obtain ⟨_, _, _, _, count, _⟩ := array
    exact count.symm
  | tree ok same =>
    rw [← same, List.length_map, ok.weighted.length]
    rfl

/-- Searching a sequence in a direction finds what a search of its values finds. -/
theorem HasValues.find_eq (has : omt.HasValues list) {h : α → Int} {direction : Int}
    (rise : SignsRise h list) (directed : direction ≠ 0) :
    omt.find h direction =
      some (if direction < 0 then linearMinus h list else linearPlus h list) := by
  simp only [find, invariant_of directed, bind_runs]
  cases has with
  | array array =>
    have held := held_array array
    obtain ⟨_, _, _, _, rfl, _⟩ := array
    simp only [findMinusArray_eq held rise, findPlusArray_eq held rise]
    split <;> rfl
  | tree ok same =>
    -- The search reads weights and values only, so marks do not matter.
    subst same
    have rise' := (signsRise_map _ _ _).mp rise
    simp only [WeightTree.findMinus_eq ok.weighted rise', WeightTree.findPlus_eq ok.weighted rise',
      linearMinus_map, linearPlus_map]
    split <;> rfl

/-- Searching a sequence in a direction finds what a search of its list finds. -/
theorem find_eq (holds : omt.Holds supportsMarks list) {h : α → Int} {direction : Int}
    (rise : SignsRise h list) (directed : direction ≠ 0) :
    omt.find h direction = some (if direction < 0 then linearMinus h list else linearPlus h list) :=
  holds.hasValues.find_eq rise directed

end Omt

/-- Insert a value into a list where a comparison has its zero, if none is there. -/
def listInsert (h : α → Int) (list : List α) (value : α) : OmtCode × Nat × List α :=
  match linearZero h list with
  | (some _, idx) => (.keyexist, idx, list)
  | (none, idx) => (.ok, idx, list.insertIdx idx value)

/-- Inserting by a comparison inserts into the list. -/
theorem Omt.insert_eq (holds : omt.Holds supportsMarks list) {h : α → Int}
    (rise : SignsRise h list) (value : α) :
    ∃ after, omt.insert supportsMarks h value =
        some ((listInsert h list value).1, (listInsert h list value).2.1, after) ∧
      after.Holds supportsMarks (listInsert h list value).2.2 := by
  have found := findZero_eq holds rise
  cases zero : linearZero h list with
  | mk first idx =>
    simp only [insert, found, zero, listInsert, bind_runs]
    cases first with
    | some _ => exact ⟨omt, rfl, holds⟩
    | none =>
      -- The place where the value would be is no place behind the end.
      have inside : idx ≤ list.length := by
        have place : idx = list.findIdx fun v => decide (0 ≤ h v) := (congrArg Prod.snd zero).symm
        rw [place]
        exact List.findIdx_le_length
      obtain ⟨after, inserted, holdsAfter⟩ := insertAt_eq holds value idx
      rw [if_pos inside] at inserted holdsAfter
      exact ⟨after, by simp only [inserted, Option.bind_some], holdsAfter⟩

/-- A comparison of values with a key has the signs of the order of keys. -/
def Compares {κ : Type} [LinearOrder κ] (h : α → Int) (key : α → κ) (wanted : κ) : Prop :=
  ∀ v, (h v < 0 ↔ key v < wanted) ∧ (0 < h v ↔ wanted < key v)

section

variable {κ : Type} [LinearOrder κ] {h : α → Int} {key : α → κ}

/-- Along a list that is sorted by a key the signs of a comparison do not fall. -/
theorem Compares.rise {wanted : κ} (compares : Compares h key wanted)
    (sorted : list.Pairwise fun a b => key a < key b) :
    SignsRise h list := by
  -- A value behind another one is greater than what the other is greater than.
  refine sorted.imp fun {a b} less => ?_
  rcases lt_trichotomy (h a) 0 with negative | zero | positive
  · rw [Int.sign_eq_neg_one_of_neg negative]
    rcases Int.sign_trichotomy (h b) with one | none | minus <;> omega
  · have notLess : ¬ h b < 0 := fun below => by
      have under := less.trans ((compares b).1.mp below)
      exact absurd ((compares a).1.mpr under) (by omega)
    rw [zero, Int.sign_zero]
    exact Int.sign_nonneg_iff.mpr (by omega)
  · have above : 0 < h b := (compares b).2.mpr (((compares a).2.mp positive).trans less)
    rw [Int.sign_eq_one_of_pos positive, Int.sign_eq_one_of_pos above]

/-- Inserting into a sorted list by its order keeps it sorted, and is refused exactly when there is
an equal value. -/
theorem listInsert_sorted {value : α} (compares : Compares h key (key value))
    (sorted : list.Pairwise fun a b => key a < key b) :
    (listInsert h list value).2.2.Pairwise (fun a b => key a < key b) ∧
      ((listInsert h list value).1 = .keyexist ↔ ∃ v ∈ list, key v = key value) := by
  have rise := compares.rise sorted
  have equal {v : α} : h v = 0 ↔ key v = key value := by
    have below := (compares v).1
    have above := (compares v).2
    constructor
    · intro zero
      exact le_antisymm (not_lt.mp fun larger => by have := above.mpr larger; omega)
        (not_lt.mp fun smaller => by have := below.mpr smaller; omega)
    · intro same
      have notBelow : ¬ h v < 0 := fun negative => lt_irrefl _ (same ▸ below.mp negative)
      have notAbove : ¬ 0 < h v := fun positive => lt_irrefl _ (same ▸ above.mp positive)
      omega
  have place {i : Nat} (inside : i < list.length) := rise.notNegative.getElem_iff inside
  generalize first : list.findIdx (fun v => decide (0 ≤ h v)) = idx at place
  have zero : linearZero h list = (list[idx]?.filter fun v => decide (h v = 0), idx) := by
    rw [← first]
    rfl
  cases found : list[idx]?.filter fun v => decide (h v = 0) with
  | some v =>
    obtain ⟨here, isZero⟩ := Option.filter_eq_some_iff.mp found
    simp only [listInsert, zero, found]
    exact ⟨sorted, fun _ => ⟨v, List.mem_of_getElem? here, equal.mp (of_decide_eq_true isZero)⟩,
      fun _ => trivial⟩
  | none =>
    simp only [listInsert, zero, found]
    -- The values before the place are smaller, and those from there on are larger.
    have apart {i : Nat} (inside : i < list.length) : key list[i] ≠ key value := by
      intro same
      have isZero : h list[i] = 0 := equal.mpr same
      have reached : idx ≤ i := (place inside).mp (decide_eq_true (by omega))
      rcases Nat.lt_or_eq_of_le reached with later | rfl
      · have within : idx < list.length := by omega
        have less := List.pairwise_iff_getElem.mp sorted idx i within inside later
        have negative := (compares list[idx]).1.mpr (lt_of_lt_of_eq less same)
        have := of_decide_eq_true ((place within).mpr (Nat.le_refl _))
        omega
      · rw [List.getElem?_eq_getElem inside] at found
        simp [Option.filter, isZero] at found
    refine ⟨?_, nofun, ?_⟩
    · have bound : idx ≤ list.length := by
        rw [← first]
        exact List.findIdx_le_length
      have parts : list.insertIdx idx value = list.take idx ++ value :: list.drop idx := by
        conv => lhs; rw [← List.take_append_drop idx list]
        rw [insertIdx_append_right value (List.length_take_le _ _), List.length_take_of_le bound,
          Nat.sub_self]
        rfl
      have smaller : ∀ v ∈ list.take idx, key v < key value := by
        intro v member
        obtain ⟨i, inside, rfl⟩ := List.mem_take_iff_getElem.mp member
        refine (compares _).1.mp (Int.not_le.mp fun notNegative => ?_)
        have := (place (by omega)).mp (decide_eq_true notNegative)
        omega
      have larger : ∀ v ∈ list.drop idx, key value < key v := by
        intro v member
        obtain ⟨i, inside, rfl⟩ := List.mem_drop_iff_getElem.mp member
        have within : idx + i < list.length := by omega
        have notNegative := of_decide_eq_true ((place within).mpr (Nat.le_add_right _ _))
        refine lt_of_le_of_ne (not_lt.mp fun less => ?_) (apart within).symm
        have := (compares _).1.mpr less
        omega
      rw [parts]
      refine List.pairwise_append.mpr ⟨sorted.sublist (List.take_sublist _ _),
        List.pairwise_cons.mpr ⟨larger, sorted.sublist (List.drop_sublist _ _)⟩, ?_⟩
      intro v before other behind
      rcases List.mem_cons.mp behind with rfl | behind
      · exact smaller v before
      · exact (smaller v before).trans (larger other behind)
    · rintro ⟨v, member, same⟩
      obtain ⟨i, inside, rfl⟩ := List.mem_iff_getElem.mp member
      exact absurd same (apart inside)

end

/-- What is done to sequences that have numbers for names. -/
inductive OmtOp (α σ : Type) where
  | create (omt : Nat)
  | createNoArray (omt : Nat)
  | createFromSortedArray (omt : Nat) (values : List α)
  | insert (omt : Nat) (h : α → Int) (value : α)
  | insertAt (omt : Nat) (value : α) (idx : Nat)
  | setAt (omt : Nat) (value : α) (idx : Nat)
  | deleteAt (omt idx : Nat)
  | splitAt (omt newomt idx : Nat)
  | merge (omt leftomt rightomt : Nat)
  | clone (omt src : Nat)
  | size (omt : Nat)
  | fetch (omt idx : Nat)
  | iterateOnRange (omt : Nat) (f : α → Nat → σ → Int × σ) (left right : Nat) (extra : σ)
  | findZero (omt : Nat) (h : α → Int)
  | find (omt : Nat) (h : α → Int) (direction : Int)

/-- What is returned by an operation. -/
inductive OmtResult (α σ : Type) where
  | done (r : OmtCode)
  | inserted (r : OmtCode) (idx : Nat)
  | size (n : Nat)
  | fetched (r : OmtCode) (value : Option α)
  | iterated (r : OmtCode) (stopped : Int) (extra : σ)
  | zero (found : Option α) (idx : Nat)
  | found (entry : Option (α × Nat))

instance (h : α → Int) (values : List α) : Decidable (SignsRise h values) :=
  inferInstanceAs (Decidable (values.Pairwise _))

/-- Things with numbers for names. -/
abbrev Named (Thing : Type) : Type := Nat → Option Thing

/-- One operation on sequences. -/
def OmtOp.step (supportsMarks : Bool) (world : Named (Omt α)) :
    OmtOp α σ → Option (OmtResult α σ × Named (Omt α))
  | .create name => do
    let after ← Omt.create supportsMarks
    return (.done .ok, Function.update world name (some after))
  | .createNoArray name =>
    some (.done .ok, Function.update world name (some (Omt.createNoArray supportsMarks)))
  | .createFromSortedArray name values => do
    let after ← Omt.createFromSortedArray supportsMarks (values.map some)
    return (.done .ok, Function.update world name (some after))
  | .insert name h value => do
    let (r, idx, after) ← (← world name).insert supportsMarks h value
    return (.inserted r idx, Function.update world name (some after))
  | .insertAt name value idx => do
    let (r, after) ← (← world name).insertAt supportsMarks value idx
    return (.done r, Function.update world name (some after))
  | .setAt name value idx => do
    let (r, after) ← (← world name).setAt supportsMarks value idx
    return (.done r, Function.update world name (some after))
  | .deleteAt name idx => do
    let (r, after) ← (← world name).deleteAt supportsMarks idx
    return (.done r, Function.update world name (some after))
  | .splitAt name newname idx => do
    let (r, after, other) ← (← world name).splitAt supportsMarks idx
    let world := Function.update world name (some after)
    return (.done r, match other with
      | some other => Function.update world newname (some other)
      | none => world)
  | .merge name leftname rightname => do
    let after ← Omt.merge supportsMarks (← world leftname) (← world rightname)
    let world := Function.update (Function.update world leftname none) rightname none
    return (.done .ok, Function.update world name (some after))
  | .clone name src => do
    let after ← Omt.clone supportsMarks (← world src)
    return (.done .ok, Function.update world name (some after))
  | .size name => do
    return (.size (← world name).size, world)
  | .fetch name idx => do
    let (r, value) ← (← world name).fetch idx
    return (.fetched r value, world)
  | .iterateOnRange name f left right extra => do
    let (r, stopped, extra) ← (← world name).iterateOnRange f left right extra
    return (.iterated r stopped extra, world)
  | .findZero name h => do
    let (found, idx) ← (← world name).findZero h
    return (.zero found idx, world)
  | .find name h direction => do
    return (.found (← (← world name).find h direction), world)

/-- One operation on plain lists. A search is only allowed when signs do not fall, a merge only of
different lists, and a split only into another one. -/
def OmtOp.stepList (world : Named (List α)) :
    OmtOp α σ → Option (OmtResult α σ × Named (List α))
  | .create name | .createNoArray name =>
    some (.done .ok, Function.update world name (some []))
  | .createFromSortedArray name values =>
    some (.done .ok, Function.update world name (some values))
  | .insert name h value => do
    let list ← world name
    invariant (SignsRise h list)
    let inserted := listInsert h list value
    return (.inserted inserted.1 inserted.2.1, Function.update world name (some inserted.2.2))
  | .insertAt name value idx => do
    let list ← world name
    return (.done (if idx ≤ list.length then .ok else .einval), Function.update world name
      (some (if idx ≤ list.length then list.insertIdx idx value else list)))
  | .setAt name value idx => do
    let list ← world name
    return (.done (if idx < list.length then .ok else .einval),
      Function.update world name (some (list.set idx value)))
  | .deleteAt name idx => do
    let list ← world name
    return (.done (if idx < list.length then .ok else .einval),
      Function.update world name (some (list.eraseIdx idx)))
  | .splitAt name newname idx => do
    let list ← world name
    invariant (name ≠ newname)
    return (.done (if idx ≤ list.length then .ok else .einval),
      if idx ≤ list.length then
        Function.update (Function.update world name (some (list.take idx))) newname
          (some (list.drop idx))
      else world)
  | .merge name leftname rightname => do
    let left ← world leftname
    let right ← world rightname
    invariant (leftname ≠ rightname)
    let world := Function.update (Function.update world leftname none) rightname none
    return (.done .ok, Function.update world name (some (left ++ right)))
  | .clone name src => do
    return (.done .ok, Function.update world name (some (← world src)))
  | .size name => do
    return (.size (← world name).length, world)
  | .fetch name idx => do
    let list ← world name
    return (.fetched (if idx < list.length then .ok else .einval) list[idx]?, world)
  | .iterateOnRange name f left right extra => do
    let list ← world name
    if right ≤ list.length then
      let (stopped, extra) := WeightTree.visit f (WeightTree.inRange left right list 0) extra
      return (.iterated .ok stopped extra, world)
    else return (.iterated .einval 0 extra, world)
  | .findZero name h => do
    let list ← world name
    invariant (SignsRise h list)
    return (.zero (linearZero h list).1 (linearZero h list).2, world)
  | .find name h direction => do
    let list ← world name
    invariant (SignsRise h list)
    invariant (direction ≠ 0)
    return (.found (if direction < 0 then linearMinus h list else linearPlus h list), world)

/-- Sequences have the names of lists, and hold them. -/
def Match (supportsMarks : Bool) (world : Named (Omt α)) (lists : Named (List α)) : Prop :=
  ∀ name, match lists name with
    | some list => ∃ omt, world name = some omt ∧ omt.Holds supportsMarks list
    | none => world name = none

section Match

variable {world : Named (Omt α)} {lists : Named (List α)}

section

variable (same : Match supportsMarks world lists)
include same

/-- A list has a sequence that holds it. -/
theorem Match.get {name : Nat} (found : lists name = some list) :
    ∃ omt, world name = some omt ∧ omt.Holds supportsMarks list := by
  have entry := same name
  rwa [found] at entry

/-- A name can be given to a sequence and its list. -/
theorem Match.update (name : Nat) (holds : omt.Holds supportsMarks list) :
    Match supportsMarks (Function.update world name (some omt))
      (Function.update lists name (some list)) := by
  -- Other names mean what they meant.
  intro other
  by_cases here : other = name
  · subst here
    rw [Function.update_self, Function.update_self]
    exact ⟨omt, rfl, holds⟩
  · rw [Function.update_of_ne here, Function.update_of_ne here]
    exact same other

/-- A name can be taken from a sequence and its list. -/
theorem Match.remove (name : Nat) :
    Match supportsMarks (Function.update world name none) (Function.update lists name none) := by
  intro other
  by_cases here : other = name
  · subst here
    rw [Function.update_self, Function.update_self]
  · rw [Function.update_of_ne here, Function.update_of_ne here]
    exact same other

end

/-- A name can be given again to a sequence that has it. -/
theorem update_again {Thing : Type} {world : Named Thing} {name : Nat} {thing : Thing}
    (found : world name = some thing) : Function.update world name (some thing) = world := by
  rw [← found, Function.update_eq_self]

end Match

/-- What an operation does to lists it does to the sequences that hold them. -/
theorem OmtOp.step_refines (op : OmtOp α σ) {world : Named (Omt α)} {lists after : Named (List α)}
    {result : OmtResult α σ} (same : Match supportsMarks world lists)
    (taken : op.stepList lists = some (result, after)) :
    ∃ world', op.step supportsMarks world = some (result, world') ∧
      Match supportsMarks world' after := by
  -- One case for each operation, by its law.
  cases op with
  | create name =>
    cases taken
    obtain ⟨omt, created, holds⟩ := Omt.create_eq (α := α) supportsMarks
    refine ⟨Function.update world name (some omt), ?_, same.update name holds⟩
    simp only [step, created, bind_runs]
  | createNoArray name =>
    cases taken
    exact ⟨_, rfl, same.update name (Omt.createNoArray_holds supportsMarks)⟩
  | createFromSortedArray name values =>
    cases taken
    obtain ⟨omt, created, holds⟩ := Omt.createFromSortedArray_eq supportsMarks values
    refine ⟨Function.update world name (some omt), ?_, same.update name holds⟩
    simp only [step, created, bind_runs]
  | insert name h value =>
    obtain ⟨list, found, taken⟩ := of_bind taken
    obtain ⟨_, rise, taken⟩ := of_bind taken
    cases taken
    obtain ⟨omt, named, holds⟩ := same.get found
    obtain ⟨omt', inserted, holds'⟩ := Omt.insert_eq holds (invariant_eq_some.mp rise) value
    refine ⟨Function.update world name (some omt'), ?_, same.update name holds'⟩
    simp only [step, named, inserted, bind_runs]
  | insertAt name value idx =>
    obtain ⟨list, found, taken⟩ := of_bind taken
    cases taken
    obtain ⟨omt, named, holds⟩ := same.get found
    obtain ⟨omt', inserted, holds'⟩ := Omt.insertAt_eq holds value idx
    refine ⟨Function.update world name (some omt'), ?_, same.update name holds'⟩
    simp only [step, named, inserted, bind_runs]
  | setAt name value idx =>
    obtain ⟨list, found, taken⟩ := of_bind taken
    cases taken
    obtain ⟨omt, named, holds⟩ := same.get found
    obtain ⟨omt', changed, holds'⟩ := Omt.setAt_eq holds value idx
    refine ⟨Function.update world name (some omt'), ?_, same.update name holds'⟩
    simp only [step, named, changed, bind_runs]
  | deleteAt name idx =>
    obtain ⟨list, found, taken⟩ := of_bind taken
    cases taken
    obtain ⟨omt, named, holds⟩ := same.get found
    obtain ⟨omt', deleted, holds'⟩ := Omt.deleteAt_eq holds idx
    refine ⟨Function.update world name (some omt'), ?_, same.update name holds'⟩
    simp only [step, named, deleted, bind_runs]
  | splitAt name newname idx =>
    obtain ⟨list, found, taken⟩ := of_bind taken
    obtain ⟨_, different, taken⟩ := of_bind taken
    cases taken
    obtain ⟨omt, named, holds⟩ := same.get found
    have divided := Omt.splitAt_eq holds idx
    split at divided
    case isTrue inside =>
      obtain ⟨omt', other, divided, holds', holdsOther⟩ := divided
      refine ⟨Function.update (Function.update world name (some omt')) newname (some other), ?_, ?_⟩
      · simp only [step, named, divided, if_pos inside, bind_runs]
      · rw [if_pos inside]
        exact (same.update name holds').update newname holdsOther
    case isFalse outside =>
      refine ⟨world, ?_, ?_⟩
      · simp only [step, named, divided, if_neg outside, bind_runs, update_again named]
      · rwa [if_neg outside]
  | merge name leftname rightname =>
    obtain ⟨left, foundLeft, taken⟩ := of_bind taken
    obtain ⟨right, foundRight, taken⟩ := of_bind taken
    obtain ⟨_, different, taken⟩ := of_bind taken
    cases taken
    obtain ⟨one, namedLeft, holdsLeft⟩ := same.get foundLeft
    obtain ⟨two, namedRight, holdsRight⟩ := same.get foundRight
    obtain ⟨omt', merged, holds'⟩ := Omt.merge_eq holdsLeft holdsRight
    refine ⟨_, ?_, ((same.remove leftname).remove rightname).update name holds'⟩
    simp only [step, namedLeft, namedRight, merged, bind_runs]
  | clone name src =>
    obtain ⟨list, found, taken⟩ := of_bind taken
    cases taken
    obtain ⟨omt, named, holds⟩ := same.get found
    obtain ⟨omt', cloned, holds'⟩ := Omt.clone_eq holds
    refine ⟨Function.update world name (some omt'), ?_, ?_⟩
    · simp only [step, named, cloned, bind_runs]
    · exact same.update name holds'
  | size name =>
    obtain ⟨list, found, taken⟩ := of_bind taken
    cases taken
    obtain ⟨omt, named, holds⟩ := same.get found
    refine ⟨world, ?_, same⟩
    simp only [step, named, holds.contains.size, bind_runs]
  | fetch name idx =>
    obtain ⟨list, found, taken⟩ := of_bind taken
    cases taken
    obtain ⟨omt, named, holds⟩ := same.get found
    refine ⟨world, ?_, same⟩
    simp only [step, named, Omt.fetch_eq holds, bind_runs]
  | iterateOnRange name f left right extra =>
    obtain ⟨list, found, taken⟩ := of_bind taken
    obtain ⟨omt, named, holds⟩ := same.get found
    have visited := Omt.iterateOnRange_eq holds f left right extra
    split at taken
    case isTrue inside =>
      cases taken
      refine ⟨world, ?_, same⟩
      simp only [step, named, visited, if_pos inside, bind_runs]
    case isFalse outside =>
      cases taken
      refine ⟨world, ?_, same⟩
      simp only [step, named, visited, if_neg outside, bind_runs]
  | findZero name h =>
    obtain ⟨list, found, taken⟩ := of_bind taken
    obtain ⟨_, rise, taken⟩ := of_bind taken
    cases taken
    obtain ⟨omt, named, holds⟩ := same.get found
    refine ⟨world, ?_, same⟩
    simp only [step, named, Omt.findZero_eq holds (invariant_eq_some.mp rise), bind_runs]
  | find name h direction =>
    obtain ⟨list, found, taken⟩ := of_bind taken
    obtain ⟨_, rise, taken⟩ := of_bind taken
    obtain ⟨_, directed, taken⟩ := of_bind taken
    cases taken
    obtain ⟨omt, named, holds⟩ := same.get found
    refine ⟨world, ?_, same⟩
    simp only [step, named,
      Omt.find_eq holds (invariant_eq_some.mp rise) (invariant_eq_some.mp directed), bind_runs]

/-- Whatever is done to sequences and allowed for lists returns the same for both, and leads to
sequences that hold the lists. Inserting into a list that is sorted by a key keeps it sorted, and is
refused exactly when there is an equal value. -/
theorem omt_refines_lists (supportsMarks : Bool) :
    (∀ (ops : List (OmtOp α σ)) {results : List (OmtResult α σ)} {lists : Named (List α)},
      runOps OmtOp.stepList (fun _ => none) ops = some (results, lists) →
      ∃ world, runOps (OmtOp.step supportsMarks) (fun _ => none) ops = some (results, world) ∧
        Match supportsMarks world lists) ∧
    ∀ {κ : Type} [LinearOrder κ] (key : α → κ) (h : α → Int) (omt : Omt α) (list : List α)
      (value : α), omt.Holds supportsMarks list → list.Pairwise (fun a b => key a < key b) →
      Compares h key (key value) → ∃ r idx after sorted,
        omt.insert supportsMarks h value = some (r, idx, after) ∧
        after.Holds supportsMarks sorted ∧ sorted.Pairwise (fun a b => key a < key b) ∧
        (r = .keyexist ↔ ∃ v ∈ list, key v = key value) := by
  constructor
  · intro ops results lists taken
    exact runOps_refines (fun same first => OmtOp.step_refines _ same first) ops
      (fun _ => rfl) taken
  · intro κ _ key h omt list value holds sorted compares
    obtain ⟨after, inserted, holdsAfter⟩ := Omt.insert_eq holds (compares.rise sorted) value
    obtain ⟨kept, refused⟩ := listInsert_sorted compares sorted
    exact ⟨_, _, after, _, inserted, holdsAfter, kept, refused⟩

/-- A sequence of numbers is made, gets a number in its middle, loses its first one and is read. -/
theorem omt_refines_lists_numbers :
    (∃ world lists, runOps (OmtOp.step (σ := Unit) false) (fun _ => none)
        [.createFromSortedArray 0 [1, 3], .insert 0 (fun v : Nat => (v : Int) - 2) 2,
          .deleteAt 0 0, .fetch 0 0] =
        some ([.done .ok, .inserted .ok 1, .done .ok, .fetched .ok (some 2)], world) ∧
      Match false world lists ∧ lists 0 = some [2, 3]) ∧
    ∃ r idx after sorted,
      Omt.insert false (fun v : Nat => (v : Int) - 2) ⟨1, .array 0 1 [some 1]⟩ 2 =
        some (r, idx, after) ∧ after.Holds false sorted ∧
      sorted.Pairwise (fun a b => a < b) ∧ (r = .keyexist ↔ ∃ v ∈ [1], v = 2) := by
  constructor
  · obtain ⟨world, run, same⟩ := (omt_refines_lists (σ := Unit) false).1
      [.createFromSortedArray 0 [1, 3], .insert 0 (fun v : Nat => (v : Int) - 2) 2,
        .deleteAt 0 0, .fetch 0 0] rfl
    exact ⟨world, _, run, same, rfl⟩
  · exact (omt_refines_lists (σ := Unit) false).2 (fun v : Nat => v) (fun v => (v : Int) - 2)
      ⟨1, .array 0 1 [some 1]⟩ [1] 2 ⟨.array ⟨[], [], rfl, rfl, rfl, rfl⟩, nofun⟩
      (List.pairwise_singleton _ _) fun v => by simp only; omega

end Tokuft
