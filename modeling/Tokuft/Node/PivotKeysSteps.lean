import Tokuft.Node.PivotKeysLaws

/-! Every operation on pivot keys does to the keys that are held what it says. -/

namespace Tokuft

namespace PivotKeys

variable {pivotkeys other : PivotKeys} {block : Bytes} {keys otherKeys : List Dbt} {key : Dbt}
  {i : Nat}

/-- A block of at least a cell is there after its size was changed. -/
theorem Fixed.reallocated (zero : ZeroSized) {changed : Bytes} {n : Nat} (some : 0 < n)
    (fixed : pivotkeys.Fixed block keys)
    (long : n * pivotkeys.fixedKeylenAligned ≤ changed.length) :
    allocated zero.realloc changed = .some changed := by
  apply allocated_of_ne
  rintro rfl
  have positive := fixed.positive
  have aligned := fixed.le_aligned
  have product := Nat.mul_pos some (Nat.lt_of_lt_of_le positive aligned)
  rw [List.length_nil] at long
  omega

/-- The size of what is held is what is kept. -/
theorem Holds.checkedTotalSize (holds : pivotkeys.Holds keys) (some : keys ≠ []) :
    ∃ totalSize, pivotkeys.checkedTotalSize = .some totalSize ∧ 0 < totalSize := by
  -- A packed array has its length times the number of keys, which is checked.
  refine ⟨pivotkeys.totalSize, ?_, ?_⟩
  · have consistent : pivotkeys.fixedKeys = none ∨
        pivotkeys.totalSize = pivotkeys.fixedKeylenAligned * pivotkeys.numPivots := by
      rcases holds with ⟨block, fixed⟩ | boxed
      · exact .inr (fixed.totalSize.trans (Nat.mul_comm _ _))
      · exact .inl boxed.fixedKeys
    simp only [PivotKeys.checkedTotalSize, invariant_of consistent, bind_runs]
  · obtain ⟨first, rest, rfl⟩ := List.exists_cons_of_ne_nil some
    have positive := holds.positive first List.mem_cons_self
    rcases holds with ⟨block, fixed⟩ | boxed
    · have aligned := fixed.le_aligned
      have keylen := fixed.positive
      rw [fixed.totalSize, fixed.numPivots]
      exact Nat.mul_pos (Nat.succ_pos _) (by omega)
    · rw [boxed.totalSize, List.map_cons, List.sum_cons]
      omega

section

variable (zero : ZeroSized)
include zero

/-- Inserting a key of the right length into a packed array. -/
theorem Fixed.insertAtFixed (fixed : pivotkeys.Fixed block keys)
    (size : key.size = pivotkeys.fixedKeylen) (inRange : i ≤ keys.length) :
    Holds { pivotkeys.insertAtFixed zero block key i with numPivots := pivotkeys.numPivots + 1 }
      (keys.insertIdx i key) := by
  -- The keys behind the place move up by one, and the array stays packed.
  have data : key.data.take pivotkeys.fixedKeylen = key.data :=
    List.take_of_length_le (Nat.le_of_eq size)
  have length : key.data.length = pivotkeys.fixedKeylen := size
  have aligned := fixed.le_aligned
  have roomy := fixed.roomy
  rw [fixed.totalSize, fixed.numPivots] at roomy
  unfold PivotKeys.insertAtFixed
  rw [fixed.numPivots]
  dsimp only
  generalize grown : resize 0 block ((keys.length + 1) * pivotkeys.fixedKeylenAligned) = larger
  have grownLength : larger.length = (keys.length + 1) * pivotkeys.fixedKeylenAligned :=
    grown ▸ length_resize _ _ _
  have rest : (keys.length - i) * pivotkeys.fixedKeylenAligned + i * pivotkeys.fixedKeylenAligned =
      keys.length * pivotkeys.fixedKeylenAligned := by
    rw [← Nat.add_mul, Nat.sub_add_cancel inRange]
  have next := Nat.add_one_mul i pivotkeys.fixedKeylenAligned
  have last := Nat.add_one_mul keys.length pivotkeys.fixedKeylenAligned
  have source : i * pivotkeys.fixedKeylenAligned +
      (keys.length - i) * pivotkeys.fixedKeylenAligned ≤ larger.length := by omega
  have target : (i + 1) * pivotkeys.fixedKeylenAligned +
      (keys.length - i) * pivotkeys.fixedKeylenAligned ≤ larger.length := by omega
  have movedLength := length_memmove source target
  have inside : i * pivotkeys.fixedKeylenAligned + key.data.length ≤
      (memmove larger ((i + 1) * pivotkeys.fixedKeylenAligned)
        (i * pivotkeys.fixedKeylenAligned)
        ((keys.length - i) * pivotkeys.fixedKeylenAligned)).length := by
    omega
  rw [data, fixed.reallocated zero (Nat.succ_pos keys.length)
    (Nat.le_of_eq (by rw [length_memcpy inside, movedLength, grownLength]))]
  refine .inl ⟨_, rfl, fixed.dbtKeys, fixed.aligned, fixed.positive, fixed.fits, ?_, ?_, ?_, ?_, ?_⟩
  · rw [List.length_insertIdx_of_le_length inRange]
  · show pivotkeys.totalSize + _ = (keys.length + 1) * pivotkeys.fixedKeylenAligned
    rw [fixed.totalSize, fixed.numPivots, Nat.add_one_mul]
  · refine Nat.le_of_eq ?_
    rw [length_memcpy inside, movedLength, grownLength, fixed.totalSize, fixed.numPivots, last]
  · intro held member
    rcases (List.mem_insertIdx inRange).mp member with rfl | old
    · exact size
    · exact fixed.sizes held old
  · intro j held there
    show peek _ (j * pivotkeys.fixedKeylenAligned) pivotkeys.fixedKeylen = held.data
    rw [List.getElem?_insertIdx] at there
    split at there
    · rename_i before
      have slot := slot_le pivotkeys.fixedKeylenAligned before
      have whole := Nat.mul_le_mul_right pivotkeys.fixedKeylenAligned inRange
      rw [peek_memcpy_beside inside (.inl (by omega)),
        peek_memmove_beside source target (.inl (by omega)), ← grown,
        peek_resize 0 (by omega) (by omega)]
      exact fixed.packed j held there
    · split at there
      · rename_i same
        subst same
        rw [if_pos inRange] at there
        cases there
        rw [← length, peek_memcpy_self inside]
      · have after : i + 1 ≤ j := by omega
        obtain ⟨k, rfl⟩ : ∃ k, j = k + 1 := ⟨j - 1, by omega⟩
        rw [Nat.add_sub_cancel] at there
        have slot := slot_le pivotkeys.fixedKeylenAligned (List.getElem?_eq_some_iff.mp there).1
        have begins := Nat.mul_le_mul_right pivotkeys.fixedKeylenAligned after
        have shift := Nat.add_one_mul k pivotkeys.fixedKeylenAligned
        have old : i * pivotkeys.fixedKeylenAligned +
            ((k + 1) * pivotkeys.fixedKeylenAligned - (i + 1) * pivotkeys.fixedKeylenAligned) =
            k * pivotkeys.fixedKeylenAligned := by
          omega
        rw [peek_memcpy_beside inside (.inr (by omega)),
          peek_memmove_inside source target begins (by omega), old, ← grown,
          peek_resize 0 (by omega) (by omega)]
        exact fixed.packed k held there

/-- Inserting a key into an array of keys. -/
theorem Boxed.insertAtDbt (boxed : pivotkeys.Boxed keys) (positive : 0 < key.size)
    (inRange : i ≤ keys.length) :
    Boxed { pivotkeys.insertAtDbt zero key i with numPivots := pivotkeys.numPivots + 1 }
      (keys.insertIdx i key) where
  fixedKeys := boxed.fixedKeys
  dbtKeys := (allocated_getD _ _).trans (by rw [boxed.dbtKeys])
  numPivots := by rw [List.length_insertIdx_of_le_length inRange, boxed.numPivots]
  totalSize := by
    have perm := ((List.perm_insertIdx key keys inRange).map Dbt.size).sum_nat
    rw [perm, List.map_cons, List.sum_cons, ← boxed.totalSize]
    exact Nat.add_comm _ _
  positive := by
    intro held member
    rcases (List.mem_insertIdx inRange).mp member with rfl | old
    · exact positive
    · exact boxed.positive held old

/-- Inserting a key, in either format. -/
theorem Holds.insertAt (holds : pivotkeys.Holds keys) (positive : 0 < key.size)
    (inRange : i ≤ keys.length) :
    ∃ inserted, pivotkeys.insertAt zero key i = some inserted ∧
      inserted.Holds (keys.insertIdx i key) := by
  -- A key of another length unpacks the array first.
  have within : i ≤ pivotkeys.numPivots := holds.numPivots ▸ inRange
  have some : keys.insertIdx i key ≠ [] := by
    rw [← List.length_pos_iff, List.length_insertIdx_of_le_length inRange]
    exact Nat.succ_pos _
  have finish {inserted : PivotKeys} (insertedHolds : inserted.Holds (keys.insertIdx i key)) :
      (do let totalSize ← inserted.checkedTotalSize
          invariant (0 < totalSize)
          return inserted) = .some inserted := by
    obtain ⟨totalSize, checked, large⟩ := insertedHolds.checkedTotalSize some
    simp only [checked, invariant_of large, bind_runs]
  rcases holds with ⟨block, fixed⟩ | boxed
  · by_cases size : key.size = pivotkeys.fixedKeylen
    · have stays : ¬(pivotkeys.fixedFormat && key.size != pivotkeys.fixedKeylen) = true := by
        simp [size]
      have inserted := fixed.insertAtFixed zero size inRange
      refine ⟨_, ?_, inserted⟩
      rw [← finish inserted]
      simp only [PivotKeys.insertAt, invariant_of within, if_neg stays, fixed.fixedKeys, bind_runs]
      rfl
    · have leaves : (pivotkeys.fixedFormat && key.size != pivotkeys.fixedKeylen) = true := by
        simp [fixedFormat, fixed.fixedKeys, size]
      obtain ⟨converted, done, boxed⟩ := fixed.convertToDbtFormat zero
      have inserted := boxed.insertAtDbt zero positive inRange
      have insertedHolds : Holds _ _ := .inr inserted
      refine ⟨_, ?_, insertedHolds⟩
      rw [← finish insertedHolds]
      simp only [PivotKeys.insertAt, invariant_of within, if_pos leaves, done, boxed.fixedKeys,
        bind_runs]
      rfl
  · have stays : ¬(pivotkeys.fixedFormat && key.size != pivotkeys.fixedKeylen) = true := by
      simp [fixedFormat, boxed.fixedKeys]
    have inserted := boxed.insertAtDbt zero positive inRange
    have insertedHolds : Holds _ _ := .inr inserted
    refine ⟨_, ?_, insertedHolds⟩
    rw [← finish insertedHolds]
    simp only [PivotKeys.insertAt, invariant_of within, if_neg stays, boxed.fixedKeys, bind_runs]
    rfl

/-- Appending a packed array to one of the same length of keys. -/
theorem Fixed.appendFixed (fixed : pivotkeys.Fixed block keys) {otherBlock : Bytes}
    (otherFixed : other.Fixed otherBlock otherKeys)
    (same : other.fixedKeylen = pivotkeys.fixedKeylen) :
    ∃ appended, pivotkeys.appendFixed zero other block = some appended ∧
      Holds { appended with numPivots := appended.numPivots + other.numPivots }
        (keys ++ otherKeys) := by
  -- The cells of both have the same width, so that they follow each other.
  have aligned := fixed.le_aligned
  have roomy := fixed.roomy
  have otherRoomy := otherFixed.roomy
  have sameAligned : other.fixedKeylenAligned = pivotkeys.fixedKeylenAligned := by
    rw [otherFixed.aligned, fixed.aligned, same]
  have otherTotal : other.totalSize = otherKeys.length * pivotkeys.fixedKeylenAligned := by
    rw [otherFixed.totalSize, otherFixed.numPivots, sameAligned]
  rw [fixed.totalSize, fixed.numPivots] at roomy
  rw [otherTotal] at otherRoomy
  simp only [PivotKeys.appendFixed, otherFixed.fixedKeys, if_pos same, fixed.numPivots,
    otherFixed.numPivots, otherTotal, Option.some.injEq, exists_eq_left']
  generalize grown : resize 0 block
    ((keys.length + otherKeys.length) * pivotkeys.fixedKeylenAligned) = larger
  generalize copied : otherBlock.take (otherKeys.length * pivotkeys.fixedKeylenAligned) = copy
  have grownLength : larger.length =
      (keys.length + otherKeys.length) * pivotkeys.fixedKeylenAligned := grown ▸ length_resize _ _ _
  have copyLength : copy.length = otherKeys.length * pivotkeys.fixedKeylenAligned := by
    rw [← copied, List.length_take, Nat.min_eq_left otherRoomy]
  have split := Nat.add_mul keys.length otherKeys.length pivotkeys.fixedKeylenAligned
  have inside : keys.length * pivotkeys.fixedKeylenAligned + copy.length ≤ larger.length := by
    omega
  have wholeLength := length_memcpy inside
  generalize whole : memcpy larger (keys.length * pivotkeys.fixedKeylenAligned) copy = result
    at wholeLength
  have totalSize : pivotkeys.totalSize + otherKeys.length * pivotkeys.fixedKeylenAligned =
      (keys.length + otherKeys.length) * pivotkeys.fixedKeylenAligned := by
    rw [fixed.totalSize, fixed.numPivots, split]
  rcases allocated_cases zero.realloc result with there | ⟨rfl, null⟩
  · rw [there]
    refine .inl ⟨result, rfl, fixed.dbtKeys, fixed.aligned, fixed.positive, fixed.fits,
      List.length_append.symm, totalSize, ?_, ?_, ?_⟩
    · exact Nat.le_of_eq (totalSize.trans (grownLength.symm.trans wholeLength.symm))
    · intro held member
      rcases List.mem_append.mp member with old | new
      · exact fixed.sizes held old
      · exact (otherFixed.sizes held new).trans same
    · intro j held there
      show peek result (j * pivotkeys.fixedKeylenAligned) pivotkeys.fixedKeylen = held.data
      rw [← whole]
      rcases Nat.lt_or_ge j keys.length with before | after
      · rw [List.getElem?_append_left before] at there
        have slot := slot_le pivotkeys.fixedKeylenAligned before
        rw [peek_memcpy_beside inside (.inl (by omega)), ← grown,
          peek_resize 0 (by omega) (by omega)]
        exact fixed.packed j held there
      · obtain ⟨k, rfl⟩ := Nat.exists_eq_add_of_le after
        rw [List.getElem?_append_right after, Nat.add_sub_cancel_left] at there
        have slot := slot_le pivotkeys.fixedKeylenAligned (List.getElem?_eq_some_iff.mp there).1
        have shift := Nat.add_mul keys.length k pivotkeys.fixedKeylenAligned
        rw [peek_memcpy_inside inside (by omega) (by omega), shift, Nat.add_sub_cancel_left,
          ← copied]
        have original := otherFixed.packed k held there
        rw [sameAligned, same] at original
        rw [← original]
        have inCopy := @peek_peek _ otherBlock 0 pivotkeys.fixedKeylen
          (k * pivotkeys.fixedKeylenAligned) (otherKeys.length * pivotkeys.fixedKeylenAligned)
          (by omega)
        rwa [Nat.zero_add] at inCopy
  · have positive := fixed.positive
    have nothing : keys.length + otherKeys.length = 0 := by
      rw [List.length_nil, grownLength] at wholeLength
      rcases Nat.mul_eq_zero.mp wholeLength.symm with none | none
      · exact none
      · omega
    have empty : keys ++ otherKeys = [] :=
      List.eq_nil_of_length_eq_zero (List.length_append.trans nothing)
    rw [null, empty, nothing]
    rw [nothing, Nat.zero_mul] at totalSize
    exact .inr ⟨rfl, by rw [fixed.dbtKeys]; rfl, rfl, totalSize, fun _ member => nomatch member⟩

/-- Appending to an array of keys. -/
theorem Boxed.appendDbt (boxed : pivotkeys.Boxed keys) (otherHolds : other.Holds otherKeys) :
    Boxed { pivotkeys.appendDbt zero other with
      numPivots := pivotkeys.numPivots + other.numPivots } (keys ++ otherKeys) where
  fixedKeys := boxed.fixedKeys
  dbtKeys := (allocated_getD _ _).trans (by rw [boxed.dbtKeys, otherHolds.eachKey])
  numPivots := by rw [List.length_append, boxed.numPivots, otherHolds.numPivots]
  totalSize := by
    rw [List.map_append, List.sum_append, ← boxed.totalSize, ← otherHolds.eachKey]
    rfl
  positive := by
    intro held member
    rcases List.mem_append.mp member with old | new
    · exact boxed.positive held old
    · exact otherHolds.positive held new

/-- Appending the keys of another container, whatever the formats of both. -/
theorem Holds.append (holds : pivotkeys.Holds keys) (otherHolds : other.Holds otherKeys) :
    ∃ appended, pivotkeys.append zero other = some appended ∧
      appended.Holds (keys ++ otherKeys) := by
  rcases holds with ⟨block, fixed⟩ | boxed
  · -- Two packed arrays stay packed only when their keys have the same length.
    have leave (different : ∀ otherBlock, other.fixedKeys = some otherBlock →
        other.fixedKeylen ≠ pivotkeys.fixedKeylen) :
        ∃ appended, pivotkeys.append zero other = some appended ∧
          appended.Holds (keys ++ otherKeys) := by
      obtain ⟨converted, done, boxed⟩ := fixed.convertToDbtFormat zero
      have appendedHolds : Holds _ _ := .inr (boxed.appendDbt zero otherHolds)
      have appendFixed : pivotkeys.appendFixed zero other block =
          some (converted.appendDbt zero other) := by
        rw [PivotKeys.appendFixed]
        split
        · rename_i otherBlock there
          rw [if_neg (different otherBlock there), done]
          rfl
        · rw [done]
          rfl
      refine ⟨_, ?_, appendedHolds⟩
      have checked := appendedHolds.sanityCheck
      simp only [PivotKeys.append, fixed.fixedKeys, appendFixed, bind_runs]
      exact congrArg (Option.bind · _) checked
    rcases id otherHolds with ⟨otherBlock, otherFixed⟩ | otherBoxed
    · by_cases same : other.fixedKeylen = pivotkeys.fixedKeylen
      · obtain ⟨appended, done, appendedHolds⟩ := fixed.appendFixed zero otherFixed same
        refine ⟨_, ?_, appendedHolds⟩
        have checked := appendedHolds.sanityCheck
        simp only [PivotKeys.append, fixed.fixedKeys, done, bind_runs]
        exact congrArg (Option.bind · _) checked
      · exact leave fun _ _ => same
    · exact leave fun _ there => by rw [otherBoxed.fixedKeys] at there; cases there
  · have appendedHolds : Holds _ _ := .inr (boxed.appendDbt zero otherHolds)
    refine ⟨_, ?_, appendedHolds⟩
    have checked := appendedHolds.sanityCheck
    simp only [PivotKeys.append, boxed.fixedKeys, bind_runs]
    exact congrArg (Option.bind · _) checked

end

/-- Taking a key out takes its size off the sum. -/
theorem sum_eraseIdx {old : Dbt} (there : keys[i]? = some old) :
    ((keys.eraseIdx i).map Dbt.size).sum + old.size = (keys.map Dbt.size).sum := by
  obtain ⟨inRange, rfl⟩ := List.getElem?_eq_some_iff.mp there
  have perm := ((List.getElem_cons_eraseIdx_perm inRange).map Dbt.size).sum_nat
  rw [← perm, List.map_cons, List.sum_cons, Nat.add_comm]

/-- The size of a key is within that of all. -/
theorem Boxed.size_le (boxed : pivotkeys.Boxed keys) {old : Dbt} (there : keys[i]? = some old) :
    old.size ≤ pivotkeys.totalSize := by
  have removed := sum_eraseIdx there
  have total := boxed.totalSize
  omega

/-- Replacing a key in an array of keys. -/
theorem Boxed.replaceAtDbt (boxed : pivotkeys.Boxed keys) (positive : 0 < key.size)
    (inRange : i < keys.length) :
    ∃ replaced, pivotkeys.replaceAtDbt key i = some replaced ∧ replaced.Boxed (keys.set i key) := by
  -- The old key counts in the total, so that taking its size off does not wrap.
  have there : keys[i]? = some keys[i] := List.getElem?_eq_getElem inRange
  have within := boxed.size_le there
  have replaced : Boxed { pivotkeys with
      dbtKeys := pivotkeys.dbtKeys.map fun keys => keys.set i key
      totalSize := pivotkeys.totalSize - keys[i].size + key.size } (keys.set i key) := by
    refine ⟨boxed.fixedKeys, ?_, ?_, ?_, ?_⟩
    · show (pivotkeys.dbtKeys.map fun keys => keys.set i key).getD [] = keys.set i key
      rw [← boxed.dbtKeys]
      cases pivotkeys.dbtKeys <;> rfl
    · rw [List.length_set]
      exact boxed.numPivots
    · have removed := sum_eraseIdx there
      have new := @sum_eraseIdx (keys.set i key) i key (List.getElem?_set_self inRange)
      rw [List.eraseIdx_set_eq] at new
      have total := boxed.totalSize
      rw [← new]
      show pivotkeys.totalSize - keys[i].size + key.size = _
      omega
    · intro held member
      rcases List.mem_or_eq_of_mem_set member with old | rfl
      · exact boxed.positive held old
      · exact positive
  refine ⟨_, ?_, replaced⟩
  simp only [PivotKeys.replaceAtDbt, boxed.dbtKeys, there, invariant_of within, bind_runs]

/-- Replacing a key by one of the same length in a packed array. -/
theorem Fixed.replaceAtFixed (fixed : pivotkeys.Fixed block keys)
    (size : key.size = pivotkeys.fixedKeylen) (inRange : i < keys.length) :
    Fixed { pivotkeys with
        fixedKeys := some (memcpy block (i * pivotkeys.fixedKeylenAligned)
          (key.data.take pivotkeys.fixedKeylen)) }
      (memcpy block (i * pivotkeys.fixedKeylenAligned) (key.data.take pivotkeys.fixedKeylen))
      (keys.set i key) := by
  -- Only the slot at the place is written, and the slots of the others lie apart from it.
  have data : key.data.take pivotkeys.fixedKeylen = key.data :=
    List.take_of_length_le (Nat.le_of_eq size)
  have length : key.data.length = pivotkeys.fixedKeylen := size
  have aligned := fixed.le_aligned
  have roomy := fixed.roomy
  have slot := slot_le pivotkeys.fixedKeylenAligned inRange
  have inside : i * pivotkeys.fixedKeylenAligned + key.data.length ≤ block.length := by
    rw [fixed.totalSize, fixed.numPivots] at roomy
    omega
  rw [data]
  refine ⟨rfl, fixed.dbtKeys, fixed.aligned, fixed.positive, fixed.fits, ?_, fixed.totalSize, ?_,
    ?_, ?_⟩
  · rw [List.length_set]
    exact fixed.numPivots
  · rw [length_memcpy inside]
    exact roomy
  · intro held member
    rcases List.mem_or_eq_of_mem_set member with old | rfl
    · exact fixed.sizes held old
    · exact size
  · intro j held there
    show peek _ (j * pivotkeys.fixedKeylenAligned) pivotkeys.fixedKeylen = held.data
    by_cases same : i = j
    · subst same
      rw [List.getElem?_set_self inRange] at there
      cases there
      rw [← length, peek_memcpy_self inside]
    · rw [List.getElem?_set_ne same] at there
      rw [peek_memcpy_beside inside, fixed.packed j held there]
      rcases Nat.lt_or_gt_of_ne same with after | before
      · have next := slot_le pivotkeys.fixedKeylenAligned after
        exact .inr (by omega)
      · have next := slot_le pivotkeys.fixedKeylenAligned before
        exact .inl (by omega)

/-- Replacing a key, or appending one, in either format. -/
theorem Holds.replaceAt (zero : ZeroSized) (holds : pivotkeys.Holds keys)
    (positive : 0 < key.size) (inRange : i ≤ keys.length) :
    ∃ replaced, pivotkeys.replaceAt zero key i = some replaced ∧
      replaced.Holds (if i < keys.length then keys.set i key else keys.insertIdx i key) := by
  -- Where there is a key it is replaced, and behind the last one it is appended.
  have some : (if i < keys.length then keys.set i key else keys.insertIdx i key) ≠ [] := by
    rw [← List.length_pos_iff]
    split
    · rw [List.length_set]
      omega
    · rw [List.length_insertIdx_of_le_length inRange]
      exact Nat.succ_pos _
  have finish {replaced : PivotKeys} {result : List Dbt} (replacedHolds : replaced.Holds result)
      (nonempty : result ≠ []) :
      (do let totalSize ← replaced.checkedTotalSize
          invariant (0 < totalSize)
          return replaced) = .some replaced := by
    obtain ⟨totalSize, checked, large⟩ := replacedHolds.checkedTotalSize nonempty
    simp only [checked, invariant_of large, bind_runs]
  by_cases within : i < keys.length
  · have inside : i < pivotkeys.numPivots := holds.numPivots ▸ within
    rw [if_pos within] at some ⊢
    rcases id holds with ⟨block, fixed⟩ | boxed
    · by_cases size : key.size = pivotkeys.fixedKeylen
      · have replacedHolds : Holds _ _ := .inl ⟨_, fixed.replaceAtFixed size within⟩
        refine ⟨_, ?_, replacedHolds⟩
        rw [← finish replacedHolds some]
        simp only [PivotKeys.replaceAt, if_pos inside, fixed.fixedKeys, PivotKeys.replaceAtFixed,
          if_pos size, bind_runs]
      · obtain ⟨converted, done, boxed⟩ := fixed.convertToDbtFormat zero
        obtain ⟨replaced, replaceDone, replacedBoxed⟩ := boxed.replaceAtDbt positive within
        refine ⟨replaced, ?_, .inr replacedBoxed⟩
        rw [← finish (.inr replacedBoxed) some]
        simp only [PivotKeys.replaceAt, if_pos inside, fixed.fixedKeys, PivotKeys.replaceAtFixed,
          if_neg size, done, replaceDone, bind_runs]
    · obtain ⟨replaced, done, replacedBoxed⟩ := boxed.replaceAtDbt positive within
      refine ⟨replaced, ?_, .inr replacedBoxed⟩
      rw [← finish (.inr replacedBoxed) some]
      simp only [PivotKeys.replaceAt, if_pos inside, boxed.fixedKeys, done, bind_runs]
  · have outside : ¬i < pivotkeys.numPivots := holds.numPivots ▸ within
    have last : i = pivotkeys.numPivots := by
      rw [holds.numPivots]
      omega
    rw [if_neg within] at some ⊢
    obtain ⟨inserted, done, insertedHolds⟩ := holds.insertAt zero positive inRange
    refine ⟨inserted, ?_, insertedHolds⟩
    rw [← finish insertedHolds some]
    simp only [PivotKeys.replaceAt, if_neg outside, invariant_of last, done, bind_runs]

/-- Deleting a key from a packed array. -/
theorem Fixed.deleteAtFixed (fixed : pivotkeys.Fixed block keys) (inRange : i < keys.length) :
    Fixed { pivotkeys.deleteAtFixed block i with numPivots := pivotkeys.numPivots - 1 }
      (memmove block (i * pivotkeys.fixedKeylenAligned) ((i + 1) * pivotkeys.fixedKeylenAligned)
        ((pivotkeys.numPivots - 1 - i) * pivotkeys.fixedKeylenAligned)) (keys.eraseIdx i) := by
  -- The slots behind the place move down by one, over the one that is deleted.
  have aligned := fixed.le_aligned
  have roomy := fixed.roomy
  rw [fixed.totalSize, fixed.numPivots] at roomy
  have next := Nat.add_one_mul i pivotkeys.fixedKeylenAligned
  have rest : (keys.length - 1 - i) * pivotkeys.fixedKeylenAligned +
      (i + 1) * pivotkeys.fixedKeylenAligned = keys.length * pivotkeys.fixedKeylenAligned := by
    rw [← Nat.add_mul]
    congr 1
    omega
  have less : pivotkeys.totalSize - pivotkeys.fixedKeylenAligned =
      (keys.length - 1) * pivotkeys.fixedKeylenAligned := by
    rw [fixed.totalSize, fixed.numPivots, Nat.sub_mul, Nat.one_mul]
  have source : (i + 1) * pivotkeys.fixedKeylenAligned +
      (keys.length - 1 - i) * pivotkeys.fixedKeylenAligned ≤ block.length := by omega
  have target : i * pivotkeys.fixedKeylenAligned +
      (keys.length - 1 - i) * pivotkeys.fixedKeylenAligned ≤ block.length := by omega
  have movedLength := length_memmove source target
  unfold PivotKeys.deleteAtFixed
  rw [fixed.numPivots]
  refine ⟨rfl, fixed.dbtKeys, fixed.aligned, fixed.positive, fixed.fits, ?_, less, ?_, ?_, ?_⟩
  · rw [List.length_eraseIdx_of_lt inRange]
  · rw [movedLength]
    exact Nat.le_trans (Nat.sub_le _ _) fixed.roomy
  · exact fun held member => fixed.sizes held (List.mem_of_mem_eraseIdx member)
  · intro j held there
    show peek _ (j * pivotkeys.fixedKeylenAligned) pivotkeys.fixedKeylen = held.data
    rw [List.getElem?_eraseIdx] at there
    split at there
    · rename_i before
      have slot := slot_le pivotkeys.fixedKeylenAligned before
      rw [peek_memmove_beside source target (.inl (by omega))]
      exact fixed.packed j held there
    · rename_i after
      have begins := Nat.mul_le_mul_right pivotkeys.fixedKeylenAligned (Nat.le_of_not_lt after)
      have slot := slot_le pivotkeys.fixedKeylenAligned (List.getElem?_eq_some_iff.mp there).1
      have shift := Nat.add_one_mul j pivotkeys.fixedKeylenAligned
      have old : (i + 1) * pivotkeys.fixedKeylenAligned +
          (j * pivotkeys.fixedKeylenAligned - i * pivotkeys.fixedKeylenAligned) =
          (j + 1) * pivotkeys.fixedKeylenAligned := by
        omega
      rw [peek_memmove_inside source target begins (by omega), old]
      exact fixed.packed (j + 1) held there

/-- Deleting a key, in either format. -/
theorem Holds.deleteAt (zero : ZeroSized) (holds : pivotkeys.Holds keys)
    (inRange : i < keys.length) :
    ∃ deleted, pivotkeys.deleteAt zero i = some deleted ∧ deleted.Holds (keys.eraseIdx i) := by
  -- The format stays as it is.
  have inside : i < pivotkeys.numPivots := holds.numPivots ▸ inRange
  rcases holds with ⟨block, fixed⟩ | boxed
  · refine ⟨_, ?_, .inl ⟨_, fixed.deleteAtFixed inRange⟩⟩
    simp only [PivotKeys.deleteAt, invariant_of inside, fixed.fixedKeys, bind_runs]
    rfl
  · have there : keys[i]? = some keys[i] := List.getElem?_eq_getElem inRange
    have within := boxed.size_le there
    have removed := sum_eraseIdx there
    have deleted : Boxed { pivotkeys with
        dbtKeys := reallocN zero pivotkeys.dbtKeys (keys.eraseIdx i)
        numPivots := pivotkeys.numPivots - 1
        totalSize := pivotkeys.totalSize - keys[i].size } (keys.eraseIdx i) := by
      refine ⟨boxed.fixedKeys, allocated_getD _ _, ?_, ?_, ?_⟩
      · rw [List.length_eraseIdx_of_lt inRange, boxed.numPivots]
      · have total := boxed.totalSize
        show pivotkeys.totalSize - keys[i].size = _
        omega
      · exact fun held member => boxed.positive held (List.mem_of_mem_eraseIdx member)
    refine ⟨_, ?_, .inr deleted⟩
    simp only [PivotKeys.deleteAt, invariant_of inside, boxed.fixedKeys, PivotKeys.deleteAtDbt,
      boxed.dbtKeys, there, invariant_of within, bind_runs]

/-- Destroying keys counts their sizes down. -/
theorem destroyKeys_eq (keys : List Dbt) (kept : Nat) :
    destroyKeys keys ((keys.map Dbt.size).sum + kept) = some kept := by
  -- By induction on the keys: the size of each is still counted when it is destroyed.
  induction keys with
  | nil => rw [destroyKeys, List.map_nil, List.sum_nil, Nat.zero_add]
  | cons key rest ih =>
    have within : key.size ≤ ((key :: rest).map Dbt.size).sum + kept := by
      rw [List.map_cons, List.sum_cons]
      omega
    have left : ((key :: rest).map Dbt.size).sum + kept - key.size =
        (rest.map Dbt.size).sum + kept := by
      rw [List.map_cons, List.sum_cons]
      omega
    simp only [destroyKeys, invariant_of within, left, ih, bind_runs]

/-- Shrinking a packed array to its first keys. -/
theorem Fixed.shrink (zero : ZeroSized) (fixed : pivotkeys.Fixed block keys)
    (inRange : i < keys.length) :
    Holds { pivotkeys with
        fixedKeys := allocated zero.realloc (resize 0 block (i * pivotkeys.fixedKeylenAligned))
        totalSize := i * pivotkeys.fixedKeylenAligned
        numPivots := i } (keys.take i) := by
  -- The first slots stay where they are when the block is cut behind them.
  have aligned := fixed.le_aligned
  have roomy := fixed.roomy
  rw [fixed.totalSize, fixed.numPivots] at roomy
  have whole := slot_le pivotkeys.fixedKeylenAligned inRange
  have count : i = (keys.take i).length := by
    rw [List.length_take]
    omega
  have length := length_resize 0 block (i * pivotkeys.fixedKeylenAligned)
  generalize shrunk : resize 0 block (i * pivotkeys.fixedKeylenAligned) = smaller at length
  rcases allocated_cases zero.realloc smaller with there | ⟨rfl, null⟩
  · rw [there]
    refine .inl ⟨smaller, rfl, fixed.dbtKeys, fixed.aligned, fixed.positive, fixed.fits, count, rfl,
      Nat.le_of_eq length.symm, fun held member => fixed.sizes held (List.mem_of_mem_take member),
      ?_⟩
    intro j held there
    have before : j < i := count ▸ (List.getElem?_eq_some_iff.mp there).1
    rw [List.getElem?_take_of_lt before] at there
    have slot := slot_le pivotkeys.fixedKeylenAligned before
    show peek smaller (j * pivotkeys.fixedKeylenAligned) pivotkeys.fixedKeylen = held.data
    rw [← shrunk, peek_resize 0 (by omega) (by omega)]
    exact fixed.packed j held there
  · have positive := fixed.positive
    have first : i = 0 := by
      rcases Nat.mul_eq_zero.mp (length.symm.trans List.length_nil) with first | none
      · exact first
      · omega
    subst first
    rw [null, Nat.zero_mul]
    exact .inr ⟨rfl, by rw [fixed.dbtKeys]; rfl, rfl, rfl, fun _ member => nomatch member⟩

/-- Splitting at a place, in either format. -/
theorem Holds.splitAt (zero : ZeroSized) (holds : pivotkeys.Holds keys)
    (otherEmpty : other.Holds [])
    (inRange : i ≤ keys.length) :
    ∃ left right, pivotkeys.splitAt zero i other = some (left, right) ∧
      left.Holds (keys.take i) ∧ right.Holds (keys.drop i) := by
  -- Behind the last key there is nothing to split off.
  by_cases within : i < keys.length
  · have inside : i < pivotkeys.numPivots := holds.numPivots ▸ within
    rcases id holds with ⟨block, fixed⟩ | boxed
    · have left := fixed.shrink zero within
      have right := fixed.createFromFixedKeys zero inRange
      refine ⟨_, _, ?_, left, right⟩
      have checked := left.sanityCheck
      simp only [PivotKeys.splitAt, if_pos inside, fixed.fixedKeys, PivotKeys.splitAtFixed,
        bind_runs]
      exact congrArg (Option.bind · _) checked
    · obtain ⟨right, made, rightHolds⟩ :=
        createFromDbts_eq zero fun key (member : key ∈ keys.drop i) =>
        boxed.positive key (List.mem_of_mem_drop member)
      have total : pivotkeys.totalSize =
          ((keys.drop i).map Dbt.size).sum + ((keys.take i).map Dbt.size).sum := by
        rw [boxed.totalSize, Nat.add_comm, ← List.sum_append, ← List.map_append,
          List.take_append_drop]
      have left : Boxed { pivotkeys with
          dbtKeys := reallocN zero pivotkeys.dbtKeys (keys.take i)
          totalSize := ((keys.take i).map Dbt.size).sum
          numPivots := i } (keys.take i) := by
        refine ⟨boxed.fixedKeys, allocated_getD _ _, ?_, rfl,
          fun held member => boxed.positive held (List.mem_of_mem_take member)⟩
        exact (List.length_take_of_le inRange).symm
      have leftHolds : Holds _ _ := .inr left
      have all : keys.take pivotkeys.numPivots = keys := by
        rw [boxed.numPivots, List.take_length]
      have done : pivotkeys.splitAtDbt zero i = some ({ pivotkeys with
          dbtKeys := reallocN zero pivotkeys.dbtKeys (keys.take i)
          totalSize := ((keys.take i).map Dbt.size).sum }, right) := by
        simp only [PivotKeys.splitAtDbt, boxed.dbtKeys, all, made, total, destroyKeys_eq, bind_runs]
      refine ⟨_, right, ?_, leftHolds, rightHolds⟩
      have checked := leftHolds.sanityCheck
      simp only [PivotKeys.splitAt, if_pos inside, boxed.fixedKeys, done, bind_runs] at checked ⊢
      exact congrArg (Option.bind · _) checked
  · have outside : ¬i < pivotkeys.numPivots := holds.numPivots ▸ within
    have last : i = keys.length := by omega
    refine ⟨pivotkeys, other, ?_, by rwa [last, List.take_length], by rwa [last, List.drop_length]⟩
    simp only [PivotKeys.splitAt, if_neg outside, holds.sanityCheck, bind_runs]

end PivotKeys

end Tokuft
