import Tokuft.Node.PivotKeys

/-! What a container of pivot keys holds, in either format, and what its basic operations keep. -/

namespace Tokuft

/-- Rounding up does not make a length smaller. -/
theorem le_align4 (len : Nat) : len ≤ align4 len := by
  unfold align4
  omega

/-- One place ends before a later one begins. -/
theorem slot_le {i n : Nat} (aligned : Nat) (before : i < n) :
    i * aligned + aligned ≤ n * aligned := by
  have le := Nat.mul_le_mul_right aligned before
  rwa [Nat.succ_mul] at le

/-- Two keys of the same bytes are the same. -/
theorem Dbt.ext_data {one other : Dbt} (same : one.data = other.data) : one = other := by
  cases one
  cases other
  cases same
  rfl

/-- The bytes of a key of a length that fits are those that it points to. -/
theorem Dbt.fill_data {bytes : Bytes} {len : Nat} (fits : len < 2 ^ 32) :
    (Dbt.fill bytes len).data = bytes.take len :=
  congrArg bytes.take (Nat.mod_eq_of_lt fits)

section

variable {Cell : Type} (zeroIsNull : Bool)
include zeroIsNull

/-- A block that is not asked for to be empty is there. -/
theorem allocated_of_ne {cells : List Cell} (some : cells ≠ []) :
    allocated zeroIsNull cells = .some cells := by
  cases cells with
  | nil => exact absurd rfl some
  | cons cell rest => rfl

/-- What is allocated is there, or it is nothing and is not. -/
theorem allocated_cases (cells : List Cell) :
    allocated zeroIsNull cells = some cells ∨ (cells = [] ∧ allocated zeroIsNull cells = none) := by
  cases cells <;> cases zeroIsNull <;> simp [allocated]

/-- The cells of an allocated block, whether it is null or not. -/
@[simp] theorem allocated_getD (cells : List Cell) :
    (allocated zeroIsNull cells).getD [] = cells := by
  rcases allocated_cases zeroIsNull cells with there | ⟨rfl, null⟩
  · rw [there, Option.getD_some]
  · rw [null, Option.getD_none]

end

namespace PivotKeys

/-- A packed array holds some keys. -/
structure Fixed (pivotkeys : PivotKeys) (block : Bytes) (keys : List Dbt) : Prop where
  fixedKeys : pivotkeys.fixedKeys = some block
  dbtKeys : pivotkeys.dbtKeys = none
  aligned : pivotkeys.fixedKeylenAligned = align4 pivotkeys.fixedKeylen
  positive : 0 < pivotkeys.fixedKeylen
  fits : pivotkeys.fixedKeylen < 2 ^ 32
  numPivots : pivotkeys.numPivots = keys.length
  totalSize : pivotkeys.totalSize = pivotkeys.numPivots * pivotkeys.fixedKeylenAligned
  roomy : pivotkeys.totalSize ≤ block.length
  sizes : ∀ key ∈ keys, key.size = pivotkeys.fixedKeylen
  packed : ∀ i key, keys[i]? = some key →
    peek block (i * pivotkeys.fixedKeylenAligned) pivotkeys.fixedKeylen = key.data

/-- An array of keys holds them. -/
structure Boxed (pivotkeys : PivotKeys) (keys : List Dbt) : Prop where
  fixedKeys : pivotkeys.fixedKeys = none
  dbtKeys : pivotkeys.dbtKeys.getD [] = keys
  numPivots : pivotkeys.numPivots = keys.length
  totalSize : pivotkeys.totalSize = (keys.map Dbt.size).sum
  positive : ∀ key ∈ keys, 0 < key.size

/-- A container holds some keys, in whichever format. -/
def Holds (pivotkeys : PivotKeys) (keys : List Dbt) : Prop :=
  (∃ block, pivotkeys.Fixed block keys) ∨ pivotkeys.Boxed keys

variable {pivotkeys : PivotKeys} {block : Bytes} {keys : List Dbt}

/-- The length of the keys is not more than what each of them takes. -/
theorem Fixed.le_aligned (fixed : pivotkeys.Fixed block keys) :
    pivotkeys.fixedKeylen ≤ pivotkeys.fixedKeylenAligned :=
  fixed.aligned ▸ le_align4 _

/-- A key of a packed array. -/
theorem Fixed.fixedKey (fixed : pivotkeys.Fixed block keys) {i : Nat} {key : Dbt}
    (there : keys[i]? = some key) : pivotkeys.fixedKey block i = key := by
  apply Dbt.ext_data
  rw [PivotKeys.fixedKey, Dbt.fill_data fixed.fits]
  exact fixed.packed i key there

section

variable (holds : pivotkeys.Holds keys)
include holds

/-- The keys of a container are those it holds. -/
theorem Holds.eachKey : pivotkeys.eachKey = keys := by
  -- A packed array is read slot by slot, while keys of their own are there as they are.
  rcases holds with ⟨block, fixed⟩ | boxed
  · rw [PivotKeys.eachKey, fixed.fixedKeys]
    refine List.ext_getElem? fun i => ?_
    rw [List.getElem?_map, fixed.numPivots]
    rcases Option.eq_none_or_eq_some keys[i]? with none | ⟨key, there⟩
    · rw [none, List.getElem?_eq_none (by simpa using none)]
      rfl
    · rw [List.getElem?_range (List.getElem?_eq_some_iff.mp there).1, Option.map_some,
        fixed.fixedKey there, there]
  · rw [PivotKeys.eachKey, boxed.fixedKeys]
    rw [boxed.dbtKeys, boxed.numPivots, List.take_length]

/-- The number of pivots is that of the keys. -/
theorem Holds.numPivots : pivotkeys.numPivots = keys.length := by
  rcases holds with ⟨block, fixed⟩ | boxed
  · exact fixed.numPivots
  · exact boxed.numPivots

/-- No key is empty. -/
theorem Holds.positive : ∀ key ∈ keys, 0 < key.size := by
  -- The two formats keep this fact in different fields.
  rcases holds with ⟨block, fixed⟩ | boxed
  · intro key member
    rw [fixed.sizes key member]
    exact fixed.positive
  · exact boxed.positive

/-- The sizes that are kept are right. -/
theorem Holds.sanityCheck : pivotkeys.sanityCheck = some () := by
  -- Each format has checks of its own.
  rcases holds with ⟨block, fixed⟩ | boxed
  · have isFixed : pivotkeys.fixedFormat = true := by rw [fixedFormat, fixed.fixedKeys]; rfl
    have within := Nat.mul_le_mul_left pivotkeys.numPivots fixed.le_aligned
    simp only [PivotKeys.sanityCheck, if_pos isFixed, invariant_of fixed.dbtKeys,
      invariant_of fixed.aligned, fixed.totalSize, invariant_of within, invariant_of trivial,
      bind_runs]
  · have notFixed : ¬pivotkeys.fixedFormat = true := by simp [fixedFormat, boxed.fixedKeys]
    have there : pivotkeys.numPivots = 0 ∨ pivotkeys.dbtKeys ≠ none := by
      rw [or_iff_not_imp_right, not_not, boxed.numPivots, ← boxed.dbtKeys]
      intro null
      rw [null, Option.getD_none, List.length_nil]
    have sum : (((pivotkeys.dbtKeys.getD []).take pivotkeys.numPivots).map Dbt.size).sum =
        pivotkeys.totalSize := by
      rw [boxed.dbtKeys, boxed.numPivots, List.take_length, boxed.totalSize]
    simp only [PivotKeys.sanityCheck, if_neg notFixed, invariant_of there, invariant_of sum,
      bind_runs]

/-- A pivot key that is asked for is the one that is held at its place. -/
theorem Holds.getPivot {i : Nat} {key : Dbt} (there : keys[i]? = some key) :
    pivotkeys.getPivot i = some key := by
  -- The place is inside the container, which is what both formats check first.
  have inRange : i < pivotkeys.numPivots := by
    rw [holds.numPivots]
    exact (List.getElem?_eq_some_iff.mp there).1
  rcases holds with ⟨block, fixed⟩ | boxed
  · have within : i * pivotkeys.fixedKeylenAligned < pivotkeys.totalSize := by
      have slot := slot_le pivotkeys.fixedKeylenAligned inRange
      have positive := fixed.positive
      have aligned := fixed.le_aligned
      rw [fixed.totalSize]
      omega
    simp only [PivotKeys.getPivot, invariant_of inRange, fixed.fixedKeys, invariant_of within,
      fixed.fixedKey there, bind_runs]
  · simp only [PivotKeys.getPivot, invariant_of inRange, boxed.fixedKeys, boxed.dbtKeys, there,
      bind_runs]

/-- The same key is filled in. -/
theorem Holds.fillPivot {i : Nat} {key : Dbt} (there : keys[i]? = some key) :
    pivotkeys.fillPivot i = some key := by
  -- As when a key is got, only the check of the place comes first.
  have inRange : i < pivotkeys.numPivots := by
    rw [holds.numPivots]
    exact (List.getElem?_eq_some_iff.mp there).1
  rcases holds with ⟨block, fixed⟩ | boxed
  · simp only [PivotKeys.fillPivot, invariant_of inRange, fixed.fixedKeys, fixed.fixedKey there,
      bind_runs]
  · simp only [PivotKeys.fillPivot, invariant_of inRange, boxed.fixedKeys, boxed.dbtKeys, there,
      bind_runs]

end

/-- The sizes of keys of one length add up to that length for each. -/
theorem sum_of_sizes {keylen : Nat} (sizes : ∀ key ∈ keys, key.size = keylen) :
    (keys.map Dbt.size).sum = keys.length * keylen := by
  rw [List.map_congr_left sizes, List.map_const', List.sum_replicate_nat]

/-- Leaving the packed format keeps the keys. -/
theorem Fixed.convertToDbtFormat (zero : ZeroSized) (fixed : pivotkeys.Fixed block keys) :
    ∃ converted, pivotkeys.convertToDbtFormat zero = some converted ∧ converted.Boxed keys := by
  -- Every slot of the array is copied to a key of its own.
  have each := Holds.eachKey (.inl ⟨block, fixed⟩)
  rw [PivotKeys.eachKey, fixed.fixedKeys] at each
  rw [PivotKeys.convertToDbtFormat, fixed.fixedKeys]
  simp only [bind_runs, each]
  have boxed : Boxed {
      fixedKeys := none
      fixedKeylen := 0
      fixedKeylenAligned := 0
      dbtKeys := reallocN zero pivotkeys.dbtKeys keys
      numPivots := pivotkeys.numPivots
      totalSize := pivotkeys.numPivots * pivotkeys.fixedKeylen } keys :=
    { fixedKeys := rfl
      dbtKeys := allocated_getD _ keys
      numPivots := fixed.numPivots
      totalSize := by rw [sum_of_sizes fixed.sizes, fixed.numPivots]
      positive := Holds.positive (.inl ⟨block, fixed⟩) }
  have holds : Holds _ keys := .inr boxed
  refine ⟨_, ?_, boxed⟩
  simp only [fixedFormat, Option.isSome_none, invariant_of trivial, Option.bind_some,
    holds.sanityCheck]

/-- Packing keys fills their places, one after the other, and leaves what is before them. -/
theorem packKeys_eq {keylen aligned : Nat} (fitsSlot : keylen ≤ aligned) :
    ∀ {keys : List Dbt}, (∀ key ∈ keys, key.size = keylen) → ∀ {i : Nat} {block : Bytes},
      (i + keys.length) * aligned ≤ block.length →
      ∃ packed, packKeys keylen aligned keys i block = some packed ∧
        packed.length = block.length ∧
        (∀ j key, keys[j]? = some key → peek packed ((i + j) * aligned) keylen = key.data) ∧
        ∀ start count, start + count ≤ i * aligned →
          peek packed start count = peek block start count := by
  -- A key is written to its slot, which ends before the next one begins, and behind what was
  -- written before.
  intro keys
  induction keys with
  | nil => exact fun _ _ block _ => ⟨block, rfl, rfl, by simp, fun _ _ _ => rfl⟩
  | cons key rest ih =>
    intro sizes i block roomy
    have size : key.data.length = keylen := sizes key List.mem_cons_self
    have whole : key.data.take keylen = key.data := List.take_of_length_le (Nat.le_of_eq size)
    have own : i * aligned + aligned ≤ (i + (key :: rest).length) * aligned :=
      slot_le aligned (by rw [List.length_cons]; omega)
    have inside : i * aligned + key.data.length ≤ block.length := by omega
    have next : (i + 1) * aligned = i * aligned + aligned := Nat.succ_mul i aligned
    have rest : (i + 1 + rest.length) * aligned ≤ (memcpy block (i * aligned) key.data).length := by
      rwa [length_memcpy inside, Nat.add_assoc, Nat.add_comm 1, ← List.length_cons]
    obtain ⟨packed, done, sameLength, filled, before⟩ :=
      ih (fun other member => sizes other (List.mem_cons_of_mem _ member)) rest
    refine ⟨packed, ?_, sameLength.trans (length_memcpy inside), ?_, ?_⟩
    · rw [packKeys, invariant_of (show key.size = keylen from size), whole]
      exact done
    · rintro (_ | j) other there
      · cases there
        rw [Nat.add_zero, before _ _ (by omega), ← size, peek_memcpy_self inside]
      · rw [Nat.add_comm j 1, ← Nat.add_assoc]
        exact filled j other there
    · intro start count early
      rw [before start count (by omega), peek_memcpy_beside inside (.inl early)]

/-- Keys have one length when each has that of the first. -/
theorem keysSameSize_iff {first : Dbt} {rest : List Dbt} :
    keysSameSize (first :: rest) = true ↔ ∀ key ∈ first :: rest, key.size = first.size := by
  -- Neighbours of one length are enough, as each has that of the one before it.
  induction rest generalizing first with
  | nil => simp [keysSameSize]
  | cons second rest ih =>
    rw [keysSameSize, Bool.and_eq_true, beq_iff_eq, ih]
    constructor
    · rintro ⟨same, others⟩ key (_ | ⟨_, member⟩)
      · rfl
      · exact (others key member).trans same
    · intro all
      have same := all second (by simp)
      exact ⟨same, fun key member => (all key (List.mem_cons_of_mem _ member)).trans same.symm⟩

/-- Keys of one length can be packed. -/
theorem createFixed_eq {first : Dbt} {rest : List Dbt}
    (sizes : ∀ key ∈ first :: rest, key.size = first.size) (positive : 0 < first.size) :
    ∃ created block, createFixed (first :: rest) = some created ∧
      created.Fixed block (first :: rest) := by
  -- A new array has a slot for each key, rounded up to a multiple of four.
  have room : (0 + (first :: rest).length) * align4 first.size ≤
      (List.replicate (align4 first.size * (first :: rest).length) (0 : UInt8)).length := by
    rw [List.length_replicate, Nat.zero_add]
    exact Nat.le_of_eq (Nat.mul_comm _ _)
  obtain ⟨packed, done, sameLength, filled, -⟩ := packKeys_eq (le_align4 first.size) sizes room
  have fixed : Fixed {
      fixedKeys := some packed
      fixedKeylen := first.size
      fixedKeylenAligned := align4 first.size
      dbtKeys := none
      numPivots := (first :: rest).length
      totalSize := align4 first.size * (first :: rest).length } packed (first :: rest) :=
    { fixedKeys := rfl
      dbtKeys := rfl
      aligned := rfl
      positive := positive
      fits := first.fits
      numPivots := rfl
      totalSize := Nat.mul_comm _ _
      roomy := Nat.le_of_eq (by rw [sameLength, List.length_replicate])
      sizes := sizes
      packed := fun i key there => by simpa using filled i key there }
  refine ⟨_, packed, ?_, fixed⟩
  simp only [createFixed, List.head?_cons, bind_runs, done]

/-- Keys that are not empty can be held. -/
theorem createFromDbts_eq (zero : ZeroSized) (positive : ∀ key ∈ keys, 0 < key.size) :
    ∃ created, createFromDbts zero keys = some created ∧ created.Holds keys := by
  -- Keys of one length are packed, and others get a block each.
  by_cases packable : (keysSameSize keys && decide (0 < keys.length)) = true
  · obtain ⟨same, some⟩ := Bool.and_eq_true_iff.mp packable
    obtain ⟨first, rest, rfl⟩ := List.exists_cons_of_length_pos (of_decide_eq_true some)
    obtain ⟨created, block, made, fixed⟩ :=
      createFixed_eq (keysSameSize_iff.mp same) (positive first List.mem_cons_self)
    have holds : created.Holds (first :: rest) := .inl ⟨block, fixed⟩
    refine ⟨created, ?_, holds⟩
    simp only [createFromDbts, if_pos packable, made, holds.sanityCheck, bind_runs]
  · have holds : Holds { createEmpty with
        dbtKeys := allocated zero.mallocAligned keys
        numPivots := keys.length
        totalSize := (keys.map Dbt.size).sum } keys :=
      .inr ⟨rfl, allocated_getD _ keys, rfl, rfl, positive⟩
    refine ⟨_, ?_, holds⟩
    simp only [createFromDbts, if_neg packable, holds.sanityCheck, bind_runs]

/-- A copy of a packed array, or of the rest of it. -/
theorem Fixed.createFromFixedKeys (zero : ZeroSized) (fixed : pivotkeys.Fixed block keys)
    {i : Nat} (inRange : i ≤ keys.length) :
    (createFromFixedKeys zero (block.drop (i * pivotkeys.fixedKeylenAligned))
      pivotkeys.fixedKeylen (pivotkeys.numPivots - i)).Holds (keys.drop i) := by
  -- What is left of the array begins at a slot, so that the slots of both arrays are the same.
  have count : pivotkeys.numPivots - i = (keys.drop i).length := by
    rw [List.length_drop, fixed.numPivots]
  have total : align4 pivotkeys.fixedKeylen * (pivotkeys.numPivots - i) +
    i * align4 pivotkeys.fixedKeylen =
      pivotkeys.totalSize := by
    rw [fixed.totalSize, fixed.aligned, Nat.mul_comm, ← Nat.add_mul, Nat.sub_add_cancel]
    rwa [fixed.numPivots]
  have roomy := fixed.roomy
  rw [PivotKeys.createFromFixedKeys, fixed.aligned]
  generalize copied : (block.drop (i * align4 pivotkeys.fixedKeylen)).take
    (align4 pivotkeys.fixedKeylen * (pivotkeys.numPivots - i)) = copy
  have copyLength : copy.length = align4 pivotkeys.fixedKeylen * (pivotkeys.numPivots - i) := by
    rw [← copied, List.length_take, List.length_drop]
    omega
  rcases allocated_cases zero.malloc copy with there | ⟨rfl, null⟩
  · rw [there]
    refine .inl ⟨copy, rfl, rfl, rfl, fixed.positive, fixed.fits, count, Nat.mul_comm _ _,
      Nat.le_of_eq copyLength.symm,
      fun key member => fixed.sizes key (List.mem_of_mem_drop member), ?_⟩
    intro j key there
    have before := (List.getElem?_eq_some_iff.mp there).1
    rw [List.getElem?_drop] at there
    have slot := slot_le (align4 pivotkeys.fixedKeylen) (count ▸ before)
    have aligned := le_align4 pivotkeys.fixedKeylen
    have original := fixed.packed (i + j) key there
    rw [fixed.aligned, Nat.add_mul] at original
    have isPeek : copy = peek block (i * align4 pivotkeys.fixedKeylen)
      (align4 pivotkeys.fixedKeylen * (pivotkeys.numPivots - i)) := copied.symm
    rw [← original, isPeek, peek_peek]
    show j * align4 pivotkeys.fixedKeylen + pivotkeys.fixedKeylen ≤ _
    rw [Nat.mul_comm (align4 pivotkeys.fixedKeylen)]
    omega
  · have empty : pivotkeys.numPivots - i = 0 := by
      have positive := fixed.positive
      have aligned := le_align4 pivotkeys.fixedKeylen
      have zero := Nat.mul_eq_zero.mp (copyLength.symm.trans List.length_nil)
      omega
    have nothing : keys.drop i = [] := List.eq_nil_of_length_eq_zero (count.symm.trans empty)
    rw [null, nothing, empty]
    exact .inr ⟨rfl, rfl, rfl, rfl, fun _ member => nomatch member⟩

/-- A copy of a container holds the same keys. -/
theorem Holds.createFromPivotKeys (zero : ZeroSized) (holds : pivotkeys.Holds keys) :
    ∃ copy, createFromPivotKeys zero pivotkeys = some copy ∧ copy.Holds keys := by
  -- A packed array is copied as a whole, and other keys one by one.
  rcases holds with ⟨block, fixed⟩ | boxed
  · have copyHolds := fixed.createFromFixedKeys zero (Nat.zero_le keys.length)
    rw [Nat.zero_mul, List.drop_zero, List.drop_zero, Nat.sub_zero] at copyHolds
    refine ⟨_, ?_, copyHolds⟩
    simp only [PivotKeys.createFromPivotKeys, fixed.fixedKeys, copyHolds.sanityCheck, bind_runs]
  · obtain ⟨copy, made, copyHolds⟩ := createFromDbts_eq zero boxed.positive
    refine ⟨copy, ?_, copyHolds⟩
    simp only [PivotKeys.createFromPivotKeys, boxed.fixedKeys, boxed.dbtKeys, boxed.numPivots,
      List.take_length, made, copyHolds.sanityCheck, bind_runs]

end PivotKeys

end Tokuft
