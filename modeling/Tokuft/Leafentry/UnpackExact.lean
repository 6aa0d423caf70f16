import Tokuft.Leafentry.Unpack

/-! A packed leaf entry reads back as the leaf entry it was packed from, exactly when it fits. -/

namespace Tokuft

variable {uxr : Uxr} {Value : Type}

/-- The fixed part of the size fits the word that it is computed in. -/
def SizeFits (ule : Ule) : Prop :=
  (ule.numCuxrs = 1 ∧ ule.numPuxrs = 0) ∨ 12 * ule.numCuxrs + 8 * ule.numPuxrs < 2 ^ 32 + 2

/-- Packing writes the computed size, and measuring and unpacking agree with it. -/
def RoundTrips (ule : Ule) : Prop :=
  ∃ bytes, lePack ule = some (some bytes) ∧ leMemsizeFromUle ule = some bytes.length ∧
    ∀ trailing, leafentryMemsize (bytes ++ trailing) = some bytes.length ∧
      leUnpack (bytes ++ trailing) = some ule

variable {ule : Ule}

/-- A length word takes four bytes whatever it marks. -/
@[simp] theorem uxrPackLengthAndBit_length (uxr : Uxr) : (uxrPackLengthAndBit uxr).length = 4 := by
  rcases uxr with ⟨type, xid⟩
  cases type <;> simp [uxrPackLengthAndBit]

/-- A type byte is followed by a length only for an insert. -/
theorem uxrPackTypeAndLength_length (uxr : Uxr) :
    (uxrPackTypeAndLength uxr).length = 1 + if uxrIsInsert uxr then 4 else 0 := by
  rcases uxr with ⟨type, xid⟩
  cases type <;> simp [uxrPackTypeAndLength, uxrIsInsert]

/-- The lengths of some records add up record by record. -/
theorem lengthsSize_append (uxrs more : List Uxr) :
    lengthsSize (uxrs ++ more) = lengthsSize uxrs + lengthsSize more := by
  simp [lengthsSize]

/-- The values of some records add up record by record. -/
theorem valuesSize_append (uxrs more : List Uxr) :
    valuesSize (uxrs ++ more) = valuesSize uxrs + valuesSize more := by
  simp [valuesSize]

/-- The provisional records left over take their identifiers, types, lengths, and values. -/
theorem lePackProvisional_length (innermost : Uxr) (outer : List Uxr) :
    (lePackProvisional (innermost :: outer)).length =
      9 * outer.length + lengthsSize outer + valuesSize outer := by
  rcases List.eq_nil_or_concat outer with rfl | ⟨between, outermost, rfl⟩
  · rfl
  · -- The outermost record has no identifier here, and the innermost has only that.
    have middle : ∀ uxrs : List Uxr, (uxrs.flatMap uxrPackMiddle).length =
        9 * uxrs.length + lengthsSize uxrs + valuesSize uxrs := by
      intro uxrs
      induction uxrs with
      | nil => rfl
      | cons uxr rest ih =>
        simp only [List.flatMap_cons, List.length_append, ih, uxrPackMiddle, uxrPackTxnid,
          uintBytes_length, uxrPackTypeAndLength_length, List.length_cons, lengthsSize, valuesSize,
          List.map_cons, List.sum_cons]
        omega
    have reversed := middle between.reverse
    have sums : lengthsSize between.reverse = lengthsSize between ∧
        valuesSize between.reverse = valuesSize between := by
      simp [lengthsSize, valuesSize, List.sum_reverse]
    have shape : lePackProvisional (innermost :: between.concat outermost) =
        (uxrPackTypeAndLength outermost ++ uxrPackData outermost) ++
          (between.reverse.flatMap uxrPackMiddle ++ uxrPackTxnid innermost) := by
      rw [List.concat_eq_append]
      cases between <;> simp [lePackProvisional, List.getLast?_cons, List.dropLast_cons_of_ne_nil]
    have single : lengthsSize [outermost] = (if uxrIsInsert outermost then 4 else 0) ∧
        valuesSize [outermost] = (uxrPackData outermost).length := by
      simp [lengthsSize, valuesSize]
    rw [shape, List.concat_eq_append, lengthsSize_append, valuesSize_append]
    simp only [List.length_append, reversed, sums.1, sums.2, single.1, single.2,
      uxrPackTypeAndLength_length, uxrPackTxnid, uintBytes_length, List.length_reverse,
      List.length_cons, List.length_nil]
    omega

/-- The part that follows the counts has a size for each kind of field. -/
theorem lePackRest_length (based : ule.cuxrs ≠ []) :
    (lePackRest ule).length = 4 * ule.numCuxrs + 8 * (ule.numCuxrs + ule.numPuxrs - 1) +
      valuesSize ule.cuxrs + match ule.puxrs with
        | [] => 0
        | innermost :: outer => (uxrPackData innermost).length + 4 + outer.length +
          (lengthsSize outer + valuesSize outer) := by
  -- The fields are counted kind by kind.
  have positive : 0 < ule.cuxrs.length := List.length_pos_of_ne_nil based
  have xids : (ule.cuxrs.dropLast.flatMap uxrPackTxnid).length = 8 * (ule.cuxrs.length - 1) := by
    simp [List.length_flatMap, uxrPackTxnid, List.map_const', Nat.mul_comm]
  have words : (ule.cuxrs.flatMap uxrPackLengthAndBit).length = 4 * ule.cuxrs.length := by
    simp [List.length_flatMap, List.map_const', Nat.mul_comm]
  have values : (ule.cuxrs.flatMap uxrPackData).length = valuesSize ule.cuxrs := by
    simp [List.length_flatMap, valuesSize]
  rcases ule with ⟨_ | ⟨innermost, outer⟩, cuxrs⟩
  · simp only [lePackRest, List.length_append, xids, words, values, lePackProvisional,
      List.head?_nil, List.getLast?_nil, Option.elim_none, List.length_nil, Ule.numCuxrs,
      Ule.numPuxrs]
    omega
  · obtain ⟨outermost, last⟩ : ∃ outermost, (innermost :: outer).getLast? = some outermost :=
      ⟨_, List.getLast?_eq_some_getLast (by simp)⟩
    have txnid : (uxrPackTxnid outermost).length = 8 := uintBytes_length 8 _
    simp only [lePackRest, List.length_append, xids, words, values, last,
      lePackProvisional_length, List.head?_cons, Option.elim_some, txnid,
      uxrPackLengthAndBit_length, List.length_cons, Ule.numCuxrs, Ule.numPuxrs]
    simp only at positive
    omega

/-- The size that is computed before packing wraps in its fixed part only. -/
theorem leMemsizeFromUle_eq (based : ule.cuxrs ≠ [])
    (several : ¬(ule.numCuxrs = 1 ∧ ule.numPuxrs = 0)) :
    ∃ rest, leMemsizeFromUle ule =
        some ((12 * ule.numCuxrs + 8 * ule.numPuxrs - 2) % 2 ^ 32 + rest) ∧
      (1 :: lePackMvcc ule).length = (12 * ule.numCuxrs + 8 * ule.numPuxrs - 2) + rest := by
  -- Only the product of counts is computed in 32 bits.
  have positive : 0 < ule.numCuxrs := List.length_pos_of_ne_nil based
  have size := lePackRest_length based
  have fixed : 1 + 4 + 1 + 4 * ule.numCuxrs + 8 * (ule.numCuxrs + ule.numPuxrs - 1) =
      12 * ule.numCuxrs + 8 * ule.numPuxrs - 2 := by omega
  have written : (1 :: lePackMvcc ule).length = 6 + (lePackRest ule).length := by
    simp only [lePackMvcc, List.length_cons, List.length_append, uintBytes_length, List.length_nil]
    omega
  rw [written, size, leMemsizeFromUle]
  simp only [invariant_of positive, bind_runs, if_neg several, fixed]
  cases ule.puxrs with
  | nil => exact ⟨valuesSize ule.cuxrs, rfl, by dsimp only; omega⟩
  | cons innermost outer =>
    exact ⟨valuesSize ule.cuxrs + ((uxrPackData innermost).length + 4 + outer.length +
      (lengthsSize outer + valuesSize outer)), by simp; omega, by dsimp only; omega⟩

/-- A leaf entry whose root has no value to delete is packed when anything inserts. -/
theorem lePack_eq (ok : Packable ule) (several : ¬(ule.numCuxrs = 1 ∧ ule.numPuxrs = 0)) :
    lePack ule = (leMemsizeFromUle ule).bind fun memsize =>
      (invariant ((1 :: lePackMvcc ule).length = memsize)).bind fun _ =>
        some (some (1 :: lePackMvcc ule)) := by
  -- There is a value to find, and more than one record.
  obtain ⟨root, last, rootXid⟩ := ok.root
  obtain ⟨inserted, member, inserts⟩ := ok.hasInsert
  have positive : 0 < ule.cuxrs.length := by
    refine List.length_pos_of_ne_nil fun empty => ?_
    simp [empty] at last
  have found : (ule.cuxrs ++ ule.puxrs).any uxrIsInsert = true :=
    List.any_eq_true.mpr ⟨inserted, member, inserts⟩
  have nesting : ule.puxrs.length < maxTransactionRecords := ok.nesting
  simp only [lePack, Ule.numCuxrs, Ule.numPuxrs, invariant_of positive, last, invariant_of rootXid,
    found, invariant_of nesting, if_true, bind_runs] at several ⊢
  simp only [if_neg several]

/-- The bytes of a clean leaf entry read back. -/
theorem reads_clean {val : Bytes} (fits : val.length < 2 ^ (8 * 4)) :
    Reads leUnpackReader (0 :: (uintBytes 4 val.length ++ val))
      { puxrs := [], cuxrs := [{ type := .insert val, xid := txnidNone }] } :=
  (Reads.byte 0).bind ((Reads.uint 4 fits).bind ((Reads.bytes val).map fun val =>
    ({ puxrs := [], cuxrs := [{ type := .insert val, xid := txnidNone }] } : Ule)))

/-- A clean leaf entry always reads back. -/
theorem roundTrips_clean (ok : Packable ule) (clean : ule.numCuxrs = 1 ∧ ule.numPuxrs = 0) :
    RoundTrips ule := by
  obtain ⟨root, last, rootXid⟩ := ok.root
  obtain ⟨inserted, member, inserts⟩ := ok.hasInsert
  have lengths := ok.lengths
  rcases ule with ⟨puxrs, cuxrs⟩
  obtain ⟨only, rfl⟩ := List.length_eq_one_iff.mp clean.1
  have empty : puxrs = [] := List.length_eq_zero_iff.mp clean.2
  subst empty
  -- The only record is the root, and it inserts.
  simp only [List.getLast?_singleton, Option.some.injEq, List.append_nil,
    List.mem_singleton] at last member
  subst last member
  rcases inserted with ⟨type, xid⟩
  cases type with
  | delete => simp [uxrIsInsert] at inserts
  | placeholder => simp [uxrIsInsert] at inserts
  | insert val =>
    simp only at rootXid
    subst rootXid
    have valid : val.length < 2 ^ 31 := lengths { type := .insert val, xid := txnidNone } (by simp)
    have fits : val.length < 2 ^ (8 * 4) := by omega
    refine ⟨0 :: (uintBytes 4 val.length ++ val), ?_, ?_, fun trailing => ⟨?_, ?_⟩⟩
    · have size : (0 :: (uintBytes 4 val.length ++ val)).length = 1 + 4 + val.length := by
        simp only [List.length_cons, List.length_append, uintBytes_length]
        omega
      simp [lePack, leMemsizeFromUle, uxrIsInsert, uxrPackData, ← size]
    · simp [leMemsizeFromUle, uxrIsInsert, uxrPackData]
      omega
    · have read := Reads.uint 4 fits (val ++ trailing)
      have byte (rest : Bytes) : readByte.run (0 :: rest) = some (0, rest) := rfl
      simp only [leafentryMemsize, List.cons_append, List.append_assoc, byte, read, bind_runs,
        if_true, List.length_cons, List.length_append, uintBytes_length]
      congr 1
      omega
    · rw [leUnpack, reads_clean fits trailing]
      rfl

/-- A leaf entry with several records reads back when its fixed size fits a word. -/
theorem roundTrips_several (ok : Packable ule) (several : ¬(ule.numCuxrs = 1 ∧ ule.numPuxrs = 0))
    (fits : 12 * ule.numCuxrs + 8 * ule.numPuxrs < 2 ^ 32 + 2) : RoundTrips ule := by
  have based : ule.cuxrs ≠ [] := by
    obtain ⟨root, last, -⟩ := ok.root
    intro empty
    simp [empty] at last
  obtain ⟨rest, computed, written⟩ := leMemsizeFromUle_eq based several
  have positive : 0 < ule.numCuxrs := List.length_pos_of_ne_nil based
  rw [Nat.mod_eq_of_lt (by omega), ← written] at computed
  refine ⟨1 :: lePackMvcc ule, ?_, computed, fun trailing => ⟨?_, ?_⟩⟩
  · rw [lePack_eq ok several, computed]
    simp
  · have count : ule.cuxrs.length < 2 ^ (8 * 4) := by
      simp only [Ule.numCuxrs, Ule.numPuxrs] at fits
      omega
    have nested : (UInt8.ofNat ule.puxrs.length).toNat = ule.puxrs.length := ok.nested
    have nonempty : ule.cuxrs.length ≠ 0 := by simpa using based
    have byte (byte : UInt8) (rest : Bytes) : readByte.run (byte :: rest) = some (byte, rest) := rfl
    have counted := Reads.uint 4 count
      (UInt8.ofNat ule.puxrs.length :: (lePackRest ule ++ trailing))
    have stepped := ok.reads_rest trailing
    simp only [leafentryMemsize, leafentryRestMemsize, lePackMvcc, List.cons_append,
      List.append_assoc, List.nil_append, byte, counted, nested, invariant_of nonempty, stepped,
      bind_runs, if_true, List.length_cons, List.length_append, uintBytes_length,
      Nat.add_sub_cancel]
    simp
    omega
  · have read : leUnpackReader.run (1 :: lePackMvcc ule ++ trailing) = some (ule, trailing) :=
      (Reads.byte 1).bind ok.reads_mvcc trailing
    rw [leUnpack, read]
    rfl

/-- A leaf entry whose fixed size does not fit a word stops the process when it is packed. -/
theorem lePack_wraps (ok : Packable ule) (several : ¬(ule.numCuxrs = 1 ∧ ule.numPuxrs = 0))
    (large : ¬12 * ule.numCuxrs + 8 * ule.numPuxrs < 2 ^ 32 + 2) : lePack ule = none := by
  have based : ule.cuxrs ≠ [] := by
    obtain ⟨root, last, -⟩ := ok.root
    intro empty
    simp [empty] at last
  obtain ⟨rest, computed, written⟩ := leMemsizeFromUle_eq based several
  -- The computed size is short by the multiples of the word that were lost.
  have short : (12 * ule.numCuxrs + 8 * ule.numPuxrs - 2) % 2 ^ 32 <
      12 * ule.numCuxrs + 8 * ule.numPuxrs - 2 := by
    have bound := Nat.mod_lt (12 * ule.numCuxrs + 8 * ule.numPuxrs - 2) (y := 2 ^ 32) (by simp)
    omega
  have differ : ¬(1 :: lePackMvcc ule).length =
      (12 * ule.numCuxrs + 8 * ule.numPuxrs - 2) % 2 ^ 32 + rest := by
    rw [written]
    omega
  rw [lePack_eq ok several, computed, Option.bind_some, invariant, if_neg differ]
  rfl

/-- A leaf entry whose fixed size fits a word round trips. -/
theorem roundTrips_of_sizeFits {ule : Ule} (ok : Packable ule) :
    SizeFits ule → RoundTrips ule := by
  rintro (clean | fits)
  · exact roundTrips_clean ok clean
  · by_cases clean : ule.numCuxrs = 1 ∧ ule.numPuxrs = 0
    · exact roundTrips_clean ok clean
    · exact roundTrips_several ok clean fits

end Tokuft
