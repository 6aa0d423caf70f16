import Tokuft.Leafentry.Pack

/-! The bytes of a packed leaf entry read back as the leaf entry they were packed from. -/

namespace Tokuft

/-- A leaf entry that may be packed, with every field in the word the source keeps it in. -/
structure Packable (ule : Ule) : Prop where
  hasInsert : ∃ uxr ∈ ule.cuxrs ++ ule.puxrs, uxrIsInsert uxr = true
  root : ∃ root, ule.cuxrs.getLast? = some root ∧ root.xid = txnidNone
  nesting : ule.numPuxrs < maxTransactionRecords
  committed : ∀ uxr ∈ ule.cuxrs, uxrIsPlaceholder uxr = false
  innermost : ∀ uxr ∈ ule.puxrs.head?, uxrIsPlaceholder uxr = false
  lengths : ∀ uxr ∈ ule.cuxrs ++ ule.puxrs, isValidLen (uxrPackData uxr).length
  /-- Transactions are 64-bit words. -/
  words : ∀ uxr ∈ ule.cuxrs ++ ule.puxrs, uxr.xid < 2 ^ 64
  /-- Records are indexed by a 32-bit word. -/
  indexed : ule.numCuxrs + ule.numPuxrs < 2 ^ 32

/-- The header that announces a record. -/
def headerOf : Xr → XrHeader
  | .insert val => .insert val.length
  | .delete => .delete
  | .placeholder => .placeholder

variable {uxr : Uxr} {Value : Type}

/-- A length word gives back its insert bit and its length. -/
theorem insertLength_reads {length : Nat} (valid : isValidLen length) :
    isInsert (insertLength length) = true ∧ getLength (insertLength length) = length ∧
      insertLength length < 2 ^ 32 := by
  -- A valid length leaves the top bit of the word to the mark.
  have sum : insertLength length = 2 ^ 31 + length := by
    have split := Nat.two_pow_add_eq_or_of_lt valid 1
    rw [Nat.mul_one] at split
    exact split.symm
  have bit : (insertLength length).testBit 31 = true := by
    rw [sum, Nat.testBit_two_pow_add_eq]
    simp [Nat.testBit_lt_two_pow valid]
  have small : length < 2 ^ 31 := valid
  refine ⟨?_, ?_, by omega⟩
  · have marked : (insertLength length &&& 2 ^ 31).testBit 31 = true := by
      rw [Nat.testBit_and, bit, Nat.testBit_two_pow_self]; rfl
    rw [isInsert, bne_iff_ne]
    intro zero
    rw [zero, Nat.zero_testBit] at marked
    cases marked
  · rw [getLength, Nat.and_two_pow_sub_one_eq_mod, sum, Nat.add_mod_left, Nat.mod_eq_of_lt small]

/-- A length word announces the record it was written for. -/
theorem reads_lengthAndBit (solid : uxrIsPlaceholder uxr = false)
    (valid : isValidLen (uxrPackData uxr).length) :
    Reads uxrUnpackLengthAndBit (uxrPackLengthAndBit uxr) (headerOf uxr.type) := by
  -- One case for each type of record.
  rcases uxr with ⟨type, xid⟩
  cases type with
  | insert val =>
    have valid : isValidLen val.length := valid
    obtain ⟨inserts, length, fits⟩ := insertLength_reads valid
    have read := (Reads.uint 4 fits).map fun lengthAndBit =>
      if isInsert lengthAndBit then XrHeader.insert (getLength lengthAndBit) else .delete
    rwa [inserts, length] at read
  | delete =>
    have zero : (0 : Nat) < 2 ^ (8 * 4) := by decide
    exact (Reads.uint 4 zero).map fun lengthAndBit =>
      if isInsert lengthAndBit then XrHeader.insert (getLength lengthAndBit) else .delete
  | placeholder => simp [uxrIsPlaceholder] at solid

/-- The value that a header announces is read back. -/
theorem reads_data (uxr : Uxr) :
    Reads (uxrUnpackData (headerOf uxr.type)) (uxrPackData uxr) uxr.type := by
  rcases uxr with ⟨type, xid⟩
  cases type with
  | insert val => exact (Reads.bytes val).map Xr.insert
  | delete => exact Reads.pure Xr.delete
  | placeholder => exact Reads.pure Xr.placeholder

/-- The values that headers announce are read back in order. -/
theorem reads_allData (uxrs : List Uxr) :
    Reads (unpackAllData (uxrs.map fun uxr => headerOf uxr.type)) (uxrs.flatMap uxrPackData)
      (uxrs.map Uxr.type) := by
  induction uxrs with
  | nil => exact Reads.pure []
  | cons uxr rest ih =>
    exact (reads_data uxr).bind (ih.map fun types => uxr.type :: types)

/-- A type byte, length, and value are read back. -/
theorem reads_typeAndData (valid : isValidLen (uxrPackData uxr).length) :
    Reads uxrUnpackTypeAndData (uxrPackTypeAndLength uxr ++ uxrPackData uxr) uxr.type := by
  -- One case for each type of record.
  have header : Reads uxrUnpackTypeAndLength (uxrPackTypeAndLength uxr) (headerOf uxr.type) := by
    rcases uxr with ⟨type, xid⟩
    cases type with
    | insert val =>
      have fits : val.length < 2 ^ (8 * 4) := by
        have small : val.length < 2 ^ 31 := valid
        omega
      exact (Reads.byte 1).bind ((Reads.uint 4 fits).map XrHeader.insert)
    | delete => exact (Reads.byte 2).bind (Reads.pure XrHeader.delete)
    | placeholder => exact (Reads.byte 3).bind (Reads.pure XrHeader.placeholder)
  exact header.bind (reads_data uxr)

/-- A transaction identifier is read back. -/
theorem reads_txnid (word : uxr.xid < 2 ^ 64) :
    Reads uxrUnpackTxnid (uxrPackTxnid uxr) uxr.xid := Reads.uint 8 word

/-- A middle provisional record is read back. -/
theorem reads_middle (word : uxr.xid < 2 ^ 64) (valid : isValidLen (uxrPackData uxr).length) :
    Reads uxrUnpackMiddle (uxrPackMiddle uxr) uxr := by
  rw [uxrPackMiddle, List.append_assoc]
  exact (reads_txnid word).bind
    ((reads_typeAndData valid).map fun type => ({ type, xid := uxr.xid } : Uxr))

/-- One more value is read exactly when there are provisional records. -/
theorem reads_whenProvisional {puxrs : List Uxr} {absent : Value} {reader : Reader Value}
    {located : Option Uxr} {pack : Uxr → Bytes} {view : Uxr → Value}
    (present : puxrs ≠ [] → ∃ uxr, located = some uxr ∧ Reads reader (pack uxr) (view uxr))
    (missing : puxrs = [] → located = none) :
    Reads (whenProvisional puxrs.length absent reader) (located.elim [] pack)
      (located.elim absent view) := by
  by_cases empty : puxrs = []
  · simpa [empty, missing empty, whenProvisional] using Reads.pure absent
  · obtain ⟨uxr, rfl, reads⟩ := present empty
    have positive : puxrs.length ≠ 0 := by simpa using empty
    simpa [whenProvisional, positive] using reads

/-- The provisional records are read back from what the header leaves over. -/
theorem reads_provisional {puxrs : List Uxr}
    (lengths : ∀ uxr ∈ puxrs, isValidLen (uxrPackData uxr).length)
    (words : ∀ uxr ∈ puxrs, uxr.xid < 2 ^ 64) :
    Reads (leUnpackProvisional puxrs.length (puxrs.getLast?.elim txnidNone Uxr.xid)
        (puxrs.head?.elim .delete Uxr.type)) (lePackProvisional puxrs) puxrs := by
  match puxrs with
  | [] => exact Reads.pure []
  | [uxr] => exact Reads.pure [uxr]
  | innermost :: next :: outer =>
    -- The outermost record comes first, the middle ones follow it, the innermost comes last.
    obtain ⟨between, outermost, split⟩ : ∃ between outermost, next :: outer =
        between ++ [outermost] := by
      rcases List.eq_nil_or_concat (next :: outer) with empty | ⟨front, last, split⟩
      · cases empty
      · exact ⟨front, last, by simpa using split⟩
    rw [split] at lengths words ⊢
    have first := reads_typeAndData (lengths outermost (by simp))
    have middle : Reads (readMany uxrUnpackMiddle between.reverse.length)
        (between.reverse.flatMap uxrPackMiddle) (between.reverse.map id) :=
      Reads.many fun uxr member => reads_middle (words uxr (by simp at member; simp [member]))
        (lengths uxr (by simp at member; simp [member]))
    have last := reads_txnid (words innermost (by simp))
    have packed : lePackProvisional (innermost :: (between ++ [outermost])) =
        (uxrPackTypeAndLength outermost ++ uxrPackData outermost) ++
          (between.reverse.flatMap uxrPackMiddle ++ uxrPackTxnid innermost) := by
      rw [← split, lePackProvisional, split]
      simp
    have size : (innermost :: (between ++ [outermost])).length = between.reverse.length + 2 := by
      simp
    have deepest : (innermost :: (between ++ [outermost])).getLast? = some outermost := by
      rw [← List.cons_append, List.getLast?_concat]
    rw [packed, size, deepest]
    simp only [leUnpackProvisional, List.head?_cons, Option.elim_some]
    refine first.bind (middle.bind ?_)
    simpa using last.map fun innermostXid =>
      ({ type := innermost.type, xid := innermostXid } : Uxr) ::
        (between ++ [{ type := outermost.type, xid := outermost.xid }])

/-- A check that holds reads nothing. -/
theorem reads_invariant {holds : Prop} [Decidable holds] {next : Unit → Reader Value}
    {bytes : Bytes} {value : Value} (h : holds) (reads : Reads (next ()) bytes value) :
    Reads (StateT.lift (invariant holds) >>= next) bytes value := by
  have check : Reads (StateT.lift (invariant holds) : Reader Unit) [] () := by
    intro rest
    simp [StateT.lift, StateT.run, h]
  exact check.bind reads

/-- The parts of a stack that are stored in order follow the counts in the same order. -/
theorem lePackRest_eq (ule : Ule) : lePackRest ule =
    ule.puxrs.getLast?.elim [] uxrPackTxnid ++ (ule.cuxrs.dropLast.flatMap uxrPackTxnid ++
    (ule.puxrs.head?.elim [] uxrPackLengthAndBit ++ (ule.cuxrs.flatMap uxrPackLengthAndBit ++
    (ule.puxrs.head?.elim [] uxrPackData ++ (ule.cuxrs.flatMap uxrPackData ++
    lePackProvisional ule.puxrs))))) := by
  simp [lePackRest]

/-- The outermost provisional transaction is read back. -/
theorem reads_outermost {ule : Ule} {absent : Value} {reader : Reader Value} {view : Uxr → Value}
    (each : ∀ uxr ∈ ule.puxrs, Reads reader (uxrPackTxnid uxr) (view uxr)) :
    Reads (whenProvisional ule.puxrs.length absent reader)
      (ule.puxrs.getLast?.elim [] uxrPackTxnid) (ule.puxrs.getLast?.elim absent view) :=
  reads_whenProvisional
    (fun present => ⟨ule.puxrs.getLast present, List.getLast?_eq_some_getLast present,
      each _ (List.getLast_mem present)⟩)
    (fun empty => by simp [empty])

/-- The innermost provisional value is read back. -/
theorem reads_innermostData (ule : Ule) :
    Reads (uxrUnpackData (ule.puxrs.head?.elim .delete fun uxr => headerOf uxr.type))
      (ule.puxrs.head?.elim [] uxrPackData) (ule.puxrs.head?.elim .delete Uxr.type) := by
  cases ule.puxrs with
  | nil => exact Reads.pure Xr.delete
  | cons uxr outer => exact reads_data uxr

section Body

variable {ule : Ule} (ok : Packable ule)

include ok

/-- The number of provisional records fits the byte it is stored in. -/
theorem Packable.nested : (UInt8.ofNat ule.puxrs.length).toNat = ule.puxrs.length := by
  have nesting := ok.nesting
  simp only [Ule.numPuxrs, maxTransactionRecords, maxNestedTransactions] at nesting
  simp only [UInt8.toNat_ofNat']
  omega

/-- The innermost provisional length word is read back. -/
theorem Packable.reads_innermostLength :
    Reads (whenProvisional ule.puxrs.length .delete uxrUnpackLengthAndBit)
      (ule.puxrs.head?.elim [] uxrPackLengthAndBit)
      (ule.puxrs.head?.elim .delete fun uxr => headerOf uxr.type) :=
  reads_whenProvisional
    (fun present => by
      obtain ⟨uxr, outer, shape⟩ := List.exists_cons_of_ne_nil present
      have valid := ok.lengths uxr (by simp [shape])
      have solid := ok.innermost uxr (by simp [shape])
      exact ⟨uxr, by simp [shape], reads_lengthAndBit solid valid⟩)
    (fun empty => by simp [empty])

/-- The committed length words are read back. -/
theorem Packable.reads_lengths :
    Reads (readMany uxrUnpackLengthAndBit ule.cuxrs.length)
      (ule.cuxrs.flatMap uxrPackLengthAndBit) (ule.cuxrs.map fun uxr => headerOf uxr.type) :=
  Reads.many fun uxr member =>
    reads_lengthAndBit (ok.committed uxr member) (ok.lengths uxr (by simp [member]))

/-- The body of a leaf entry is read back. -/
theorem Packable.reads_mvcc : Reads leUnpackMvcc (lePackMvcc ule) ule := by
  obtain ⟨root, last, rootXid⟩ := ok.root
  have count : ule.cuxrs.length < 2 ^ (8 * 4) := by
    have indexed := ok.indexed
    simp only [Ule.numCuxrs, Ule.numPuxrs] at indexed
    omega
  have nested := ok.nested
  have nonempty : ule.cuxrs.length ≠ 0 := by
    intro empty
    rw [List.length_eq_zero_iff.mp empty] at last
    cases last
  have split : ule.cuxrs.dropLast ++ [root] = ule.cuxrs := List.dropLast_append_getLast? root last
  have xids : Reads (readMany uxrUnpackTxnid ule.cuxrs.dropLast.length)
      (ule.cuxrs.dropLast.flatMap uxrPackTxnid) (ule.cuxrs.dropLast.map Uxr.xid) :=
    Reads.many fun uxr member =>
      reads_txnid (ok.words uxr (by simp [List.dropLast_subset _ member]))
  rw [List.length_dropLast] at xids
  have lengths : ∀ uxr ∈ ule.puxrs, isValidLen (uxrPackData uxr).length :=
    fun uxr member => ok.lengths uxr (by simp [member])
  have words : ∀ uxr ∈ ule.puxrs, uxr.xid < 2 ^ 64 :=
    fun uxr member => ok.words uxr (by simp [member])
  have provisional := reads_provisional lengths words
  -- The types and the transactions of the committed records meet again in order.
  have committed : (ule.cuxrs.map Uxr.type).zipWith Uxr.mk
      (ule.cuxrs.dropLast.map Uxr.xid ++ [txnidNone]) = ule.cuxrs := by
    have ids : ule.cuxrs.dropLast.map Uxr.xid ++ [txnidNone] = ule.cuxrs.map Uxr.xid := by
      rw [← rootXid, ← List.map_singleton (f := Uxr.xid), ← List.map_append, split]
    rw [ids, List.zipWith_map, List.zipWith_self]
    simp
  rw [lePackMvcc, lePackRest_eq, List.append_assoc]
  refine (Reads.uint 4 count).bind (reads_invariant nonempty ?_)
  refine (Reads.byte _).bind ?_
  simp only [nested]
  refine (reads_outermost fun uxr member =>
    reads_txnid (ok.words uxr (by simp [member]))).bind (xids.bind ?_)
  refine ok.reads_innermostLength.bind (ok.reads_lengths.bind ?_)
  refine (reads_innermostData ule).bind ((reads_allData ule.cuxrs).bind ?_)
  simp only [committed]
  exact provisional.map fun puxrs => Ule.mk puxrs ule.cuxrs

/-- Measuring steps over exactly what follows the counts. -/
theorem Packable.reads_rest :
    Reads (leafentryRest ule.puxrs.length ule.cuxrs.length) (lePackRest ule) () := by
  have txnids : (ule.cuxrs.dropLast.flatMap uxrPackTxnid).length =
      (ule.cuxrs.length - 1) * 8 := by
    simp [List.length_flatMap, uxrPackTxnid, List.map_const']
  -- The headers announce exactly the values that follow them.
  have announced : ∀ uxrs : List Uxr, (uxrs.flatMap uxrPackData).length =
      ((uxrs.map fun uxr => headerOf uxr.type).map XrHeader.vallen).sum := by
    intro uxrs
    rw [List.length_flatMap, List.map_map]
    refine congrArg List.sum (List.map_congr_left fun uxr _ => ?_)
    rcases uxr with ⟨type, xid⟩
    cases type <;> rfl
  have innermost : (ule.puxrs.head?.elim [] uxrPackData).length =
      (ule.puxrs.head?.elim .delete fun uxr => headerOf uxr.type).vallen := by
    cases ule.puxrs with
    | nil => rfl
    | cons uxr outer => simpa using announced [uxr]
  rw [lePackRest_eq]
  have outermost : Reads (whenProvisional ule.puxrs.length () (skipBytes 8))
      (ule.puxrs.getLast?.elim [] uxrPackTxnid) (ule.puxrs.getLast?.elim () fun _ => ()) :=
    reads_outermost fun uxr _ => Reads.skip (by simp [uxrPackTxnid])
  refine outermost.bind ((Reads.skip txnids).bind ?_)
  refine ok.reads_innermostLength.bind (ok.reads_lengths.bind ?_)
  rw [← List.append_assoc]
  refine (Reads.skip (by rw [List.length_append, innermost, announced])).bind ?_
  have lengths : ∀ uxr ∈ ule.puxrs, isValidLen (uxrPackData uxr).length :=
    fun uxr member => ok.lengths uxr (by simp [member])
  have words : ∀ uxr ∈ ule.puxrs, uxr.xid < 2 ^ 64 :=
    fun uxr member => ok.words uxr (by simp [member])
  -- What is left are the provisional records, and stepping over them reads them.
  have provisional := reads_provisional lengths words
  generalize ule.puxrs = puxrs at provisional
  match puxrs with
  | [] => exact Reads.pure ()
  | [uxr] => exact Reads.pure ()
  | innermost :: next :: outer =>
    intro rest
    have read := provisional rest
    simp only [List.length_cons, leUnpackProvisional, StateT.run_bind, bind_inv,
      Prod.exists] at read
    obtain ⟨outermost, left, first, middle, remaining, second, xid, final, third, done⟩ := read
    simp only [StateT.run_pure, Option.pure_def, Option.some.injEq, Prod.mk.injEq] at done
    simp [StateT.run_bind, first, second, third, done.2]

end Body

end Tokuft
