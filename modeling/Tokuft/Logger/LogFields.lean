import Tokuft.Logger.LogReader

/-! The bytes of a field: what is written for it has the size that is reserved, and reads back. -/

namespace Tokuft

open DigestReader

/-- The bytes of an integer of 64 bits, the high half first. -/
def ulonglongBytes (ull : UInt64) : Bytes :=
  uintBytes 4 (ull >>> (32 : UInt64)).toUInt32.toNat ++
    uintBytes 4 (ull &&& (0xFFFFFFFF : UInt64)).toUInt32.toNat

/-- The bytes of a value of some type. -/
def fieldBytes : (type : FieldType) → type.Value → Bytes
  | .uint8, (v : UInt8) => [v]
  | .bool, (b : Bool) => [if b then 1 else 0]
  | .uint32, (v : UInt32) => uintBytes 4 v.toNat
  | .uint64, v => ulonglongBytes v
  | .filenum, (fileid : UInt32) => uintBytes 4 fileid.toNat
  | .filenums, (v : List UInt32) => uintBytes 4 v.length.toUInt32.toNat ++
    v.flatMap fun fileid => uintBytes 4 fileid.toNat
  | .bytestring, (v : Bytes) => uintBytes 4 v.length.toUInt32.toNat ++ v
  | .blocknum, (b : Int64) => ulonglongBytes b.toUInt64
  | .lsn, lsn => ulonglongBytes lsn
  | .txnid, txnid => ulonglongBytes txnid
  | .txnidPair, (txnid : LoggedTxnidPair) =>
    ulonglongBytes txnid.parentId64 ++ ulonglongBytes txnid.childId64
  | .xidp, (xid : TokuXaXid) => uintBytes 4 xid.formatID.toUInt64.toUInt32.toNat ++
    ([xid.gtrid.length.toUInt8] ++ ([xid.bqual.length.toUInt8] ++ (xid.gtrid ++ xid.bqual)))

/-- The lengths of a value can be written down. -/
def Fits : (type : FieldType) → type.Value → Prop
  | .filenums, (v : List UInt32) => v.length < 2 ^ 32
  | .bytestring, (v : Bytes) => v.length < 2 ^ 32
  | .xidp, (xid : TokuXaXid) => xid.gtrid.length < 2 ^ 8 ∧ xid.bqual.length < 2 ^ 8
  | _, _ => True

/-- What is read where a value was written: format identifiers lose their high half. -/
def readBack : (type : FieldType) → type.Value → type.Value
  | .xidp, (xid : TokuXaXid) =>
    { xid with formatID := xid.formatID.toUInt64.toUInt32.toUInt64.toInt64 }
  | .uint8, v | .bool, v | .uint32, v | .uint64, v | .filenum, v | .filenums, v | .bytestring, v
  | .blocknum, v | .lsn, v | .txnid, v | .txnidPair, v => v

/-- The bytes of the values of all fields. -/
def fieldsBytes : (fields : List Field) → FieldValues fields → Bytes
  | [], _ => []
  | field :: fields, (value, values) => fieldBytes field.type value ++ fieldsBytes fields values

/-- The lengths of all values can be written down. -/
def FieldsFit : (fields : List Field) → FieldValues fields → Prop
  | [], _ => True
  | field :: fields, (value, values) => Fits field.type value ∧ FieldsFit fields values

section Sizes

/-- An integer of 64 bits takes eight bytes. -/
@[simp] theorem ulonglongBytes_length (ull : UInt64) : (ulonglongBytes ull).length = 8 := by
  simp [ulonglongBytes]

/-- A value takes as many bytes as are reserved for it, and its lengths can be written down. -/
theorem fieldBytes_length {type : FieldType} {value : type.Value} {size : Nat}
    (reserved : logsizeof type value = some size) :
    (fieldBytes type value).length = size ∧ (size < 2 ^ 32 → Fits type value) := by
  -- Types with a length in front take that many bytes more.
  cases type
  case filenums =>
    cases reserved
    have length : ∀ v : List UInt32,
        (v.flatMap fun fileid => uintBytes 4 fileid.toNat).length = v.length * 4 := by
      intro v
      induction v with
      | nil => rfl
      | cons fileid v ih =>
        rw [List.flatMap_cons, List.length_append, ih, uintBytes_length, List.length_cons]
        omega
    refine ⟨?_, fun bound => ?_⟩
    · show (uintBytes 4 _ ++ List.flatMap _ _).length = _
      rw [List.length_append, length, uintBytes_length]
    · show List.length (α := UInt32) value < 2 ^ 32
      have bound : 4 + List.length (α := UInt32) value * 4 < 2 ^ 32 := bound
      omega
  case bytestring =>
    cases reserved
    refine ⟨?_, fun bound => ?_⟩
    · show (uintBytes 4 _ ++ _).length = _
      rw [List.length_append, uintBytes_length]
    · show List.length (α := UInt8) value < 2 ^ 32
      have bound : 4 + List.length (α := UInt8) value < 2 ^ 32 := bound
      omega
  case xidp =>
    obtain ⟨gtrid, rest⟩ := of_invariant reserved
    obtain ⟨bqual, rest⟩ := of_invariant rest
    cases rest
    refine ⟨?_, fun _ => ⟨by omega, by omega⟩⟩
    simp only [fieldBytes, List.length_append, uintBytes_length, List.length_singleton]
    omega
  all_goals
    cases reserved
    exact ⟨by simp [fieldBytes], fun _ => trivial⟩

/-- All fields take as many bytes as are reserved for them. -/
theorem fieldsBytes_length : ∀ {fields : List Field} {values : FieldValues fields} {sizes : Nat},
    logsizeofFields fields values = some sizes →
      (fieldsBytes fields values).length = sizes ∧ (sizes < 2 ^ 32 → FieldsFit fields values) := by
  -- By induction on the fields.
  intro fields
  induction fields with
  | nil =>
    intro values sizes reserved
    cases reserved
    exact ⟨rfl, fun _ => trivial⟩
  | cons field fields ih =>
    rintro ⟨value, values⟩ sizes reserved
    obtain ⟨size, here, rest⟩ := of_bind reserved
    obtain ⟨others, there, rest⟩ := of_bind rest
    cases rest
    obtain ⟨length, fits⟩ := fieldBytes_length here
    obtain ⟨lengths, allFit⟩ := ih there
    refine ⟨?_, fun bound => ⟨fits (by omega), allFit (by omega)⟩⟩
    rw [fieldsBytes, List.length_append, length, lengths]

end Sizes

section Writing

/-- An integer of 64 bits is written as its halves. -/
theorem writes_ulonglong (ull : UInt64) : Writes (wbufNocrcUlonglong ull) (ulonglongBytes ull) :=
  (Writes.bytes _).andThen (Writes.bytes _)

/-- A value of any type is written as its bytes. -/
theorem writes_field (type : FieldType) (value : type.Value) :
    Writes (wbufNocrc type value) (fieldBytes type value) := by
  -- One case for each type.
  cases type
  case uint8 => exact Writes.bytes _
  case bool => exact Writes.bytes _
  case uint32 => exact Writes.bytes _
  case uint64 => exact writes_ulonglong value
  case filenum => exact Writes.bytes _
  case filenums => exact (Writes.bytes _).andThen (Writes.all fun _ _ => Writes.bytes _)
  case bytestring => exact (Writes.bytes _).andThen (Writes.bytes _)
  case blocknum => exact writes_ulonglong _
  case lsn => exact writes_ulonglong value
  case txnid => exact writes_ulonglong value
  case txnidPair => exact (writes_ulonglong _).andThen (writes_ulonglong _)
  case xidp =>
    exact (Writes.bytes _).andThen
      ((Writes.bytes _).andThen ((Writes.bytes _).andThen (Writes.bytes _)))

/-- The values of all fields are written one after another. -/
theorem writes_fields : ∀ (fields : List Field) (values : FieldValues fields),
    Writes (wbufNocrcFields fields values) (fieldsBytes fields values) := by
  intro fields
  induction fields with
  | nil => exact fun _ => Writes.nothing
  | cons field fields ih =>
    rintro ⟨value, values⟩
    exact (writes_field field.type value).andThen (ih values)

end Writing

section Reading

/-- The halves of an integer of 64 bits make it up. -/
theorem ulonglong_halves (ull : UInt64) :
    (((ull >>> (32 : UInt64)).toUInt32.toUInt64 <<< (32 : UInt64)) |||
      (ull &&& (0xFFFFFFFF : UInt64)).toUInt32.toUInt64) = ull := by
  apply UInt64.toNat_inj.mp
  have bound := ull.toNat_lt
  have shift : (32 : UInt64).toNat % 64 = 32 := by decide
  have mask : (0xFFFFFFFF : UInt64).toNat = 2 ^ 32 - 1 := by decide
  simp only [UInt64.toNat_or, UInt64.toNat_shiftLeft, UInt64.toNat_shiftRight,
    UInt32.toNat_toUInt64, UInt64.toNat_toUInt32, UInt64.toNat_and]
  rw [shift, mask, Nat.and_two_pow_sub_one_eq_mod, Nat.shiftRight_eq_div_pow, Nat.shiftLeft_eq,
    Nat.mod_mod]
  have high : ull.toNat / 2 ^ 32 % 2 ^ 32 = ull.toNat / 2 ^ 32 := by omega
  have fits : ull.toNat / 2 ^ 32 * 2 ^ 32 % 2 ^ 64 = ull.toNat / 2 ^ 32 * 2 ^ 32 := by omega
  -- The low half has no bit in common with the shifted high half.
  rw [high, fits, ← Nat.shiftLeft_eq,
    ← Nat.shiftLeft_add_eq_or_of_lt (Nat.mod_lt _ (by decide)), Nat.shiftLeft_eq]
  omega

/-- An integer is read back at the width it was written at. -/
theorem scans_uint (byte : LogFileReader UInt8) (cover : UInt8 → List UInt8)
    (each : ∀ b, Scans X1764.add byte [b] (cover b) b) (width : Nat) {value : Nat}
    (fits : value < 2 ^ (8 * width)) :
    Scans X1764.add (uintOf byte width) (uintBytes width value)
      ((uintBytes width value).flatMap cover) value := by
  -- By induction on the width: the lowest byte comes first.
  induction width generalizing value with
  | zero =>
    have zero : value = 0 := by simpa using fits
    subst zero
    exact Scans.pure 0
  | succ width ih =>
    have step : 2 ^ (8 * (width + 1)) = 2 ^ (8 * width) * 256 := by
      rw [Nat.mul_succ, Nat.pow_add]
    have high : value / 256 < 2 ^ (8 * width) := by omega
    have low : (UInt8.ofNat (value % 256)).toNat = value % 256 := by simp
    have whole : value % 256 + 256 * (value / 256) = value := Nat.mod_add_div value 256
    have tail : Scans X1764.add (do
        let high ← uintOf byte width
        pure ((UInt8.ofNat (value % 256)).toNat + 256 * high)) (uintBytes width (value / 256))
        ((uintBytes width (value / 256)).flatMap cover)
        ((UInt8.ofNat (value % 256)).toNat + 256 * (value / 256)) := (ih high).map _
    have read : Scans X1764.add (uintOf byte (width + 1))
        ([UInt8.ofNat (value % 256)] ++ uintBytes width (value / 256))
        (cover (UInt8.ofNat (value % 256)) ++ (uintBytes width (value / 256)).flatMap cover)
        ((UInt8.ofNat (value % 256)).toNat + 256 * (value / 256)) :=
      Scans.bind (each (UInt8.ofNat (value % 256))) tail
    rw [low, whole] at read
    exact read

/-- Bytes that all go to the checksum go there as they are. -/
theorem flatMap_single (bytes : Bytes) : (bytes.flatMap fun b => [b]) = bytes := by
  simp

/-- An integer of 32 bits is the same when it is taken as a natural number. -/
theorem toUInt32_toNat (v : UInt32) : v.toNat.toUInt32 = v := by simp

/-- An integer of 32 bits is read back. -/
theorem scans_uint32 (v : UInt32) :
    Scans X1764.add tokuFreadUint32 (uintBytes 4 v.toNat) (uintBytes 4 v.toNat) v := by
  have read := (scans_uint tokuFreadUint8 (fun b => [b]) (Scans.digestByte .eof) 4
    v.toNat_lt).map Nat.toUInt32
  rw [flatMap_single, toUInt32_toNat] at read
  exact read

/-- An integer of 32 bits outside of the checksum is read back. -/
theorem scans_uint32_nocrclen (v : UInt32) :
    Scans X1764.add tokuFreadUint32Nocrclen (uintBytes 4 v.toNat) [] v := by
  have read := (scans_uint (plainByte .eof) (fun _ => []) (Scans.plainByte .eof) 4
    v.toNat_lt).map Nat.toUInt32
  have uncovered : ((uintBytes 4 v.toNat).flatMap fun _ => ([] : Bytes)) = [] := by simp
  rw [uncovered, toUInt32_toNat] at read
  exact read

/-- An integer of 64 bits is read back. -/
theorem scans_uint64 (ull : UInt64) :
    Scans X1764.add tokuFreadUint64 (ulonglongBytes ull) (ulonglongBytes ull) ull := by
  have low := (scans_uint32 (ull &&& (0xFFFFFFFF : UInt64)).toUInt32).map fun v2 =>
    ((ull >>> (32 : UInt64)).toUInt32.toUInt64 <<< (32 : UInt64)) ||| v2.toUInt64
  rw [ulonglong_halves] at low
  exact Scans.bind (scans_uint32 (ull >>> (32 : UInt64)).toUInt32) low

/-- A truth value is read back. -/
theorem scans_bool (b : Bool) :
    Scans X1764.add tokuFreadBool [if b then 1 else 0] [if b then 1 else 0] b := by
  have read : Scans X1764.add tokuFreadBool [if b then 1 else 0] [if b then 1 else 0]
      ((if b then 1 else 0 : UInt8) != 0) := (Scans.digestByte LogReadError.eof _).map _
  cases b
  · exact read
  · exact read

/-- Bytes are read back one after another. -/
theorem scans_bytes (bytes : Bytes) :
    Scans X1764.add (many tokuFreadUint8 bytes.length) bytes bytes bytes := by
  have read : Scans X1764.add (many tokuFreadUint8 bytes.length) (bytes.flatMap fun b => [b])
      (bytes.flatMap fun b => [b]) (bytes.map fun b => b) :=
    Scans.many fun b _ => Scans.digestByte .eof b
  rw [flatMap_single, List.map_id'] at read
  exact read

/-- A length that can be written down is read back. -/
theorem toNat_toUInt32 {length : Nat} (fits : length < 2 ^ 32) :
    length.toUInt32.toNat = length := by
  simpa using Nat.mod_eq_of_lt fits

/-- A length of one byte is read back. -/
theorem toNat_toUInt8 {length : Nat} (fits : length < 2 ^ 8) : length.toUInt8.toNat = length := by
  simpa using Nat.mod_eq_of_lt fits

/-- A byte string is read back. -/
theorem scans_bytestring {v : Bytes} (fits : v.length < 2 ^ 32) :
    Scans X1764.add tokuFreadBytestring (uintBytes 4 v.length.toUInt32.toNat ++ v)
      (uintBytes 4 v.length.toUInt32.toNat ++ v) v := by
  have items := scans_bytes v
  rw [← toNat_toUInt32 fits] at items
  exact Scans.bind (scans_uint32 v.length.toUInt32) items

/-- File numbers are read back. -/
theorem scans_filenums {v : List UInt32} (fits : v.length < 2 ^ 32) :
    Scans X1764.add tokuFreadFilenums
      (uintBytes 4 v.length.toUInt32.toNat ++ v.flatMap fun fileid => uintBytes 4 fileid.toNat)
      (uintBytes 4 v.length.toUInt32.toNat ++ v.flatMap fun fileid => uintBytes 4 fileid.toNat)
      v := by
  -- The count comes first, and it is small enough to be exact in its word.
  have items : Scans X1764.add (many tokuFreadUint32 v.length)
      (v.flatMap fun fileid => uintBytes 4 fileid.toNat)
      (v.flatMap fun fileid => uintBytes 4 fileid.toNat) (v.map fun fileid => fileid) :=
    Scans.many fun fileid _ => scans_uint32 fileid
  rw [List.map_id', ← toNat_toUInt32 fits] at items
  have first := scans_uint32 v.length.toUInt32
  exact first.bind items

/-- The identifiers of a transaction are read back. -/
theorem scans_txnidPair (txnid : LoggedTxnidPair) :
    Scans X1764.add tokuFreadTxnidPair
      (ulonglongBytes txnid.parentId64 ++ ulonglongBytes txnid.childId64)
      (ulonglongBytes txnid.parentId64 ++ ulonglongBytes txnid.childId64) txnid := by
  have second := (scans_uint64 txnid.childId64).map fun child =>
    (⟨txnid.parentId64, child⟩ : LoggedTxnidPair)
  exact Scans.bind (scans_uint64 txnid.parentId64) second

/-- The name of a prepared transaction is read back, but for the high half of its format. -/
theorem scans_xidp {xid : TokuXaXid} (gtrid : xid.gtrid.length < 2 ^ 8)
    (bqual : xid.bqual.length < 2 ^ 8) :
    Scans X1764.add tokuFreadXidp (fieldBytes .xidp xid) (fieldBytes .xidp xid)
      (readBack .xidp xid) := by
  -- The format is written in four bytes of its eight.
  have gtrids := scans_bytes xid.gtrid
  have bquals := (scans_bytes xid.bqual).map fun bqual =>
    (⟨xid.formatID.toUInt64.toUInt32.toUInt64.toInt64, xid.gtrid, bqual⟩ : TokuXaXid)
  rw [← toNat_toUInt8 gtrid] at gtrids
  rw [← toNat_toUInt8 bqual] at bquals
  exact Scans.bind (scans_uint32 xid.formatID.toUInt64.toUInt32)
    (Scans.bind (Scans.digestByte .eof xid.gtrid.length.toUInt8)
      (Scans.bind (Scans.digestByte .eof xid.bqual.length.toUInt8)
        (Scans.bind gtrids bquals)))

/-- A value of any type is read back. -/
theorem scans_field (type : FieldType) (value : type.Value) (fits : Fits type value) :
    Scans X1764.add (tokuFread type) (fieldBytes type value) (fieldBytes type value)
      (readBack type value) := by
  -- Each type has its own reader.
  cases type
  case uint8 => exact Scans.digestByte .eof value
  case bool => exact scans_bool value
  case uint32 => exact scans_uint32 value
  case uint64 => exact scans_uint64 value
  case filenum => exact scans_uint32 value
  case filenums => exact scans_filenums fits
  case bytestring => exact scans_bytestring fits
  case blocknum => exact (scans_uint64 value.toUInt64).map UInt64.toInt64
  case lsn => exact scans_uint64 value
  case txnid => exact scans_uint64 value
  case txnidPair => exact scans_txnidPair value
  case xidp => exact scans_xidp fits.1 fits.2

/-- The values of all fields are read back. -/
theorem scans_fields : ∀ (fields : List Field) (values : FieldValues fields),
    FieldsFit fields values →
      Scans X1764.add (tokuFreadFields fields) (fieldsBytes fields values)
        (fieldsBytes fields values)
        (FieldValues.map (fun field => readBack field.type) fields values) := by
  intro fields
  induction fields with
  | nil => exact fun _ _ => Scans.pure ()
  | cons field fields ih =>
    rintro ⟨value, values⟩ ⟨fits, others⟩
    exact (scans_field field.type value fits).bind ((ih values others).map _)

end Reading

end Tokuft
