import Tokuft.Locktree.RangeBuffer

/-! Appended ranges as records in the chunks of an arena, and what reading one record gives. -/

namespace Tokuft

/-- A call of append: what memory holds at the time, and the ends it is given. -/
structure RangeAppend where
  memory : Nat → UInt8
  left : KeyPointer
  right : KeyPointer

namespace RangeAppend

/-- The range that the caller means. -/
def range (append : RangeAppend) : Endpoint × Endpoint :=
  (append.left.endpoint append.memory, append.right.endpoint append.memory)

/-- The record that is written. -/
def record (append : RangeAppend) : Bytes :=
  if append.left.equals append.right then RangeBuffer.pointRecord append.memory append.left
  else RangeBuffer.rangeRecord append.memory append.left append.right

/-- Keys are no longer than the limit. -/
def Fits (append : RangeAppend) : Prop :=
  append.left.size ≤ maxKeySize ∧ append.right.size ≤ maxKeySize

/-- Keys are shorter than the limit, so that two bytes hold their lengths. -/
def Short (append : RangeAppend) : Prop :=
  append.left.size < maxKeySize ∧ append.right.size < maxKeySize

instance (append : RangeAppend) : Decidable append.Short :=
  inferInstanceAs (Decidable (_ ∧ _))

end RangeAppend

namespace Endpoint

/-- The key of a finite end, or else the one that a record object kept. -/
def keyOr (kept : Option Bytes) : Endpoint → Option Bytes
  | key bytes => some bytes
  | _ => kept

/-- The right key of a record: an empty one is the mark of a point, an infinite
end keeps its key. -/
def rightKeyOr (leftKey kept : Option Bytes) : Endpoint → Option Bytes
  | key [] => leftKey
  | key bytes => some bytes
  | _ => kept

/-- What a right end is read as: an empty key is taken for the left one. -/
def readRight (leftKey : Option Bytes) : Endpoint → Option Endpoint
  | key [] => leftKey.map .key
  | finite => some finite

variable {leftKey kept : Option Bytes} {bytes : Bytes}

/-- A right key that is not empty is read as itself. -/
theorem rightKeyOr_key (present : bytes ≠ []) :
    (key bytes).rightKeyOr leftKey kept = some bytes := by
  cases bytes with
  | nil => exact absurd rfl present
  | cons byte rest => rfl

/-- A right end whose key is not empty is read as itself. -/
theorem readRight_key (present : bytes ≠ []) :
    (key bytes).readRight leftKey = some (key bytes) := by
  cases bytes with
  | nil => exact absurd rfl present
  | cons byte rest => rfl

end Endpoint

namespace RangeBuffer

/-- Append all ranges to a buffer, in order. -/
def appendAll (policy : ChunkPolicy) (buffer : RangeBuffer) (appends : List RangeAppend) :
    Option RangeBuffer :=
  appends.foldlM (fun buffer call => buffer.append policy call.memory call.left call.right) buffer

variable {policy : ChunkPolicy} {buffer : RangeBuffer} {call : RangeAppend}

/-- Appending a range whose keys fit writes its record. -/
theorem append_fits (fits : call.Fits) :
    buffer.append policy call.memory call.left call.right =
      some ⟨buffer.arena.mallocFromArena policy call.record,
        (buffer.numRanges + 1).bmod (2 ^ 32)⟩ := by
  rw [RangeBuffer.append, invariant, if_pos fits.1, RangeAppend.record]
  by_cases point : call.left.equals call.right
  · simp [point]
  · simp [point, invariant, fits.2]

end RangeBuffer

namespace KeyPointer

variable {memory : Nat → UInt8}

/-- A key has as many bytes as its size says. -/
@[simp] theorem length_bytes (key : KeyPointer) : (key.bytes memory).length = key.size := by
  cases key <;> simp [bytes, size]

/-- A key of some size has bytes. -/
theorem bytes_ne_nil (memory : Nat → UInt8) (data size : Nat) :
    (key data (size + 1)).bytes memory ≠ [] := by
  intro none
  have length : ((key data (size + 1)).bytes memory).length = size + 1 := length_bytes _
  rw [none] at length
  cases length

end KeyPointer

namespace RecordHeader

/-- A header is read back when its sizes fit. -/
theorem reads (header : RecordHeader) (left : header.leftKeySize < 2 ^ 16)
    (right : header.rightKeySize < 2 ^ 16) : Reads deserialize header.serialize header := by
  have flag : ∀ flag : Bool, (flag.toUInt8 != 0) = flag := by decide
  have shape : header.serialize = [header.leftNegInf.toUInt8] ++ ([header.leftPosInf.toUInt8] ++
      ([header.rightPosInf.toUInt8] ++ ([header.rightNegInf.toUInt8] ++
        (uintBytes 2 header.leftKeySize ++ (uintBytes 2 header.rightKeySize ++ []))))) := by
    simp [serialize]
  rw [shape, deserialize]
  -- Four flags and two sizes are taken off one after the other.
  apply (Reads.byte _).bind
  apply (Reads.byte _).bind
  apply (Reads.byte _).bind
  apply (Reads.byte _).bind
  apply (Reads.uint 2 left).bind
  apply (Reads.uint 2 right).bind
  rw [flag, flag, flag, flag]
  exact Reads.pure header

/-- A header takes its size. -/
@[simp] theorem length_serialize (header : RecordHeader) :
    header.serialize.length = RecordHeader.bytes := by
  simp [serialize, RecordHeader.bytes]

variable {left right : KeyPointer}

/-- The left end of a header is infinite when that of its range is. -/
@[simp] theorem init_leftIsInfinite (right : Option KeyPointer) :
    (init left right).leftIsInfinite = left.isInfinite := by
  cases right <;> cases left <;> rfl

/-- The right end of a header is infinite when that of its range is. -/
@[simp] theorem init_rightIsInfinite :
    (init left (some right)).rightIsInfinite = right.isInfinite := by
  cases right <;> rfl

/-- The right end of a point is its left one. -/
@[simp] theorem init_point : (init left none).rightIsInfinite = left.isInfinite := by
  cases left <;> rfl

end RecordHeader

namespace RangeBuffer.Record

variable {record : Record} {call : RangeAppend}

/-- The object after reading the record of a range. -/
def after (record : Record) (call : RangeAppend) : Record :=
  let leftKey := call.range.1.keyOr record.leftKey
  { header := .init call.left (if call.left.equals call.right then none else some call.right)
    leftKey
    rightKey := call.range.2.rightKeyOr leftKey record.rightKey }

/-- A key is read into the object. -/
theorem reads_key (bytes : Bytes) : Reads (some <$> readBytes bytes.length) bytes (some bytes) := by
  intro rest
  rw [StateT.run_map, Reads.bytes bytes rest]
  rfl

/-- The left key of a record is read when it is finite. -/
theorem reads_left {left : KeyPointer} (memory : Nat → UInt8) (kept : Option Bytes)
    (right : Option KeyPointer) (short : left.size < maxKeySize) :
    Reads (readLeftKey (.init left right) kept) (left.bytes memory)
      ((left.endpoint memory).keyOr kept) := by
  -- Below the limit the size fits in the two bytes that are written for it.
  have stored : (RecordHeader.init left right).leftKeySize = left.size := by
    cases right <;> exact Nat.mod_eq_of_lt short
  rw [readLeftKey, RecordHeader.init_leftIsInfinite, stored]
  cases left with
  | negativeInfinity => exact Reads.pure kept
  | positiveInfinity => exact Reads.pure kept
  | key data size =>
    have read := reads_key ((KeyPointer.key data size).bytes memory)
    rw [KeyPointer.length_bytes] at read
    exact read

/-- The right key of a range is read when it is finite and not empty. -/
theorem reads_right {right : KeyPointer} (memory : Nat → UInt8) (left : KeyPointer)
    (leftKey kept : Option Bytes) (short : right.size < maxKeySize) :
    Reads (readRightKey (.init left (some right)) leftKey kept) (right.bytes memory)
      ((right.endpoint memory).rightKeyOr leftKey kept) := by
  -- Below the limit the size fits in the two bytes that are written for it.
  have stored : (RecordHeader.init left (some right)).rightKeySize = right.size :=
    Nat.mod_eq_of_lt short
  rw [readRightKey, RecordHeader.init_rightIsInfinite, stored]
  cases right with
  | negativeInfinity => exact Reads.pure kept
  | positiveInfinity => exact Reads.pure kept
  | key data size =>
    have read := reads_key ((KeyPointer.key data size).bytes memory)
    rw [KeyPointer.length_bytes] at read
    cases size with
    | zero => exact Reads.pure leftKey
    | succ size =>
      rw [KeyPointer.endpoint, Endpoint.rightKeyOr_key (KeyPointer.bytes_ne_nil memory data size)]
      exact read

/-- The right key of a point is its left one, of which there is one copy. -/
theorem reads_point (memory : Nat → UInt8) (left : KeyPointer) (leftKept kept : Option Bytes) :
    Reads (readRightKey (.init left none) ((left.endpoint memory).keyOr leftKept) kept) []
      ((left.endpoint memory).rightKeyOr ((left.endpoint memory).keyOr leftKept) kept) := by
  rw [readRightKey, RecordHeader.init_point]
  cases left with
  | negativeInfinity => exact Reads.pure kept
  | positiveInfinity => exact Reads.pure kept
  | key data size =>
    cases size with
    | zero => exact Reads.pure _
    | succ size =>
      rw [KeyPointer.endpoint, Endpoint.rightKeyOr_key (KeyPointer.bytes_ne_nil memory data size)]
      exact Reads.pure _

/-- A record is read back into the object when its lengths fit into two bytes. -/
theorem reads (short : call.Short) (record : Record) :
    Reads record.deserialize call.record (record.after call) := by
  obtain ⟨memory, left, right⟩ := call
  obtain ⟨leftShort, rightShort⟩ := short
  have fits : ∀ key : KeyPointer, key.size % 2 ^ 16 < 2 ^ 16 := fun key =>
    Nat.mod_lt _ (by decide)
  rw [deserialize, RangeAppend.record]
  by_cases point : left.equals right
  · -- A point has no bytes after its left key.
    have same : left = right := of_decide_eq_true point
    subst same
    have header := RecordHeader.reads (.init left none) (fits left) (Nat.two_pow_pos 16)
    have bytes : RangeBuffer.pointRecord memory left =
        (RecordHeader.init left none).serialize ++ (left.bytes memory ++ ([] ++ [])) := by
      simp [RangeBuffer.pointRecord]
    rw [if_pos point, bytes]
    apply header.bind
    apply (reads_left memory record.leftKey none leftShort).bind
    apply (reads_point memory left record.leftKey record.rightKey).bind
    rw [after, if_pos point]
    exact Reads.pure _
  · -- A range has the bytes of both keys.
    have header := RecordHeader.reads (.init left (some right)) (fits left) (fits right)
    have bytes : RangeBuffer.rangeRecord memory left right =
        (RecordHeader.init left (some right)).serialize ++
          (left.bytes memory ++ (right.bytes memory ++ [])) := by
      simp [RangeBuffer.rangeRecord]
    rw [if_neg point, bytes]
    apply header.bind
    apply (reads_left memory record.leftKey (some right) leftShort).bind
    apply (reads_right memory left _ record.rightKey rightShort).bind
    rw [after, if_neg point]
    exact Reads.pure _

/-- The left end that is read is the one that was appended. -/
theorem getLeftKey_after (record : Record) (call : RangeAppend) :
    (record.after call).getLeftKey = some call.range.1 := by
  obtain ⟨memory, left, right⟩ := call
  have flags : ∀ right : Option KeyPointer,
      (RecordHeader.init left right).leftNegInf = decide (left = .negativeInfinity) ∧
      (RecordHeader.init left right).leftPosInf = decide (left = .positiveInfinity) := by
    intro right
    cases right <;> exact ⟨rfl, rfl⟩
  rw [getLeftKey, after, (flags _).1, (flags _).2]
  cases left <;> rfl

/-- The right end that is read is the one that was appended, unless its key is empty. -/
theorem getRightKey_after (record : Record) (call : RangeAppend) :
    (record.after call).getRightKey =
      call.range.2.readRight (call.range.1.keyOr record.leftKey) := by
  obtain ⟨memory, left, right⟩ := call
  have flags : (RecordHeader.init left (if left.equals right then none else some right)).rightNegInf
        = decide (right = .negativeInfinity) ∧
      (RecordHeader.init left (if left.equals right then none else some right)).rightPosInf
        = decide (right = .positiveInfinity) := by
    by_cases point : left.equals right
    · have same : left = right := of_decide_eq_true point
      subst same
      rw [if_pos point]
      exact ⟨rfl, rfl⟩
    · rw [if_neg point]
      exact ⟨rfl, rfl⟩
  rw [getRightKey, after, flags.1, flags.2]
  cases right with
  | negativeInfinity => rfl
  | positiveInfinity => rfl
  | key data size =>
    -- Only an empty right key is taken for the left one.
    cases size with
    | zero => rfl
    | succ size =>
      have present := KeyPointer.bytes_ne_nil memory data size
      rw [RangeAppend.range, KeyPointer.endpoint, Endpoint.rightKeyOr_key present,
        Endpoint.readRight_key present]
      rfl

/-- The next record is where the one that was read ends. -/
theorem size_after (short : call.Short) (record : Record) :
    (record.after call).size = call.record.length := by
  obtain ⟨memory, left, right⟩ := call
  have leftSize := Nat.mod_eq_of_lt short.1
  have rightSize := Nat.mod_eq_of_lt short.2
  rw [size, after, RangeAppend.record]
  by_cases point : left.equals right
  · have sizes : (RecordHeader.init left none).leftKeySize = left.size ∧
        (RecordHeader.init left none).rightKeySize = 0 := ⟨leftSize, rfl⟩
    rw [if_pos point, if_pos point]
    simp only [sizes, RangeBuffer.pointRecord, List.length_append, KeyPointer.length_bytes,
      RecordHeader.length_serialize, Nat.add_zero]
  · have sizes : (RecordHeader.init left (some right)).leftKeySize = left.size ∧
        (RecordHeader.init left (some right)).rightKeySize = right.size := ⟨leftSize, rightSize⟩
    rw [if_neg point, if_neg point]
    simp only [sizes, RangeBuffer.rangeRecord, List.length_append, KeyPointer.length_bytes,
      RecordHeader.length_serialize]

/-- What a record object kept is no longer than two bytes can say, which reading preserves. -/
def Short (record : Record) : Prop := ∀ key ∈ record.leftKey, key.length < maxKeySize

variable {bytes rest : Bytes}

/-- A key that is read has a length of two bytes. -/
theorem length_of_read {size : Nat} {key : Option Bytes}
    (read : (some <$> readBytes size : Reader (Option Bytes)).run bytes = some (key, rest)) :
    ∃ found, key = some found ∧ found.length = size := by
  rw [StateT.run_map] at read
  obtain ⟨⟨found, middle⟩, taken, done⟩ := Option.map_eq_some_iff.mp read
  cases done
  rw [← @List.drop_zero _ bytes] at taken
  exact ⟨found, rfl, (readBytes_inv taken).2.1⟩

/-- The sizes in a header are of two bytes. -/
theorem sizes_of_read {header : RecordHeader}
    (read : RecordHeader.deserialize.run bytes = some (header, rest)) :
    header.leftKeySize < maxKeySize ∧ header.rightKeySize < maxKeySize := by
  obtain ⟨_, _, _, read⟩ := run_bind_inv read
  obtain ⟨_, _, _, read⟩ := run_bind_inv read
  obtain ⟨_, _, _, read⟩ := run_bind_inv read
  obtain ⟨_, _, _, read⟩ := run_bind_inv read
  obtain ⟨_, _, left, read⟩ := run_bind_inv read
  obtain ⟨_, _, right, done⟩ := run_bind_inv read
  cases done
  exact ⟨readUint_lt left, readUint_lt right⟩

/-- Whatever is read, no key is longer than two bytes can say. -/
theorem short_of_read {after : Record} (short : record.Short)
    (read : record.deserialize.run bytes = some (after, rest)) :
    after.Short ∧ ∀ key, after.getRightKey = some (.key key) → key.length < maxKeySize := by
  obtain ⟨header, _, first, read⟩ := run_bind_inv read
  obtain ⟨leftKey, _, left, read⟩ := run_bind_inv read
  obtain ⟨rightKey, _, right, done⟩ := run_bind_inv read
  cases done
  obtain ⟨leftSize, rightSize⟩ := sizes_of_read first
  -- The left key is one that was read, or the one that was kept.
  have leftShort : ∀ key ∈ leftKey, key.length < maxKeySize := by
    intro key held
    rw [readLeftKey] at left
    split at left
    · obtain ⟨found, rfl, length⟩ := length_of_read left
      cases held
      omega
    · cases left
      exact short key held
  refine ⟨leftShort, fun key found => ?_⟩
  -- The right key of a finite end is one that was read, or the left one.
  rw [readRightKey] at right
  rw [getRightKey] at found
  by_cases finite : header.rightIsInfinite
  · have infinite : header.rightNegInf || header.rightPosInf := finite
    cases negative : header.rightNegInf <;> simp_all
  · have ends : header.rightNegInf = false ∧ header.rightPosInf = false := by
      simpa [RecordHeader.rightIsInfinite] using finite
    simp only [ends.1, ends.2, Bool.false_eq_true, if_false, Option.map_eq_some_iff,
      Endpoint.key.injEq] at found
    obtain ⟨_, held, rfl⟩ := found
    rw [if_pos (by simpa using finite)] at right
    split at right
    · cases right
      exact leftShort _ held
    · obtain ⟨found, rfl, length⟩ := length_of_read right
      cases held
      omega

/-- A left end that is read has a key no longer than two bytes can say. -/
theorem length_getLeftKey (short : record.Short) {key : Bytes}
    (found : record.getLeftKey = some (.key key)) : key.length < maxKeySize := by
  rw [getLeftKey] at found
  split at found
  · cases found
  · split at found
    · cases found
    · obtain ⟨_, held, same⟩ := Option.map_eq_some_iff.mp found
      cases same
      exact short key held

/-- A record is never empty. -/
theorem record_ne_nil (call : RangeAppend) : call.record ≠ [] := by
  rw [RangeAppend.record]
  split <;>
    simp [RangeBuffer.pointRecord, RangeBuffer.rangeRecord, RecordHeader.serialize]

end RangeBuffer.Record

end Tokuft
