import Tokuft.Locktree.MemArena

/-! The buffer that keeps key ranges as records in a row, and the iterator over it. -/

namespace Tokuft

/-- An end of a range as a caller gives it: an infinity, or where a key lies and how long it is. -/
inductive KeyPointer where
  | negativeInfinity
  | positiveInfinity
  | key (data size : Nat)
  deriving DecidableEq, Repr

/-- An end of a range with the bytes of its key. -/
inductive Endpoint where
  | negativeInfinity
  | positiveInfinity
  | key (bytes : Bytes)
  deriving DecidableEq, Repr

namespace KeyPointer

/-- Is the end infinite? -/
def isInfinite : KeyPointer → Bool
  | key _ _ => false
  | _ => true

/-- The size of a key, which is zero for the infinities. -/
def size : KeyPointer → Nat
  | key _ size => size
  | _ => 0

/-- The bytes of a key, as they lie in memory. -/
def bytes (memory : Nat → UInt8) : KeyPointer → Bytes
  | key data size => (List.range size).map fun index => memory (data + index)
  | _ => []

/-- The end that a caller means. -/
def endpoint (memory : Nat → UInt8) : KeyPointer → Endpoint
  | negativeInfinity => .negativeInfinity
  | positiveInfinity => .positiveInfinity
  | key data size => .key ((key data size).bytes memory)

/-- Do two ends have the same pointer and size, or are they the same infinity? -/
def equals (left right : KeyPointer) : Bool := left = right

end KeyPointer

/-- What precedes the keys of a record. -/
structure RecordHeader where
  leftNegInf : Bool
  leftPosInf : Bool
  rightPosInf : Bool
  rightNegInf : Bool
  leftKeySize : Nat
  rightKeySize : Nat
  deriving DecidableEq, Repr

namespace RecordHeader

/-- Is the left end infinite? -/
def leftIsInfinite (header : RecordHeader) : Bool := header.leftNegInf || header.leftPosInf

/-- Is the right end infinite? -/
def rightIsInfinite (header : RecordHeader) : Bool := header.rightNegInf || header.rightPosInf

/-- The header of a range, or of a point when there is no right end: sizes are of two bytes. -/
def init (left : KeyPointer) : Option KeyPointer → RecordHeader
  | some right =>
    { leftNegInf := left = .negativeInfinity
      leftPosInf := left = .positiveInfinity
      rightPosInf := right = .positiveInfinity
      rightNegInf := right = .negativeInfinity
      leftKeySize := left.size % 2 ^ 16
      rightKeySize := right.size % 2 ^ 16 }
  | none =>
    { leftNegInf := left = .negativeInfinity
      leftPosInf := left = .positiveInfinity
      rightPosInf := left = .positiveInfinity
      rightNegInf := left = .negativeInfinity
      leftKeySize := left.size % 2 ^ 16
      rightKeySize := 0 }

/-- The bytes of a header. -/
def serialize (header : RecordHeader) : Bytes :=
  [header.leftNegInf.toUInt8, header.leftPosInf.toUInt8, header.rightPosInf.toUInt8,
    header.rightNegInf.toUInt8] ++
    uintBytes 2 header.leftKeySize ++ uintBytes 2 header.rightKeySize

/-- Take a header off the front of some bytes. -/
def deserialize : Reader RecordHeader := do
  let leftNegInf ← readByte
  let leftPosInf ← readByte
  let rightPosInf ← readByte
  let rightNegInf ← readByte
  let leftKeySize ← readUint 2
  let rightKeySize ← readUint 2
  return {
    leftNegInf := leftNegInf != 0
    leftPosInf := leftPosInf != 0
    rightPosInf := rightPosInf != 0
    rightNegInf := rightNegInf != 0
    leftKeySize
    rightKeySize }

/-- The size of a header. -/
def bytes : Nat := 8

end RecordHeader

/-- The limit of a key: lengths are stored as two bytes. -/
def maxKeySize : Nat := 2 ^ 16

/-- A set of key ranges that can be stored, iterated over, and then destroyed all at once. -/
structure RangeBuffer where
  arena : ByteArena
  /-- An integer of 32 bits with a sign. -/
  numRanges : Int
  deriving DecidableEq, Repr

namespace RangeBuffer

/-- No chunk is allocated until there is a range. -/
def create : RangeBuffer where
  arena := .create 0
  numRanges := 0

/-- The record of a range with two keys. -/
def rangeRecord (memory : Nat → UInt8) (left right : KeyPointer) : Bytes :=
  (RecordHeader.init left (some right)).serialize ++ left.bytes memory ++ right.bytes memory

/-- The record of a point, with one copy of its key. -/
def pointRecord (memory : Nat → UInt8) (key : KeyPointer) : Bytes :=
  (RecordHeader.init key none).serialize ++ key.bytes memory

/-- Append a range: if the ends are the same object, then only one copy is stored. -/
def append (policy : ChunkPolicy) (memory : Nat → UInt8) (buffer : RangeBuffer)
    (left right : KeyPointer) : Option RangeBuffer := do
  invariant (left.size ≤ maxKeySize)
  if left.equals right then
    return {
      arena := buffer.arena.mallocFromArena policy (pointRecord memory left)
      numRanges := (buffer.numRanges + 1).bmod (2 ^ 32) }
  else
    invariant (right.size ≤ maxKeySize)
    return {
      arena := buffer.arena.mallocFromArena policy (rangeRecord memory left right)
      numRanges := (buffer.numRanges + 1).bmod (2 ^ 32) }

/-- How many ranges are stored. -/
def getNumRanges (buffer : RangeBuffer) : Int := buffer.numRanges

/-- The user's view of a stored range: its keys are unset until a record has been read. -/
structure Record where
  header : RecordHeader
  leftKey : Option Bytes
  rightKey : Option Bytes
  deriving DecidableEq, Repr

namespace Record

/-- The left end, unless its key is unset. -/
def getLeftKey (record : Record) : Option Endpoint :=
  if record.header.leftNegInf then some .negativeInfinity
  else if record.header.leftPosInf then some .positiveInfinity
  else record.leftKey.map .key

/-- The right end, unless its key is unset. -/
def getRightKey (record : Record) : Option Endpoint :=
  if record.header.rightNegInf then some .negativeInfinity
  else if record.header.rightPosInf then some .positiveInfinity
  else record.rightKey.map .key

/-- How far the next record is. -/
def size (record : Record) : Nat :=
  RecordHeader.bytes + record.header.leftKeySize + record.header.rightKeySize

/-- Read the left key if necessary, or else keep the one at hand. -/
def readLeftKey (header : RecordHeader) (kept : Option Bytes) : Reader (Option Bytes) :=
  if !header.leftIsInfinite then some <$> readBytes header.leftKeySize else pure kept

/-- Read the right key if necessary: a point has no size of a right key, and shares its left one. -/
def readRightKey (header : RecordHeader) (leftKey kept : Option Bytes) : Reader (Option Bytes) :=
  if !header.rightIsInfinite then
    if header.rightKeySize = 0 then pure leftKey else some <$> readBytes header.rightKeySize
  else pure kept

/-- Read a record into the object at hand, which keeps the keys that are not read. -/
def deserialize (record : Record) : Reader Record := do
  let header ← RecordHeader.deserialize
  let leftKey ← readLeftKey header record.leftKey
  let rightKey ← readRightKey header leftKey record.rightKey
  return { header, leftKey, rightKey }

end Record

/-- A place in a buffer: a chunk, and an offset in it. -/
structure Iterator where
  arena : ByteArena
  maChunkIterator : ByteArena.ChunkIterator
  currentChunkBase : Bytes
  currentChunkOffset : Nat
  currentChunkMax : Nat
  currentRecSize : Nat
  deriving DecidableEq, Repr

namespace Iterator

/-- Go to the start of the chunk that the iterator is at. -/
def resetCurrentChunk (iterator : Iterator) : Iterator :=
  let chunk := iterator.maChunkIterator.current iterator.arena
  { iterator with
    currentChunkBase := chunk
    currentChunkOffset := 0
    currentChunkMax := chunk.length }

/-- Start at the first chunk of a buffer. -/
def start (buffer : RangeBuffer) : Iterator :=
  resetCurrentChunk
    { arena := buffer.arena
      maChunkIterator := .initial
      currentChunkBase := []
      currentChunkOffset := 0
      currentChunkMax := 0
      currentRecSize := 0 }

/-- Read the current record, if there is one; a read past what was written is undefined. -/
def current (iterator : Iterator) (record : Record) : Option (Bool × Record × Iterator) := do
  if iterator.currentChunkOffset < iterator.currentChunkMax then
    let (record, _) ← record.deserialize.run
      (iterator.currentChunkBase.drop iterator.currentChunkOffset)
    return (true, record, { iterator with currentRecSize := record.size })
  else
    return (false, record, iterator)

/-- Move to the next record in the buffer. -/
def next (iterator : Iterator) : Option Iterator := do
  invariant (iterator.currentChunkOffset < iterator.currentChunkMax)
  invariant (0 < iterator.currentRecSize)
  let iterator :=
    { iterator with
      currentChunkOffset := iterator.currentChunkOffset + iterator.currentRecSize
      currentRecSize := 0 }
  if iterator.currentChunkMax ≤ iterator.currentChunkOffset ∧
      iterator.maChunkIterator.more iterator.arena then
    -- The current chunk is exhausted: try moving to the next one.
    return resetCurrentChunk { iterator with maChunkIterator := iterator.maChunkIterator.next }
  else
    return iterator

/-- Take ranges until there is no current one, with one record object for all of them. -/
def collect : Nat → Iterator → Record → Option (List (Endpoint × Endpoint))
  | 0, _, _ => none
  | fuel + 1, iterator, record => do
    let (found, record, iterator) ← iterator.current record
    if found then
      let left ← record.getLeftKey
      let right ← record.getRightKey
      let iterator ← iterator.next
      let rest ← collect fuel iterator record
      return (left, right) :: rest
    else
      return []

end Iterator

/-- Iterating over a buffer gives some ranges, in this order. -/
def Yields (buffer : RangeBuffer) (record : Record) (ranges : List (Endpoint × Endpoint)) : Prop :=
  ∃ fuel, (Iterator.start buffer).collect fuel record = some ranges

end RangeBuffer

end Tokuft
