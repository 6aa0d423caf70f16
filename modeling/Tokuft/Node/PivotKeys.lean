import Tokuft.Basic
import Tokuft.Library.PositionReader
import Tokuft.Library.MemoryBlock

/-! The container of a node's pivot keys, packed when all have one length and boxed otherwise. -/

namespace Tokuft

/-- A key or a value with its size, which is of 32 bits. -/
structure Dbt where
  data : Bytes
  fits : data.length < 2 ^ 32
  deriving DecidableEq, Repr

namespace Dbt

/-- The number of bytes. -/
def size (dbt : Dbt) : Nat := dbt.data.length

/-- Point to some bytes, with a length that is taken as one of 32 bits. -/
def fill (bytes : Bytes) (len : Nat) : Dbt where
  data := bytes.take (len % 2 ^ 32)
  fits := Nat.lt_of_le_of_lt (List.length_take_le _ _) (Nat.mod_lt _ (by decide))

end Dbt

/-- Round a length up to a multiple of four. -/
def align4 (len : Nat) : Nat := (len + 3) / 4 * 4

/-- Which allocations of no bytes at all give a null pointer, which the platform decides. -/
structure ZeroSized where
  malloc : Bool
  mallocAligned : Bool
  realloc : Bool

/-- The pivot keys of a node, where a null pointer is a missing block. -/
structure PivotKeys where
  /-- A packed array of keys, if all have the same length. -/
  fixedKeys : Option Bytes
  fixedKeylen : Nat
  fixedKeylenAligned : Nat
  /-- Otherwise an array of keys. -/
  dbtKeys : Option (List Dbt)
  numPivots : Nat
  totalSize : Nat
  deriving DecidableEq, Repr

/-- A new block, which may be null when nothing is asked for. -/
def allocated {Cell : Type} (zeroIsNull : Bool) (cells : List Cell) : Option (List Cell) :=
  if cells.isEmpty && zeroIsNull then none else some cells

namespace PivotKeys

/-- No pivots. -/
def createEmpty : PivotKeys where
  fixedKeys := none
  fixedKeylen := 0
  fixedKeylenAligned := 0
  dbtKeys := none
  numPivots := 0
  totalSize := 0

/-- Keys are in a packed array. -/
def fixedFormat (pivotkeys : PivotKeys) : Bool := pivotkeys.fixedKeys.isSome

/-- A block of another size, which may be null when nothing is asked for. -/
def reallocN {Cell : Type} (zero : ZeroSized) (old : Option (List Cell)) (cells : List Cell) :
    Option (List Cell) :=
  allocated (if old.isSome then zero.realloc else zero.mallocAligned) cells

/-- Check the sizes that are kept. -/
def sanityCheck (pivotkeys : PivotKeys) : Option Unit :=
  if pivotkeys.fixedFormat then do
    invariant (pivotkeys.dbtKeys = none)
    invariant (pivotkeys.fixedKeylenAligned = align4 pivotkeys.fixedKeylen)
    invariant (pivotkeys.numPivots * pivotkeys.fixedKeylen ≤ pivotkeys.totalSize)
    invariant (pivotkeys.numPivots * pivotkeys.fixedKeylenAligned = pivotkeys.totalSize)
  else do
    invariant (pivotkeys.numPivots = 0 ∨ pivotkeys.dbtKeys ≠ none)
    let size := (((pivotkeys.dbtKeys.getD []).take pivotkeys.numPivots).map Dbt.size).sum
    invariant (size = pivotkeys.totalSize)

/-- Whether all keys have one length. -/
def keysSameSize : List Dbt → Bool
  | first :: second :: rest => second.size == first.size && keysSameSize (second :: rest)
  | _ => true

/-- Copy keys of a length into a packed array, from a place on. -/
def packKeys (keylen aligned : Nat) : List Dbt → Nat → Bytes → Option Bytes
  | [], _, fixedKeys => some fixedKeys
  | key :: rest, i, fixedKeys => do
    invariant (key.size = keylen)
    packKeys keylen aligned rest (i + 1) (memcpy fixedKeys (i * aligned) (key.data.take keylen))

/-- A packed array of the keys, whose length is that of the first one. -/
def createFixed (keys : List Dbt) : Option PivotKeys := do
  let first ← keys.head?
  let keylen := first.size
  let aligned := align4 keylen
  let totalSize := aligned * keys.length
  -- What lies between two keys is never read, so it does not matter what it is.
  let fixedKeys ← packKeys keylen aligned keys 0 (List.replicate totalSize 0)
  return {
    fixedKeys := some fixedKeys
    fixedKeylen := keylen
    fixedKeylenAligned := aligned
    dbtKeys := none
    numPivots := keys.length
    totalSize }

/-- Create pivot keys by copying some keys. -/
def createFromDbts (zero : ZeroSized) (keys : List Dbt) : Option PivotKeys := do
  let pivotkeys ←
    if keysSameSize keys && decide (0 < keys.length) then createFixed keys
    else some { createEmpty with
      dbtKeys := allocated zero.mallocAligned keys
      numPivots := keys.length
      totalSize := (keys.map Dbt.size).sum }
  pivotkeys.sanityCheck
  return pivotkeys

/-- Create pivot keys in packed format by copying from a packed array. -/
def createFromFixedKeys (zero : ZeroSized) (fixedKeys : Bytes) (keylen n : Nat) : PivotKeys where
  fixedKeys := allocated zero.malloc (fixedKeys.take (align4 keylen * n))
  fixedKeylen := keylen
  fixedKeylenAligned := align4 keylen
  dbtKeys := none
  numPivots := n
  totalSize := align4 keylen * n

/-- Create pivot keys as a copy of others. -/
def createFromPivotKeys (zero : ZeroSized) (pivotkeys : PivotKeys) : Option PivotKeys := do
  let copy ← match pivotkeys.fixedKeys with
    | some fixedKeys =>
      some (createFromFixedKeys zero fixedKeys pivotkeys.fixedKeylen pivotkeys.numPivots)
    | none =>
      createFromDbts zero ((pivotkeys.dbtKeys.getD []).take pivotkeys.numPivots)
  copy.sanityCheck
  return copy

/-- Go over to the packed format, where all keys have to have one length. -/
def convertToFixedFormat (pivotkeys : PivotKeys) : Option PivotKeys := do
  invariant (pivotkeys.fixedFormat = false)
  let pivotkeys ← createFixed ((pivotkeys.dbtKeys.getD []).take pivotkeys.numPivots)
  invariant (pivotkeys.fixedFormat = true)
  pivotkeys.sanityCheck
  return pivotkeys

/-- A key in a packed array. -/
def fixedKey (pivotkeys : PivotKeys) (fixedKeys : Bytes) (i : Nat) : Dbt :=
  .fill (fixedKeys.drop (i * pivotkeys.fixedKeylenAligned)) pivotkeys.fixedKeylen

/-- Go over to the format of single keys. -/
def convertToDbtFormat (zero : ZeroSized) (pivotkeys : PivotKeys) : Option PivotKeys := do
  let fixedKeys ← pivotkeys.fixedKeys
  let keys := (List.range pivotkeys.numPivots).map (pivotkeys.fixedKey fixedKeys)
  let pivotkeys := {
    fixedKeys := none
    fixedKeylen := 0
    fixedKeylenAligned := 0
    dbtKeys := reallocN zero pivotkeys.dbtKeys keys
    numPivots := pivotkeys.numPivots
    -- Sizes are not rounded up in this format.
    totalSize := pivotkeys.numPivots * pivotkeys.fixedKeylen }
  invariant (pivotkeys.fixedFormat = false)
  pivotkeys.sanityCheck
  return pivotkeys

/-- Read a key with its length in front. -/
def rbufBytes : Reader Dbt := do
  let size ← readUint 4
  let bytes ← readBytes size
  return .fill bytes size

/-- Read pivot keys that were written before. -/
def deserializeFromRbuf (zero : ZeroSized) (n : Nat) : Reader PivotKeys := do
  let keys ← readMany rbufBytes n
  let pivotkeys := { createEmpty with
    dbtKeys := allocated zero.mallocAligned keys
    numPivots := n
    totalSize := (keys.map Dbt.size).sum }
  let pivotkeys ← StateT.lift (
    if keysSameSize keys && decide (0 < n) then pivotkeys.convertToFixedFormat
    else some pivotkeys)
  StateT.lift pivotkeys.sanityCheck
  return pivotkeys

/-- A pivot key. -/
def getPivot (pivotkeys : PivotKeys) (i : Nat) : Option Dbt := do
  invariant (i < pivotkeys.numPivots)
  match pivotkeys.fixedKeys with
  | some fixedKeys => do
    invariant (i * pivotkeys.fixedKeylenAligned < pivotkeys.totalSize)
    return pivotkeys.fixedKey fixedKeys i
  | none => (pivotkeys.dbtKeys.getD [])[i]?

/-- Fill in a pivot key. -/
def fillPivot (pivotkeys : PivotKeys) (i : Nat) : Option Dbt := do
  invariant (i < pivotkeys.numPivots)
  match pivotkeys.fixedKeys with
  | some fixedKeys => return pivotkeys.fixedKey fixedKeys i
  | none => (pivotkeys.dbtKeys.getD [])[i]?

/-- The size of all keys, which a packed array has to agree with. -/
def checkedTotalSize (pivotkeys : PivotKeys) : Option Nat := do
  invariant (pivotkeys.fixedKeys = none ∨
    pivotkeys.totalSize = pivotkeys.fixedKeylenAligned * pivotkeys.numPivots)
  return pivotkeys.totalSize

/-- Insert a key into an array of keys. -/
def insertAtDbt (zero : ZeroSized) (pivotkeys : PivotKeys) (key : Dbt) (i : Nat) : PivotKeys :=
  { pivotkeys with
    dbtKeys := reallocN zero pivotkeys.dbtKeys ((pivotkeys.dbtKeys.getD []).insertIdx i key)
    totalSize := pivotkeys.totalSize + key.size }

/-- Insert a key of the right length into a packed array. -/
def insertAtFixed (zero : ZeroSized) (pivotkeys : PivotKeys) (fixedKeys : Bytes) (key : Dbt)
    (i : Nat) : PivotKeys :=
  let aligned := pivotkeys.fixedKeylenAligned
  let fixedKeys := resize 0 fixedKeys ((pivotkeys.numPivots + 1) * aligned)
  let fixedKeys := memmove fixedKeys ((i + 1) * aligned) (i * aligned)
    ((pivotkeys.numPivots - i) * aligned)
  let fixedKeys := memcpy fixedKeys (i * aligned) (key.data.take pivotkeys.fixedKeylen)
  { pivotkeys with
    fixedKeys := allocated zero.realloc fixedKeys
    totalSize := pivotkeys.totalSize + aligned }

/-- Insert a key, and leave the packed format when it has another length. -/
def insertAt (zero : ZeroSized) (pivotkeys : PivotKeys) (key : Dbt) (i : Nat) :
    Option PivotKeys := do
  invariant (i ≤ pivotkeys.numPivots)
  let pivotkeys ←
    if pivotkeys.fixedFormat && key.size != pivotkeys.fixedKeylen then
      pivotkeys.convertToDbtFormat zero
    else some pivotkeys
  let pivotkeys := match pivotkeys.fixedKeys with
    | some fixedKeys => pivotkeys.insertAtFixed zero fixedKeys key i
    | none => pivotkeys.insertAtDbt zero key i
  let pivotkeys := { pivotkeys with numPivots := pivotkeys.numPivots + 1 }
  let totalSize ← pivotkeys.checkedTotalSize
  invariant (0 < totalSize)
  return pivotkeys

/-- The keys of a container, one by one. -/
def eachKey (pivotkeys : PivotKeys) : List Dbt :=
  match pivotkeys.fixedKeys with
  | some fixedKeys => (List.range pivotkeys.numPivots).map (pivotkeys.fixedKey fixedKeys)
  | none => (pivotkeys.dbtKeys.getD []).take pivotkeys.numPivots

/-- Append the keys of another container to an array of keys. -/
def appendDbt (zero : ZeroSized) (pivotkeys other : PivotKeys) : PivotKeys :=
  { pivotkeys with
    dbtKeys := reallocN zero pivotkeys.dbtKeys (pivotkeys.dbtKeys.getD [] ++ other.eachKey)
    totalSize := pivotkeys.totalSize + (other.eachKey.map Dbt.size).sum }

/-- Append the keys of another container to a packed array, unless they have another length. -/
def appendFixed (zero : ZeroSized) (pivotkeys other : PivotKeys) (fixedKeys : Bytes) :
    Option PivotKeys :=
  let aligned := pivotkeys.fixedKeylenAligned
  match other.fixedKeys with
  | some otherKeys =>
    if other.fixedKeylen = pivotkeys.fixedKeylen then
      let fixedKeys := resize 0 fixedKeys ((pivotkeys.numPivots + other.numPivots) * aligned)
      let fixedKeys := memcpy fixedKeys (pivotkeys.numPivots * aligned)
        (otherKeys.take other.totalSize)
      some { pivotkeys with
        fixedKeys := allocated zero.realloc fixedKeys
        totalSize := pivotkeys.totalSize + other.totalSize }
    else do
      let pivotkeys ← pivotkeys.convertToDbtFormat zero
      return pivotkeys.appendDbt zero other
  | none => do
    let pivotkeys ← pivotkeys.convertToDbtFormat zero
    return pivotkeys.appendDbt zero other

/-- Append the keys of another container. -/
def append (zero : ZeroSized) (pivotkeys other : PivotKeys) : Option PivotKeys := do
  let pivotkeys ← match pivotkeys.fixedKeys with
    | some fixedKeys => pivotkeys.appendFixed zero other fixedKeys
    | none => some (pivotkeys.appendDbt zero other)
  let pivotkeys := { pivotkeys with numPivots := pivotkeys.numPivots + other.numPivots }
  pivotkeys.sanityCheck
  return pivotkeys

/-- Replace a key in an array of keys. -/
def replaceAtDbt (pivotkeys : PivotKeys) (key : Dbt) (i : Nat) : Option PivotKeys := do
  let old ← (pivotkeys.dbtKeys.getD [])[i]?
  invariant (old.size ≤ pivotkeys.totalSize)
  return { pivotkeys with
    dbtKeys := pivotkeys.dbtKeys.map fun keys => keys.set i key
    totalSize := pivotkeys.totalSize - old.size + key.size }

/-- Replace a key in a packed array, and leave the packed format when it has another length. -/
def replaceAtFixed (zero : ZeroSized) (pivotkeys : PivotKeys) (fixedKeys : Bytes) (key : Dbt)
    (i : Nat) : Option PivotKeys :=
  if key.size = pivotkeys.fixedKeylen then
    some { pivotkeys with
      fixedKeys := some (memcpy fixedKeys (i * pivotkeys.fixedKeylenAligned)
        (key.data.take pivotkeys.fixedKeylen)) }
  else do
    let pivotkeys ← pivotkeys.convertToDbtFormat zero
    pivotkeys.replaceAtDbt key i

/-- Replace a key, or append one. -/
def replaceAt (zero : ZeroSized) (pivotkeys : PivotKeys) (key : Dbt) (i : Nat) :
    Option PivotKeys := do
  let pivotkeys ←
    if i < pivotkeys.numPivots then
      match pivotkeys.fixedKeys with
      | some fixedKeys => pivotkeys.replaceAtFixed zero fixedKeys key i
      | none => pivotkeys.replaceAtDbt key i
    else do
      invariant (i = pivotkeys.numPivots)
      pivotkeys.insertAt zero key i
  let totalSize ← pivotkeys.checkedTotalSize
  invariant (0 < totalSize)
  return pivotkeys

/-- Delete a key from a packed array, whose block stays as large as it is. -/
def deleteAtFixed (pivotkeys : PivotKeys) (fixedKeys : Bytes) (i : Nat) : PivotKeys :=
  let aligned := pivotkeys.fixedKeylenAligned
  { pivotkeys with
    fixedKeys := some (memmove fixedKeys (i * aligned) ((i + 1) * aligned)
      ((pivotkeys.numPivots - 1 - i) * aligned))
    totalSize := pivotkeys.totalSize - aligned }

/-- Delete a key from an array of keys. -/
def deleteAtDbt (zero : ZeroSized) (pivotkeys : PivotKeys) (i : Nat) : Option PivotKeys := do
  let old ← (pivotkeys.dbtKeys.getD [])[i]?
  invariant (old.size ≤ pivotkeys.totalSize)
  return { pivotkeys with
    dbtKeys := reallocN zero pivotkeys.dbtKeys ((pivotkeys.dbtKeys.getD []).eraseIdx i)
    totalSize := pivotkeys.totalSize - old.size }

/-- Delete a key. -/
def deleteAt (zero : ZeroSized) (pivotkeys : PivotKeys) (i : Nat) : Option PivotKeys := do
  invariant (i < pivotkeys.numPivots)
  let pivotkeys ← match pivotkeys.fixedKeys with
    | some fixedKeys => some (pivotkeys.deleteAtFixed fixedKeys i)
    | none => pivotkeys.deleteAtDbt zero i
  return { pivotkeys with numPivots := pivotkeys.numPivots - 1 }

/-- Move the keys of a packed array from a place on into another container. -/
def splitAtFixed (zero : ZeroSized) (pivotkeys : PivotKeys) (fixedKeys : Bytes) (i : Nat) :
    PivotKeys × PivotKeys :=
  let aligned := pivotkeys.fixedKeylenAligned
  let other := createFromFixedKeys zero (fixedKeys.drop (i * aligned)) pivotkeys.fixedKeylen
    (pivotkeys.numPivots - i)
  ({ pivotkeys with
      fixedKeys := allocated zero.realloc (resize 0 fixedKeys (i * aligned))
      totalSize := i * aligned }, other)

/-- Destroy the keys of an array from a place on, of which the kept size is counted down. -/
def destroyKeys : List Dbt → Nat → Option Nat
  | [], totalSize => some totalSize
  | key :: rest, totalSize => do
    invariant (key.size ≤ totalSize)
    destroyKeys rest (totalSize - key.size)

/-- Move the keys of an array from a place on into another container. -/
def splitAtDbt (zero : ZeroSized) (pivotkeys : PivotKeys) (i : Nat) :
    Option (PivotKeys × PivotKeys) := do
  let keys := (pivotkeys.dbtKeys.getD []).take pivotkeys.numPivots
  let other ← createFromDbts zero (keys.drop i)
  let totalSize ← destroyKeys (keys.drop i) pivotkeys.totalSize
  return ({ pivotkeys with
    dbtKeys := reallocN zero pivotkeys.dbtKeys (keys.take i)
    totalSize }, other)

/-- Move the keys from a place on into another container, which has to be empty. -/
def splitAt (zero : ZeroSized) (pivotkeys : PivotKeys) (i : Nat) (other : PivotKeys) :
    Option (PivotKeys × PivotKeys) := do
  let (pivotkeys, other) ←
    if i < pivotkeys.numPivots then do
      let (pivotkeys, other) ← match pivotkeys.fixedKeys with
        | some fixedKeys => some (pivotkeys.splitAtFixed zero fixedKeys i)
        | none => pivotkeys.splitAtDbt zero i
      some ({ pivotkeys with numPivots := i }, other)
    else some (pivotkeys, other)
  pivotkeys.sanityCheck
  return (pivotkeys, other)

/-- The size of all keys when they are written. -/
def serializedSize (pivotkeys : PivotKeys) : Nat :=
  if pivotkeys.fixedFormat then pivotkeys.numPivots * pivotkeys.fixedKeylen
  else pivotkeys.totalSize

/-- Write a key with its length in front. -/
def wbufBytes (key : Dbt) : Bytes := uintBytes 4 key.size ++ key.data

/-- Write keys one after the other, of which none may be empty, and count their sizes. -/
def writeKeys : List Dbt → Option (Bytes × Nat)
  | [] => some ([], 0)
  | key :: rest => do
    invariant (key.size ≠ 0)
    let (bytes, written) ← writeKeys rest
    return (wbufBytes key ++ bytes, key.size + written)

/-- Write pivot keys. -/
def serializeToWbuf (pivotkeys : PivotKeys) : Option Bytes := do
  let (bytes, written) ← writeKeys pivotkeys.eachKey
  invariant (written = pivotkeys.serializedSize)
  return bytes

end PivotKeys

end Tokuft
