import Tokuft.Basic

/-! The counters of what a cache holds, and what changes them. -/

namespace Tokuft

/-- The memory that a value takes, by what it is, and how it presses for being cleaned.
None of it is negative.
-/
structure PairAttr where
  size : Nat
  nonleafSize : Nat
  leafSize : Nat
  rollbackSize : Nat
  cachePressureSize : Nat
  isValid : Bool
  deriving DecidableEq, Repr

/-- What a value takes that was not read yet. -/
def zeroAttr : PairAttr where
  size := 0
  nonleafSize := 0
  leafSize := 0
  rollbackSize := 0
  cachePressureSize := 0
  isValid := true

/-- The counters of a cache. -/
structure Evictor where
  sizeReserved : Int
  sizeCurrent : Int
  sizeClonedData : Int
  sizeEvicting : Int
  sizeNonleaf : Int
  sizeLeaf : Int
  sizeRollback : Int
  sizeCachepressure : Int
  deriving DecidableEq, Repr

namespace Evictor

/-- The counters of an empty cache, of whose memory some cannot be reserved. -/
def init (unreservable : Int) : Evictor where
  sizeReserved := unreservable
  sizeCurrent := 0
  sizeClonedData := 0
  sizeEvicting := 0
  sizeNonleaf := 0
  sizeLeaf := 0
  sizeRollback := 0
  sizeCachepressure := 0

/-- Count what a value takes. -/
def addPairAttr (ev : Evictor) (attr : PairAttr) : Option Evictor := do
  invariant (attr.isValid = true)
  return { ev with
    sizeCurrent := ev.sizeCurrent + attr.size
    sizeNonleaf := ev.sizeNonleaf + attr.nonleafSize
    sizeLeaf := ev.sizeLeaf + attr.leafSize
    sizeRollback := ev.sizeRollback + attr.rollbackSize
    sizeCachepressure := ev.sizeCachepressure + attr.cachePressureSize }

/-- Count no longer what a value takes. -/
def removePairAttr (ev : Evictor) (attr : PairAttr) : Option Evictor := do
  invariant (attr.isValid = true)
  return { ev with
    sizeCurrent := ev.sizeCurrent - attr.size
    sizeNonleaf := ev.sizeNonleaf - attr.nonleafSize
    sizeLeaf := ev.sizeLeaf - attr.leafSize
    sizeRollback := ev.sizeRollback - attr.rollbackSize
    sizeCachepressure := ev.sizeCachepressure - attr.cachePressureSize }

/-- Count what a value takes now in the place of what it took. -/
def changePairAttr (ev : Evictor) (oldAttr newAttr : PairAttr) : Option Evictor := do
  (← ev.addPairAttr newAttr).removePairAttr oldAttr

/-- Count the memory of a clone. -/
def addClonedDataSize (ev : Evictor) (size : Nat) : Evictor :=
  { ev with
    sizeClonedData := ev.sizeClonedData + size
    sizeCurrent := ev.sizeCurrent + size }

/-- Count no longer the memory of a clone. -/
def removeClonedDataSize (ev : Evictor) (size : Nat) : Evictor :=
  { ev with
    sizeClonedData := ev.sizeClonedData - size
    sizeCurrent := ev.sizeCurrent - size }

/-- Reserve a share of what is not reserved yet, but not more than an upper bound. -/
def reserveMemory (ev : Evictor) (share upperBound : Nat) : Evictor :=
  -- An upper bound of zero is none.
  let reservedMemory := if 0 < upperBound ∧ upperBound < share then upperBound else share
  { ev with
    sizeReserved := ev.sizeReserved + reservedMemory
    sizeCurrent := ev.sizeCurrent + reservedMemory }

/-- Give back memory that was reserved. -/
def releaseReservedMemory (ev : Evictor) (reservedMemory : Nat) : Evictor :=
  { ev with
    sizeCurrent := ev.sizeCurrent - reservedMemory
    sizeReserved := ev.sizeReserved - reservedMemory }

/-- Count what an eviction that goes on in the background is expected to free. -/
def increaseSizeEvicting (ev : Evictor) (sizeEvictingEstimate : Int) : Evictor :=
  { ev with sizeEvicting := ev.sizeEvicting + sizeEvictingEstimate }

/-- An eviction came to its end. -/
def decreaseSizeEvicting (ev : Evictor) (sizeEvictingEstimate : Int) : Option Evictor :=
  if 0 < sizeEvictingEstimate then do
    invariant (0 ≤ ev.sizeEvicting - sizeEvictingEstimate)
    return { ev with sizeEvicting := ev.sizeEvicting - sizeEvictingEstimate }
  else some ev

end Evictor

end Tokuft
