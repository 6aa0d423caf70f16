import Tokuft.Locktree.Memory
import Tokuft.Library.PositionReader

/-! The arena of a buffer with its bytes: chunks that grow, whose objects never move. -/

namespace Tokuft

/-- A chunk of an arena: the bytes of it in use, once it has a buffer, and its size. -/
structure ArenaChunk where
  buf : Option Bytes := none
  size : Nat := 0
  deriving DecidableEq, Repr

/-- The bytes of a chunk that are in use. -/
def ArenaChunk.bytes (chunk : ArenaChunk) : Bytes := chunk.buf.getD []

/-- How many bytes of a chunk are in use. -/
def ArenaChunk.used (chunk : ArenaChunk) : Nat := chunk.bytes.length

/-- An arena: the chunk that is being filled, and the others in the order they were filled. -/
structure ByteArena where
  currentChunk : ArenaChunk := {}
  otherChunks : List ArenaChunk := []
  deriving DecidableEq, Repr

/-- How large a new chunk is made, from the size of the chunk before it and what has to fit. -/
abbrev ChunkPolicy := Nat → Nat → Nat

/-- Sizes double up to the largest one, and the current allocation always fits. -/
def newChunkSize : ChunkPolicy := fun currentSize size =>
  let newSize := min Memarena.maxChunkSize (2 * currentSize)
  Memarena.roundToPage (if newSize < size then size else newSize)

namespace ByteArena

/-- An arena of an initial size, with no buffer when that is zero. -/
def create (initialSize : Nat) : ByteArena where
  currentChunk :=
    { buf := if 0 < initialSize then some [] else none
      size := initialSize }

/-- Allocate room for some bytes and fill it with them. -/
def mallocFromArena (policy : ChunkPolicy) (arena : ByteArena) (bytes : Bytes) : ByteArena :=
  let chunk := arena.currentChunk
  if chunk.buf.isNone ∨ chunk.size < chunk.used + bytes.length then
    -- The existing block is not big enough: it joins the others, and a new one is made.
    { currentChunk := { buf := some bytes, size := policy chunk.size bytes.length }
      otherChunks := if chunk.buf.isSome then arena.otherChunks ++ [chunk] else arena.otherChunks }
  else
    { arena with currentChunk := { chunk with buf := some (chunk.bytes ++ bytes) } }

/-- A place among the chunks of an arena: the current one, or one of the others by its index. -/
inductive ChunkIterator where
  | initial
  | other (chunkIdx : Nat)
  deriving DecidableEq, Repr

/-- The bytes of the chunk at a place, and nothing past the last one. -/
def ChunkIterator.current (arena : ByteArena) : ChunkIterator → Bytes
  | initial => arena.currentChunk.bytes
  | other chunkIdx => (arena.otherChunks[chunkIdx]?.map ArenaChunk.bytes).getD []

/-- Move to the next chunk. -/
def ChunkIterator.next : ChunkIterator → ChunkIterator
  | initial => other 0
  | other chunkIdx => other (chunkIdx + 1)

/-- Is there a chunk at this place? -/
def ChunkIterator.more (arena : ByteArena) : ChunkIterator → Bool
  | initial => arena.currentChunk.buf.isSome
  | other chunkIdx => chunkIdx < arena.otherChunks.length

/-- What the accounting sees of an arena. -/
def accounting (arena : ByteArena) : Memarena where
  size := arena.currentChunk.size
  used := arena.currentChunk.used
  sizeOfOtherChunks := (arena.otherChunks.map ArenaChunk.size).sum

/-- A chunk has a buffer exactly when it has a size. -/
def Sized (arena : ByteArena) : Prop :=
  arena.currentChunk.buf.isNone ↔ arena.currentChunk.size = 0

/-- The accounting of an allocation is the allocation of the accounting. -/
theorem accounting_mallocFromArena {arena : ByteArena} (sized : arena.Sized) (bytes : Bytes) :
    (arena.mallocFromArena newChunkSize bytes).accounting =
      arena.accounting.mallocFromArena bytes.length := by
  obtain ⟨⟨buf, size⟩, others⟩ := arena
  cases buf with
  | none =>
    -- Without a buffer the size that joins the others is zero.
    have zero : size = 0 := sized.mp rfl
    subst zero
    simp [mallocFromArena, accounting, Memarena.mallocFromArena, ArenaChunk.used,
      ArenaChunk.bytes, newChunkSize]
  | some held =>
    have positive : size ≠ 0 := fun zero => by simpa using sized.mpr zero
    by_cases full : size < held.length + bytes.length <;>
      simp [mallocFromArena, accounting, Memarena.mallocFromArena, ArenaChunk.used,
        ArenaChunk.bytes, newChunkSize, positive, full]

/-- An allocation leaves a buffer with a size. -/
theorem sized_mallocFromArena (arena : ByteArena) (bytes : Bytes) (sized : arena.Sized) :
    (arena.mallocFromArena newChunkSize bytes).Sized := by
  rw [mallocFromArena]
  split
  · simp [Sized, newChunkSize, Memarena.roundToPage]
  · rename_i kept
    simpa [Sized] using fun zero => kept (.inl (sized.mpr zero))

end ByteArena

end Tokuft
