import Tokuft.Locktree.RangeBufferLaws

/-! The chunks that ranges go to, and the iterator that goes through them. -/

namespace Tokuft

namespace RangeBuffer

/-- Which appended ranges lie in which chunk. -/
structure Division where
  current : List RangeAppend
  size : Nat
  others : List (List RangeAppend)

namespace Division

/-- The bytes of a chunk that holds some ranges. -/
def bytes (group : List RangeAppend) : Bytes := group.flatMap RangeAppend.record

/-- The chunk that a range goes to: a new one when the current one has no room. -/
def place (policy : ChunkPolicy) (division : Division) (call : RangeAppend) : Division :=
  if division.current = [] ∨
      division.size < (bytes division.current).length + call.record.length then
    { current := [call]
      size := policy division.size call.record.length
      others :=
        if division.current = [] then division.others
        else division.others ++ [division.current] }
  else { division with current := division.current ++ [call] }

/-- Where a sequence of ranges goes. -/
def of (policy : ChunkPolicy) (appends : List RangeAppend) : Division :=
  appends.foldl (place policy) ⟨[], 0, []⟩

/-- The current chunk comes first, then the others in the order they were filled. -/
def inOrder (division : Division) : List RangeAppend := division.current ++ division.others.flatten

/-- No chunk but the first one to be filled is empty, and none is there before it. -/
structure Ok (division : Division) : Prop where
  filled : ∀ group ∈ division.others, group ≠ []
  first : division.current = [] → division.others = []

variable {policy : ChunkPolicy} {division : Division}

/-- Placing a range keeps every chunk filled. -/
theorem Ok.place (ok : division.Ok) (call : RangeAppend) : (division.place policy call).Ok := by
  rw [Division.place]
  by_cases empty : division.current = []
  · rw [if_pos (.inl empty), if_pos empty]
    exact ⟨ok.filled, fun none => by cases none⟩
  · split
    · -- The chunk that is full joins the others, and it is not empty.
      refine ⟨fun group member => ?_, fun none => by cases none⟩
      obtain old | new := List.mem_append.mp member
      · exact ok.filled group old
      · rw [List.mem_singleton.mp new]
        exact empty
    · exact ⟨ok.filled, fun none => by simp at none⟩

/-- Placing a range adds it to those that are there. -/
theorem inOrder_place (call : RangeAppend) :
    (division.place policy call).inOrder.Perm (division.inOrder ++ [call]) := by
  -- The current chunk is read first, and stands behind the others when a new one is added.
  rw [place]
  by_cases empty : division.current = []
  · rw [if_pos (.inl empty), if_pos empty, inOrder, inOrder, empty]
    exact List.perm_append_comm
  · split
    · rw [inOrder, inOrder, List.flatten_append, List.flatten_singleton]
      exact List.perm_append_comm.trans (List.perm_append_comm.append_right [call])
    · rw [inOrder, inOrder, List.append_assoc, List.append_assoc]
      exact List.perm_append_comm.append_left division.current

/-- The ranges of all chunks are those that were placed. -/
theorem inOrder_of (policy : ChunkPolicy) (appends : List RangeAppend) :
    (of policy appends).inOrder.Perm appends := by
  -- Each range is added to those before it.
  have general : ∀ (appends : List RangeAppend) (division : Division),
      (appends.foldl (place policy) division).inOrder.Perm (division.inOrder ++ appends) := by
    intro appends
    induction appends with
    | nil => intro division; simp
    | cons call rest ih =>
      intro division
      have placed := (ih (division.place policy call)).trans
        ((inOrder_place call).append_right rest)
      rw [List.append_assoc] at placed
      exact placed
  exact general appends ⟨[], 0, []⟩

/-- While there is no other chunk, ranges lie in the order they were placed. -/
theorem current_of (policy : ChunkPolicy) (appends : List RangeAppend)
    (one : (of policy appends).others = []) : (of policy appends).inOrder = appends := by
  -- Chunks never leave the others, so there was none at any point.
  have general : ∀ (appends : List RangeAppend) (division : Division),
      (appends.foldl (place policy) division).others = [] →
      division.others = [] ∧
        (appends.foldl (place policy) division).current = division.current ++ appends := by
    intro appends
    induction appends with
    | nil =>
      intro division none
      exact ⟨none, by simp⟩
    | cons call rest ih =>
      intro division none
      obtain ⟨placed, current⟩ := ih (division.place policy call) none
      have step : division.others = [] ∧
          (division.place policy call).current = division.current ++ [call] := by
        rw [place] at placed ⊢
        by_cases empty : division.current = []
        · rw [if_pos (.inl empty), if_pos empty] at placed
          rw [if_pos (.inl empty), empty]
          exact ⟨placed, rfl⟩
        · split at placed
          · simp at placed
          · rename_i room
            rw [if_neg room]
            exact ⟨placed, rfl⟩
      refine ⟨step.1, ?_⟩
      rw [List.foldl_cons, current, step.2, List.append_assoc]
      rfl
  have current : (of policy appends).current = appends := (general appends ⟨[], 0, []⟩ one).2
  rw [inOrder, one, List.flatten_nil, List.append_nil, current]

end Division

/-- A buffer holds the records of a division, and the number of ranges in it. -/
structure Holds (buffer : RangeBuffer) (division : Division) : Prop where
  present : buffer.arena.currentChunk.buf.isNone ↔ division.current = []
  current : buffer.arena.currentChunk.bytes = Division.bytes division.current
  size : buffer.arena.currentChunk.size = division.size
  others : buffer.arena.otherChunks.map ArenaChunk.bytes = division.others.map Division.bytes
  count : buffer.numRanges = (division.inOrder.length : Int).bmod (2 ^ 32)

/-- A new buffer holds nothing. -/
theorem holds_create : Holds create ⟨[], 0, []⟩ where
  present := by decide
  current := rfl
  size := rfl
  others := rfl
  count := rfl

/-- Counting one more range. -/
theorem bmod_succ (count : Nat) :
    (((count : Int).bmod (2 ^ 32)) + 1).bmod (2 ^ 32) =
      ((count + 1 : Nat) : Int).bmod (2 ^ 32) := by
  rw [Int.bmod_add_bmod]
  rfl

variable {policy : ChunkPolicy} {buffer : RangeBuffer} {division : Division} {call : RangeAppend}

/-- Appending a range writes its record to the chunk that the range goes to. -/
theorem Holds.append (holds : buffer.Holds division) (fits : call.Fits) :
    ∃ after, buffer.append policy call.memory call.left call.right = some after ∧
      after.Holds (division.place policy call) := by
  refine ⟨_, append_fits fits, ?_⟩
  have length : (division.place policy call).inOrder.length = division.inOrder.length + 1 := by
    rw [(Division.inOrder_place call).length_eq, List.length_append]
    rfl
  have count : (buffer.numRanges + 1).bmod (2 ^ 32) =
      ((division.place policy call).inOrder.length : Int).bmod (2 ^ 32) := by
    rw [holds.count, length]
    exact bmod_succ _
  have full : (buffer.arena.currentChunk.buf.isNone ∨ buffer.arena.currentChunk.size <
        buffer.arena.currentChunk.used + call.record.length) ↔
      (division.current = [] ∨
        division.size < (Division.bytes division.current).length + call.record.length) := by
    rw [holds.present, ArenaChunk.used, holds.current, holds.size]
  rw [ByteArena.mallocFromArena, Division.place]
  rw [Division.place] at count
  by_cases grows : division.current = [] ∨
      division.size < (Division.bytes division.current).length + call.record.length
  · rw [if_pos grows] at count ⊢
    rw [if_pos (full.mpr grows)]
    refine ⟨by simp, ?_, ?_, ?_, count⟩
    · -- The new chunk holds the one record.
      simp [ArenaChunk.bytes, Division.bytes]
    · rw [holds.size]
    · by_cases empty : division.current = []
      · have absent := holds.present.mpr empty
        rw [if_pos empty, if_neg (by simpa using absent)]
        exact holds.others
      · have held : buffer.arena.currentChunk.buf.isSome := by
          rw [Option.isSome_iff_ne_none]
          intro absent
          exact empty (holds.present.mp (Option.isNone_iff_eq_none.mpr absent))
        rw [if_neg empty, if_pos held, List.map_append, List.map_append, holds.others,
          List.map_singleton, List.map_singleton, holds.current]
  · rw [if_neg grows] at count ⊢
    rw [if_neg fun grown => grows (full.mp grown)]
    refine ⟨by simp, ?_, holds.size, holds.others, count⟩
    -- The record follows those of the chunk.
    show buffer.arena.currentChunk.bytes ++ call.record =
      Division.bytes (division.current ++ [call])
    rw [holds.current, Division.bytes, Division.bytes, List.flatMap_append]
    simp

/-- Appending ranges whose keys fit gives a buffer with the records of all of them. -/
theorem appendAll_holds {appends : List RangeAppend} (fits : ∀ call ∈ appends, call.Fits) :
    ∃ buffer, create.appendAll policy appends = some buffer ∧
      buffer.Holds (.of policy appends) ∧ (Division.of policy appends).Ok := by
  -- Each append keeps that the buffer holds the division so far.
  have general : ∀ (appends : List RangeAppend) (buffer : RangeBuffer) (division : Division),
      (∀ call ∈ appends, call.Fits) → buffer.Holds division → division.Ok →
      ∃ after, buffer.appendAll policy appends = some after ∧
        after.Holds (appends.foldl (Division.place policy) division) ∧
        (appends.foldl (Division.place policy) division).Ok := by
    intro appends
    induction appends with
    | nil =>
      intro buffer division _ holds ok
      exact ⟨buffer, rfl, holds, ok⟩
    | cons call rest ih =>
      intro buffer division fits holds ok
      obtain ⟨next, appended, held⟩ := @Holds.append policy _ _ _ holds (fits call (by simp))
      obtain ⟨after, others, result⟩ := ih next (division.place policy call)
        (fun other member => fits other (by simp [member])) held (ok.place call)
      refine ⟨after, ?_, result⟩
      rw [appendAll, List.foldlM_cons, appended]
      exact others
  exact general appends create ⟨[], 0, []⟩ fits holds_create ⟨by simp, fun _ => rfl⟩

end RangeBuffer

namespace ByteArena.ChunkIterator

variable {arena : ByteArena} {place : ChunkIterator}

/-- The chunks after a place. -/
def following (arena : ByteArena) : ChunkIterator → List ArenaChunk
  | initial => arena.otherChunks
  | other chunkIdx => arena.otherChunks.drop (chunkIdx + 1)

/-- There is a chunk wherever there are bytes. -/
theorem more_of_bytes (held : place.current arena ≠ []) : place.more arena := by
  cases place with
  | initial =>
    cases found : arena.currentChunk.buf with
    | none => simp [current, ArenaChunk.bytes, found] at held
    | some bytes => simp [more, found]
  | other chunkIdx =>
    by_cases inside : chunkIdx < arena.otherChunks.length
    · simpa [more] using inside
    · have none := List.getElem?_eq_none (Nat.le_of_not_lt inside)
      simp [current, none] at held

/-- The next place has the first of the chunks that follow, and the others follow it. -/
theorem next_following (arena : ByteArena) (place : ChunkIterator) :
    place.next.current arena = ((place.following arena).head?.map ArenaChunk.bytes).getD [] ∧
      place.next.following arena = (place.following arena).tail := by
  cases place with
  | initial => exact ⟨by simp [next, current, following, List.head?_eq_getElem?], by
      simp [next, following]⟩
  | other chunkIdx => exact ⟨by simp [next, current, following, List.head?_drop], by
      simp [next, following]⟩

end ByteArena.ChunkIterator

namespace RangeBuffer

namespace Iterator

/-- An iterator is before some ranges of its chunk, with some filled chunks that follow. -/
structure At (iterator : Iterator) (todo : List RangeAppend) (later : List (List RangeAppend)) :
    Prop where
  base : iterator.currentChunkBase = iterator.maChunkIterator.current iterator.arena
  rest : iterator.currentChunkBase.drop iterator.currentChunkOffset = Division.bytes todo
  inside : iterator.currentChunkOffset + (Division.bytes todo).length = iterator.currentChunkMax
  chunks : (iterator.maChunkIterator.following iterator.arena).map ArenaChunk.bytes =
    later.map Division.bytes
  filled : ∀ group ∈ later, group ≠ []
  last : todo = [] → later = []

variable {iterator : Iterator} {call : RangeAppend} {todo : List RangeAppend}
  {later : List (List RangeAppend)}

/-- The bytes of ranges are those of the first one, then those of the others. -/
theorem bytes_cons (call : RangeAppend) (todo : List RangeAppend) :
    Division.bytes (call :: todo) = call.record ++ Division.bytes todo := rfl

/-- A record takes bytes. -/
theorem length_record_pos (call : RangeAppend) : 0 < call.record.length :=
  List.length_pos_iff.mpr (Record.record_ne_nil call)

/-- Ranges that take no bytes are none. -/
theorem bytes_pos (call : RangeAppend) (todo : List RangeAppend) :
    0 < (Division.bytes (call :: todo)).length := by
  rw [bytes_cons, List.length_append]
  have := length_record_pos call
  omega

/-- At a range, it is read into the object. -/
theorem At.current (at_ : iterator.At (call :: todo) later) (short : call.Short)
    (record : Record) :
    iterator.current record =
      some (true, record.after call,
        { iterator with currentRecSize := call.record.length }) := by
  have inside := at_.inside
  have positive := bytes_pos call todo
  have read := Record.reads short record (Division.bytes todo)
  rw [Iterator.current, if_pos (by omega), at_.rest, bytes_cons, read]
  show some (true, record.after call, _) = _
  rw [Record.size_after short]

/-- Past the last range there is none to read. -/
theorem At.done (at_ : iterator.At [] later) (record : Record) :
    iterator.current record = some (false, record, iterator) := by
  have inside := at_.inside
  have none : (Division.bytes []).length = 0 := rfl
  rw [Iterator.current, if_neg (by omega)]
  rfl

/-- Before the end of a chunk the iterator stays in it. -/
theorem next_within (iterator : Iterator) (size : 0 < iterator.currentRecSize)
    (room : iterator.currentChunkOffset + iterator.currentRecSize < iterator.currentChunkMax) :
    iterator.next = some
      { iterator with
        currentChunkOffset := iterator.currentChunkOffset + iterator.currentRecSize
        currentRecSize := 0 } := by
  have below : iterator.currentChunkOffset < iterator.currentChunkMax := by omega
  have within : ¬iterator.currentChunkMax ≤
      iterator.currentChunkOffset + iterator.currentRecSize := by omega
  simp [Iterator.next, invariant, below, size, within]

/-- At the end of a chunk the iterator goes to the next one. -/
theorem next_exhausted (iterator : Iterator) (size : 0 < iterator.currentRecSize)
    (below : iterator.currentChunkOffset < iterator.currentChunkMax)
    (reached : iterator.currentChunkMax ≤ iterator.currentChunkOffset + iterator.currentRecSize)
    (more : iterator.maChunkIterator.more iterator.arena) :
    iterator.next = some (resetCurrentChunk
      { iterator with
        currentChunkOffset := iterator.currentChunkOffset + iterator.currentRecSize
        currentRecSize := 0
        maChunkIterator := iterator.maChunkIterator.next }) := by
  simp [Iterator.next, invariant, below, size, reached, more]

/-- From a range the iterator moves to the next one of its chunk, or to the next chunk. -/
theorem At.next (at_ : iterator.At (call :: todo) later) :
    ∃ after todo' later',
      ({ iterator with currentRecSize := call.record.length } : Iterator).next = some after ∧
      after.At todo' later' ∧ todo' ++ later'.flatten = todo ++ later.flatten := by
  have inside := at_.inside
  have positive := length_record_pos call
  have lengths : (Division.bytes (call :: todo)).length =
      call.record.length + (Division.bytes todo).length := by
    rw [bytes_cons, List.length_append]
  have below : iterator.currentChunkOffset < iterator.currentChunkMax := by omega
  have held : iterator.maChunkIterator.current iterator.arena ≠ [] := by
    intro none
    have rest := at_.rest
    rw [at_.base, none, List.drop_nil, bytes_cons] at rest
    exact Record.record_ne_nil call (List.append_eq_nil_iff.mp rest.symm).1
  have more := ByteArena.ChunkIterator.more_of_bytes held
  cases todo with
  | cons following todo =>
    -- There is another range in this chunk.
    have room := bytes_pos following todo
    refine ⟨_, following :: todo, later, next_within _ positive ?_, ?_, rfl⟩
    · show iterator.currentChunkOffset + call.record.length < iterator.currentChunkMax
      omega
    · refine ⟨at_.base, ?_, ?_, at_.chunks, at_.filled, fun none => by cases none⟩
      · have rest := congrArg (List.drop call.record.length) at_.rest
        rw [List.drop_drop, bytes_cons, List.drop_left] at rest
        exact rest
      · show iterator.currentChunkOffset + call.record.length +
          (Division.bytes (following :: todo)).length = iterator.currentChunkMax
        omega
  | nil =>
    -- The chunk is exhausted, and the one that follows is gone to.
    have none : (Division.bytes []).length = 0 := rfl
    obtain ⟨first, others⟩ :=
      ByteArena.ChunkIterator.next_following iterator.arena iterator.maChunkIterator
    have chunks := at_.chunks
    have bytes : iterator.maChunkIterator.next.current iterator.arena =
        Division.bytes (later.head?.getD []) := by
      have heads := congrArg List.head? chunks
      rw [List.head?_map, List.head?_map] at heads
      rw [first, heads]
      cases later with
      | nil => rfl
      | cons group later => rfl
    refine ⟨_, later.head?.getD [], later.tail,
      next_exhausted _ positive below ?_ more, ⟨rfl, bytes, ?_, ?_, ?_, ?_⟩, ?_⟩
    · show iterator.currentChunkMax ≤ iterator.currentChunkOffset + call.record.length
      omega
    · show 0 + _ = (iterator.maChunkIterator.next.current iterator.arena).length
      rw [bytes, Nat.zero_add]
    · show (iterator.maChunkIterator.next.following iterator.arena).map ArenaChunk.bytes = _
      rw [others, List.map_tail, chunks, List.map_tail]
    · exact fun group member => at_.filled group (List.mem_of_mem_tail member)
    · -- A chunk that follows is not empty, so only past the last one is there no range.
      intro empty
      cases later with
      | nil => rfl
      | cons group later => exact absurd empty (at_.filled group (by simp))
    · cases later with
      | nil => rfl
      | cons group later => rfl

end Iterator

/-- What is read back of some ranges: each right end as it is found after its left one. -/
def readBack : Option Bytes → List (Endpoint × Endpoint) → Option (List (Endpoint × Endpoint))
  | _, [] => some []
  | kept, (left, right) :: rest => do
    let right ← right.readRight (left.keyOr kept)
    let rest ← readBack (left.keyOr kept) rest
    return (left, right) :: rest

namespace Iterator

variable {iterator : Iterator} {todo order : List RangeAppend} {later : List (List RangeAppend)}

/-- With enough fuel the iterator reads back the ranges that it is before. -/
theorem At.collect (at_ : iterator.At todo later) (split : order = todo ++ later.flatten)
    (short : ∀ call ∈ order, call.Short) (record : Record) {fuel : Nat}
    (enough : order.length < fuel) :
    iterator.collect fuel record = readBack record.leftKey (order.map RangeAppend.range) := by
  induction order generalizing iterator todo later record fuel with
  | nil =>
    obtain ⟨rfl, _⟩ := List.append_eq_nil_iff.mp split.symm
    obtain ⟨fuel, rfl⟩ : ∃ left, fuel = left + 1 := ⟨fuel - 1, by simp at enough; omega⟩
    rw [Iterator.collect, at_.done record]
    rfl
  | cons call order ih =>
    obtain ⟨fuel, rfl⟩ : ∃ left, fuel = left + 1 := ⟨fuel - 1, by simp at enough; omega⟩
    cases todo with
    | nil =>
      -- Without a range in this chunk there is none in the others.
      rw [at_.last rfl] at split
      cases split
    | cons first todo =>
      obtain ⟨rfl, others⟩ := List.cons.inj split
      obtain ⟨after, todo', later', moved, at', same⟩ := at_.next
      have rest := ih at' (others.trans same.symm)
        (fun other member => short other (by simp [member]))
        (record.after call) (by simp at enough; omega)
      rw [Iterator.collect, at_.current (short call (by simp)) record]
      simp only [bind_runs, if_true, Record.getLeftKey_after, Record.getRightKey_after, moved, rest,
        List.map_cons, readBack]
      rfl

end Iterator

end RangeBuffer

end Tokuft
