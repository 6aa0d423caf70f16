import Tokuft.Locktree.RangeBufferRuns

/-! Exactly when iterating over a buffer gives back the ranges that were appended. -/

namespace Tokuft

namespace RangeBuffer

/-- Whenever a right end is the empty key, so is the left key that is read or kept before it. -/
def ReadsRight : Option Bytes → List (Endpoint × Endpoint) → Prop
  | _, [] => True
  | kept, (left, right) :: rest =>
    (right = .key [] → left.keyOr kept = some []) ∧ ReadsRight (left.keyOr kept) rest

/-- How many right ends are the empty key. -/
def emptyRights (ranges : List (Endpoint × Endpoint)) : Nat :=
  ranges.countP fun range => range.2 = .key []

variable {kept : Option Bytes} {ranges found : List (Endpoint × Endpoint)}

/-- A right end is read as itself exactly when it is not an empty key after another left one. -/
theorem readRight_eq {leftKey : Option Bytes} {right : Endpoint}
    (clear : right = .key [] → leftKey = some []) : right.readRight leftKey = some right := by
  cases right with
  | negativeInfinity => rfl
  | positiveInfinity => rfl
  | key bytes =>
    cases bytes with
    | nil =>
      rw [clear rfl]
      rfl
    | cons byte rest => rfl

/-- Ranges that read right are read back as they are. -/
theorem readBack_of_readsRight (clear : ReadsRight kept ranges) :
    readBack kept ranges = some ranges := by
  induction ranges generalizing kept with
  | nil => rfl
  | cons range rest ih =>
    obtain ⟨left, right⟩ := range
    rw [readBack, readRight_eq clear.1, bind_of_some, ih clear.2]
    rfl

/-- Reading back loses empty right ends, and none exactly when all ranges read right. -/
theorem emptyRights_readBack (read : readBack kept ranges = some found) :
    emptyRights found ≤ emptyRights ranges ∧
      (emptyRights ranges ≤ emptyRights found → ReadsRight kept ranges) := by
  induction ranges generalizing kept found with
  | nil =>
    cases read
    exact ⟨Nat.le_refl _, fun _ => trivial⟩
  | cons range rest ih =>
    obtain ⟨left, right⟩ := range
    rw [readBack] at read
    simp only [bind_inv] at read
    obtain ⟨right', first, rest', others, done⟩ := read
    cases done
    obtain ⟨fewer, clear⟩ := ih others
    have counts : ∀ (left right : Endpoint) (rest : List (Endpoint × Endpoint)),
        emptyRights ((left, right) :: rest) =
          emptyRights rest + if right = .key [] then 1 else 0 := by
      intro left right rest
      rw [emptyRights, List.countP_cons]
      simp [emptyRights]
    rw [counts, counts]
    by_cases empty : right = .key []
    · -- An empty right end is read as the left key, which is empty or not.
      subst empty
      rw [Endpoint.readRight, Option.map_eq_some_iff] at first
      obtain ⟨key, leftKey, rfl⟩ := first
      by_cases same : key = []
      · subst same
        rw [if_pos rfl]
        exact ⟨by omega, fun all => ⟨fun _ => leftKey, clear (by omega)⟩⟩
      · rw [if_pos rfl, if_neg fun equal => same (Endpoint.key.inj equal)]
        exact ⟨by omega, fun all => by omega⟩
    · -- Any other right end is read as itself.
      rw [readRight_eq fun equal => absurd equal empty] at first
      cases first
      rw [if_neg empty]
      exact ⟨by omega, fun all => ⟨fun equal => absurd equal empty, clear (by omega)⟩⟩

/-- Ranges that come back in any order read right. -/
theorem readsRight_of_perm (read : readBack kept ranges = some found)
    (same : found.Perm ranges) : ReadsRight kept ranges :=
  (emptyRights_readBack read).2 (Nat.le_of_eq (same.countP_eq _).symm)

/-- Whatever is iterated over, no key is longer than two bytes can say. -/
theorem length_of_collect {fuel : Nat} {iterator : Iterator} {record : Record}
    (short : record.Short) (collected : iterator.collect fuel record = some found) :
    ∀ range ∈ found, ∀ key, range.1 = .key key ∨ range.2 = .key key →
      key.length < maxKeySize := by
  -- By induction on the fuel: a size is read from two bytes.
  induction fuel generalizing iterator record found with
  | zero => cases collected
  | succ fuel ih =>
    rw [Iterator.collect, Iterator.current] at collected
    by_cases inside : iterator.currentChunkOffset < iterator.currentChunkMax
    · rw [if_pos inside] at collected
      simp only [bind_inv, Prod.exists, Prod.mk.injEq] at collected
      obtain ⟨_, record', _, ⟨_, _, read, rfl, rfl, rfl⟩, collected⟩ := collected
      rw [if_pos rfl] at collected
      simp only [Option.bind_eq_some_iff, Option.some.injEq] at collected
      obtain ⟨left, leftKey, right, rightKey, _, _, rest, others, rfl⟩ := collected
      obtain ⟨shortAfter, rightShort⟩ := Record.short_of_read short read
      intro range member key ends
      obtain first | later := List.mem_cons.mp member
      · subst first
        obtain rfl | rfl := ends
        · exact Record.length_getLeftKey shortAfter leftKey
        · exact rightShort key rightKey
      · exact ih shortAfter others range later key ends
    · rw [if_neg inside] at collected
      cases collected
      simp

/-- Iterating gives every appended range once, in order while there is one chunk, and the count. -/
def RoundTrips (buffer : RangeBuffer) (record : Record) (appends : List RangeAppend) : Prop :=
  (∃ ranges, buffer.Yields record ranges ∧ ranges.Perm (appends.map RangeAppend.range) ∧
    (buffer.arena.otherChunks = [] → ranges = appends.map RangeAppend.range)) ∧
  buffer.getNumRanges = appends.length

/-- Keys are shorter than the limit, the count is an integer, and all ranges read right. -/
structure Clear (policy : ChunkPolicy) (record : Record) (appends : List RangeAppend) : Prop where
  short : ∀ call ∈ appends, call.Short
  count : appends.length < 2 ^ 31
  right : ReadsRight record.leftKey ((Division.of policy appends).inOrder.map RangeAppend.range)

variable {policy : ChunkPolicy} {buffer : RangeBuffer} {record : Record}
  {appends : List RangeAppend}

/-- With enough fuel a buffer whose keys are short is read back in the order of its chunks. -/
theorem Holds.collect {division : Division} (holds : buffer.Holds division) (ok : division.Ok)
    (short : ∀ call ∈ division.inOrder, call.Short) {fuel : Nat}
    (enough : division.inOrder.length < fuel) :
    (Iterator.start buffer).collect fuel record =
      readBack record.leftKey (division.inOrder.map RangeAppend.range) := by
  -- One turn for each record is enough.
  have at_ : (Iterator.start buffer).At division.current division.others :=
    { base := rfl
      rest := holds.current
      inside := by
        rw [← holds.current]
        exact Nat.zero_add _
      chunks := holds.others
      filled := ok.filled
      last := ok.first }
  exact at_.collect rfl short record enough

/-- More fuel does not change what is collected. -/
theorem collect_mono {fuel more : Nat} {iterator : Iterator} {record : Record}
    (collected : iterator.collect fuel record = some found) (enough : fuel ≤ more) :
    iterator.collect more record = some found := by
  -- By induction on the fuel, which the end of the buffer does not need.
  induction fuel generalizing iterator record found more with
  | zero => cases collected
  | succ fuel ih =>
    obtain ⟨more, rfl⟩ : ∃ left, more = left + 1 := ⟨more - 1, by omega⟩
    rw [Iterator.collect] at collected ⊢
    simp only [bind_inv, Prod.exists] at collected ⊢
    obtain ⟨present, record', after, current, rest⟩ := collected
    refine ⟨present, record', after, current, ?_⟩
    cases present with
    | false => exact rest
    | true =>
      simp only [if_true, Option.bind_eq_some_iff] at rest ⊢
      obtain ⟨left, leftKey, right, rightKey, next, moved, rest, others, done⟩ := rest
      exact ⟨left, leftKey, right, rightKey, next, moved, rest, ih others (by omega), done⟩

/-- The keys of a range that came back are those of its call. -/
theorem short_of_range {call : RangeAppend}
    (bounded : ∀ key, call.range.1 = .key key ∨ call.range.2 = .key key →
      key.length < maxKeySize) : call.Short := by
  -- The keys of a call are those of its range.
  have each : ∀ pointer : KeyPointer,
      (∀ key, pointer.endpoint call.memory = .key key → key.length < maxKeySize) →
      pointer.size < maxKeySize := by
    intro pointer below
    cases pointer with
    | negativeInfinity => decide
    | positiveInfinity => decide
    | key data size =>
      have length := below _ rfl
      rwa [KeyPointer.length_bytes] at length
  exact ⟨each _ fun key same => bounded key (.inl same),
    each _ fun key same => bounded key (.inr same)⟩

/-- A count of 32 bits with a sign is right exactly below its limit. -/
theorem bmod_count (count : Nat) : ((count : Int).bmod (2 ^ 32) = count) ↔ count < 2 ^ 31 := by
  rw [Int.bmod_def]
  omega

/-- A buffer that holds the division of some ranges gives them back exactly when it can. -/
theorem Holds.roundTrips_iff (holds : buffer.Holds (.of policy appends))
    (ok : (Division.of policy appends).Ok) (short : record.Short) :
    buffer.RoundTrips record appends ↔ Clear policy record appends := by
  have perm := Division.inOrder_of policy appends
  have counted : buffer.getNumRanges = appends.length ↔ appends.length < 2 ^ 31 := by
    rw [getNumRanges, holds.count, perm.length_eq]
    exact bmod_count _
  have one : buffer.arena.otherChunks = [] ↔ (Division.of policy appends).others = [] := by
    rw [← List.map_eq_nil_iff, holds.others, List.map_eq_nil_iff]
  constructor
  · rintro ⟨⟨ranges, ⟨fuel, collected⟩, same, _⟩, count⟩
    -- Every key that came back has a length of two bytes, so every appended one has.
    have lengths := length_of_collect short collected
    have shorts : ∀ call ∈ appends, call.Short := by
      intro call member
      have back : call.range ∈ ranges := same.symm.subset (List.mem_map_of_mem member)
      exact short_of_range (lengths call.range back)
    -- So what came back is what the records give.
    have read := @Holds.collect _ record _ holds ok
      (fun call member => shorts call (perm.subset member))
      (fuel + (Division.of policy appends).inOrder.length + 1) (by omega)
    rw [collect_mono collected (by omega)] at read
    exact
      { short := shorts
        count := counted.mp count
        right := readsRight_of_perm read.symm (same.trans (perm.symm.map _)) }
  · intro clear
    have read := @Holds.collect _ record _ holds ok
      (fun call member => clear.short call (perm.subset member)) _ (Nat.lt_succ_self _)
    rw [readBack_of_readsRight clear.right] at read
    refine ⟨⟨_, ⟨_, read⟩, perm.map _, fun none => ?_⟩, counted.mpr clear.count⟩
    rw [Division.current_of policy appends (one.mp none)]

/-- The ranges of any calls come back exactly when no key has the full size of the limit, the
count fits, and every empty right end is read after an empty left key. -/
theorem rangeBuffer_exact (policy : ChunkPolicy) (record : Record) (short : record.Short)
    (appends : List RangeAppend) (fits : ∀ call ∈ appends, call.Fits) :
    ∃ buffer, create.appendAll policy appends = some buffer ∧
      (buffer.RoundTrips record appends ↔ Clear policy record appends) := by
  obtain ⟨buffer, appended, holds, ok⟩ := @appendAll_holds policy _ fits
  exact ⟨buffer, appended, holds.roundTrips_iff ok short⟩

/-- A record object that nothing was read into. -/
def Record.unset : Record where
  header := .init .negativeInfinity none
  leftKey := none
  rightKey := none

/-- A point and a range that starts at the least key come back. -/
theorem rangeBuffer_exact_two :
    ∃ buffer, create.appendAll newChunkSize
        [⟨fun _ => 97, .key 8 2, .key 8 2⟩, ⟨fun _ => 97, .negativeInfinity, .key 8 3⟩] =
          some buffer ∧
      (buffer.RoundTrips .unset
          [⟨fun _ => 97, .key 8 2, .key 8 2⟩, ⟨fun _ => 97, .negativeInfinity, .key 8 3⟩] ↔
        Clear newChunkSize .unset
          [⟨fun _ => 97, .key 8 2, .key 8 2⟩, ⟨fun _ => 97, .negativeInfinity, .key 8 3⟩]) :=
  rangeBuffer_exact newChunkSize .unset (fun _ held => by cases held) _ (by
    intro call member
    simp only [List.mem_cons, List.not_mem_nil, or_false] at member
    obtain rfl | rfl := member <;> exact ⟨by decide, by decide⟩)

/-- All keys up to the empty one come back as a range up to the key that was read before, and
a key as long as the limit comes back empty. -/
theorem rangeBuffer_emptyRight :
    (∃ buffer, create.appendAll newChunkSize
        [⟨fun _ => 97, .key 8 1, .key 8 1⟩, ⟨fun _ => 97, .negativeInfinity, .key 8 0⟩] =
          some buffer ∧
      ¬buffer.RoundTrips .unset
        [⟨fun _ => 97, .key 8 1, .key 8 1⟩, ⟨fun _ => 97, .negativeInfinity, .key 8 0⟩]) ∧
    ∃ buffer, create.appendAll newChunkSize [⟨fun _ => 97, .key 8 65536, .key 8 65536⟩] =
        some buffer ∧
      ¬buffer.RoundTrips .unset [⟨fun _ => 97, .key 8 65536, .key 8 65536⟩] := by
  have unset : Record.unset.Short := fun _ held => by cases held
  constructor
  · obtain ⟨buffer, appended, holds, ok⟩ := @appendAll_holds newChunkSize
      [⟨fun _ => 97, .key 8 1, .key 8 1⟩, ⟨fun _ => 97, .negativeInfinity, .key 8 0⟩] (by
        intro call member
        simp only [List.mem_cons, List.not_mem_nil, or_false] at member
        obtain rfl | rfl := member <;> exact ⟨by decide, by decide⟩)
    refine ⟨buffer, appended, fun back => ?_⟩
    -- The object keeps the key of the point, which is not empty.
    have clear := ((holds.roundTrips_iff ok unset).mp back).right
    exact absurd (clear.2.1 rfl) (by decide)
  · obtain ⟨buffer, appended, holds, ok⟩ := @appendAll_holds newChunkSize
      [⟨fun _ => 97, .key 8 65536, .key 8 65536⟩] (by
        intro call member
        rw [List.mem_singleton.mp member]
        exact ⟨Nat.le_refl _, Nat.le_refl _⟩)
    refine ⟨buffer, appended, fun back => ?_⟩
    have short := ((holds.roundTrips_iff ok unset).mp back).short _ (List.mem_singleton.mpr rfl)
    exact absurd short.1 (Nat.lt_irrefl 65536)

/-- What the keys of a record and its header take. -/
def recordSizes (keyrange treenode : Nat) : LockSizes KeyPointer where
  key := KeyPointer.size
  keyrange
  treenode
  recordHeader := RecordHeader.bytes
  headerPositive := by decide

/-- A record takes its header and the keys that are copied. -/
theorem accounting_record (call : RangeAppend) (arena : Memarena) (keyrange treenode : Nat) :
    arena.mallocFromArena call.record.length = arena.append (recordSizes keyrange treenode)
      (call.left.equals call.right) ⟨call.left, call.right⟩ := by
  rw [Memarena.append, RangeAppend.record]
  split <;> simp [pointRecord, rangeRecord, recordSizes, RecordHeader.bytes, Nat.add_assoc]

/-- The memory counted for appended ranges is that of the chunks that hold their records. -/
theorem accounting_appendAll (keyrange treenode : Nat)
    (appended : create.appendAll newChunkSize appends = some buffer) :
    buffer.arena.accounting = appends.foldl (fun arena call =>
      arena.append (recordSizes keyrange treenode) (call.left.equals call.right)
        ⟨call.left, call.right⟩) .create := by
  -- Chunks have buffers when they have sizes, from the first append to the last.
  suffices every : ∀ before : RangeBuffer, before.arena.Sized →
      before.appendAll newChunkSize appends = some buffer →
      buffer.arena.accounting = appends.foldl _ before.arena.accounting from
    every create ⟨fun _ => rfl, fun _ => rfl⟩ appended
  clear appended
  induction appends with
  | nil =>
    rintro before - same
    cases same
    rfl
  | cons call rest ih =>
    intro before sized appended
    obtain ⟨next, called, others⟩ := Option.bind_eq_some_iff.mp appended
    have wrote : next.arena = before.arena.mallocFromArena newChunkSize call.record := by
      simp only [RangeBuffer.append, bind_inv] at called
      obtain ⟨_, -, called⟩ := called
      split at called <;> rename_i point
      · cases called
        rw [RangeAppend.record, if_pos point]
      · obtain ⟨_, -, called⟩ := Option.bind_eq_some_iff.mp called
        cases called
        rw [RangeAppend.record, if_neg point]
    rw [List.foldl_cons, ← accounting_record, ← ByteArena.accounting_mallocFromArena sized, ← wrote]
    exact ih next (wrote ▸ ByteArena.sized_mallocFromArena _ _ sized) others

/-- A third range does not fit into the first chunk, and the next one is twice as large. -/
theorem accounting_appendAll_chunks : ∃ buffer,
    create.appendAll newChunkSize [⟨fun _ => 97, .key 0 4000, .key 0 4000⟩,
      ⟨fun _ => 97, .key 0 3, .key 8 2⟩, ⟨fun _ => 97, .key 0 90, .key 96 7⟩] = some buffer ∧
      buffer.arena.accounting = ⟨8192, 105, 4096⟩ := by
  obtain ⟨buffer, appended, -⟩ := @appendAll_holds newChunkSize
    [⟨fun _ => 97, .key 0 4000, .key 0 4000⟩, ⟨fun _ => 97, .key 0 3, .key 8 2⟩,
      ⟨fun _ => 97, .key 0 90, .key 96 7⟩] (by
    intro call member
    simp only [List.mem_cons, List.not_mem_nil, or_false] at member
    obtain rfl | rfl | rfl := member <;> exact ⟨by decide, by decide⟩)
  exact ⟨buffer, appended, (accounting_appendAll 0 0 appended).trans rfl⟩

end RangeBuffer

end Tokuft
