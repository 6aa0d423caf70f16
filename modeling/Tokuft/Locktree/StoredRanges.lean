import Tokuft.Locktree.RangeBufferExact

/-! The range buffers of a lock tree hold the bytes of keys, and give back what they can store. -/

namespace Tokuft

/-- The bytes of the key of an end. -/
def Endpoint.bytes : Endpoint → Bytes
  | key bytes => bytes
  | _ => []

/-- An end whose key lies at an address. -/
def Endpoint.pointer (data : Nat) : Endpoint → KeyPointer
  | negativeInfinity => .negativeInfinity
  | positiveInfinity => .positiveInfinity
  | key bytes => .key data bytes.length

/-- The call that appends a range: a point has one key, and other keys lie one behind the other. -/
def RangeAppend.ofEnds (left right : Endpoint) : RangeAppend where
  memory := fun address => ((left.bytes ++ right.bytes)[address]?).getD 0
  left := left.pointer 0
  right := if left = right then left.pointer 0 else right.pointer left.bytes.length

/-- A key that lies in memory is read from there. -/
theorem Endpoint.endpoint_pointer {end' : Endpoint} {data : Nat} {memory : Nat → UInt8}
    (lies : ∀ index (inside : index < end'.bytes.length),
      memory (data + index) = end'.bytes[index]) :
    (end'.pointer data).endpoint memory = end' := by
  cases end' with
  | negativeInfinity => rfl
  | positiveInfinity => rfl
  | key bytes =>
    refine congrArg key (List.ext_getElem (by simp [KeyPointer.bytes]) fun index _ inside => ?_)
    simp only [KeyPointer.bytes, List.getElem_map, List.getElem_range]
    exact lies index inside

/-- The range that the call means is the one with these ends. -/
theorem RangeAppend.range_ofEnds (left right : Endpoint) :
    (ofEnds left right).range = (left, right) := by
  have first : (left.pointer 0).endpoint (ofEnds left right).memory = left := by
    refine Endpoint.endpoint_pointer fun index inside => ?_
    show ((left.bytes ++ right.bytes)[0 + index]?).getD 0 = _
    rw [Nat.zero_add, List.getElem?_append_left inside, List.getElem?_eq_getElem inside]
    rfl
  refine Prod.ext first ?_
  show (if left = right then left.pointer 0 else right.pointer left.bytes.length).endpoint _ = right
  split
  · rename_i same
    exact first.trans same
  · refine Endpoint.endpoint_pointer fun index inside => ?_
    show ((left.bytes ++ right.bytes)[left.bytes.length + index]?).getD 0 = _
    rw [List.getElem?_append_right (Nat.le_add_right _ _), Nat.add_sub_cancel_left,
      List.getElem?_eq_getElem inside]
    rfl

/-- How long the keys of the call are. -/
theorem RangeAppend.size_ofEnds (left right : Endpoint) :
    (ofEnds left right).left.size = left.bytes.length ∧
      (ofEnds left right).right.size = right.bytes.length := by
  have size (end' : Endpoint) (data : Nat) : (end'.pointer data).size = end'.bytes.length := by
    cases end' <;> rfl
  refine ⟨size _ _, ?_⟩
  rw [ofEnds]
  split
  · rename_i same
    rw [size, same]
  · exact size _ _

/-- The bytes of the keys of an order, which a range buffer takes up to its limit. -/
class KeyBytes (Key : Type) where
  endpoint : Key → Endpoint
  /-- The key that some bytes are read as. -/
  key : Endpoint → Key
  key_endpoint : ∀ k, key (endpoint k) = k
  fits : ∀ k, (endpoint k).bytes.length ≤ maxKeySize

namespace KeyBytes

variable {Key : Type} [KeyBytes Key]

/-- The call that appends a range. -/
def call (range : Keyrange Key) : RangeAppend :=
  .ofEnds (endpoint range.left) (endpoint range.right)

/-- The range between two ends that were read. -/
def between (ends : Endpoint × Endpoint) : Keyrange Key where
  left := key ends.1
  right := key ends.2

/-- The bytes that are stored in an arena. -/
def stored (arena : ByteArena) : Nat :=
  arena.currentChunk.used + (arena.otherChunks.map ArenaChunk.used).sum

/-- Ranges are appended to a buffer one after the other, and iterated over from its first chunk. -/
instance : RangeBuffers Key where
  iterate ranges := do
    let buffer ← RangeBuffer.create.appendAll newChunkSize (ranges.map call)
    -- A record takes bytes, so there are no more of them than bytes.
    let read ← (RangeBuffer.Iterator.start buffer).collect (stored buffer.arena + 1) .unset
    return read.map between

/-- A range buffer reads the right end of a range as such wherever the range is stored. -/
def Storable (range : Keyrange Key) : Prop :=
  (endpoint range.left).bytes.length < maxKeySize ∧
    (endpoint range.right).bytes.length < maxKeySize ∧
    (endpoint range.right = .key [] → endpoint range.left = .key [])

instance (range : Keyrange Key) : Decidable (Storable range) :=
  inferInstanceAs (Decidable (_ ∧ _ ∧ (_ → _)))

/-- Keys are shorter than the limit, and wherever the buffer stores a range, it reads right. -/
structure Clear (ranges : List (Keyrange Key)) : Prop where
  short : ∀ range ∈ ranges, (call range).Short
  right : RangeBuffer.ReadsRight none
    ((RangeBuffer.Division.of newChunkSize (ranges.map call)).inOrder.map RangeAppend.range)

/-- A group of ranges takes at least as many bytes as there are ranges. -/
theorem length_le_bytes (group : List RangeAppend) :
    group.length ≤ (RangeBuffer.Division.bytes group).length := by
  induction group with
  | nil => exact Nat.le_refl 0
  | cons call rest ih =>
    have positive := RangeBuffer.Iterator.length_record_pos call
    rw [RangeBuffer.Iterator.bytes_cons, List.length_append, List.length_cons]
    omega

/-- A buffer stores at least as many bytes as ranges. -/
theorem length_le_stored {buffer : RangeBuffer} {division : RangeBuffer.Division}
    (holds : buffer.Holds division) : division.inOrder.length ≤ stored buffer.arena := by
  have others : (buffer.arena.otherChunks.map ArenaChunk.used).sum =
      (division.others.map fun group => (RangeBuffer.Division.bytes group).length).sum := by
    have lengths := congrArg (fun chunks => (chunks.map List.length).sum) holds.others
    rw [List.map_map, List.map_map] at lengths
    exact lengths
  have each : division.others.flatten.length ≤
      (division.others.map fun group => (RangeBuffer.Division.bytes group).length).sum := by
    rw [List.length_flatten]
    exact List.sum_le_sum fun group _ => length_le_bytes group
  have current := length_le_bytes division.current
  rw [RangeBuffer.Division.inOrder, List.length_append, stored, ArenaChunk.used, holds.current,
    others]
  omega

/-- Ranges that are clear come back, in the order of the chunks. -/
theorem givesBack {ranges : List (Keyrange Key)} (clear : Clear ranges) :
    Locktree.GivesBack ranges := by
  -- Every range is appended by a call of its own, and read back from its record.
  obtain ⟨buffer, appended, holds, ok⟩ := @RangeBuffer.appendAll_holds newChunkSize
    (ranges.map call) (by
      intro given member
      obtain ⟨range, -, rfl⟩ := List.mem_map.mp member
      obtain ⟨left, right⟩ := RangeAppend.size_ofEnds (endpoint range.left) (endpoint range.right)
      exact ⟨left.trans_le (fits _), right.trans_le (fits _)⟩)
  have perm := RangeBuffer.Division.inOrder_of newChunkSize (ranges.map call)
  have read := @RangeBuffer.Holds.collect _ .unset _ holds ok (fun given member => by
      obtain ⟨range, there, rfl⟩ := List.mem_map.mp (perm.subset member)
      exact clear.short range there)
    (stored buffer.arena + 1) (Nat.lt_succ_of_le (length_le_stored holds))
  rw [show RangeBuffer.Record.unset.leftKey = none from rfl,
    RangeBuffer.readBack_of_readsRight clear.right] at read
  refine ⟨((RangeBuffer.Division.of newChunkSize (ranges.map call)).inOrder.map
    RangeAppend.range).map between,
      by simp only [RangeBuffers.iterate, appended, read, bind_runs], ?_⟩
  have same : ((ranges.map call).map RangeAppend.range).map between = ranges := by
    rw [List.map_map, List.map_map]
    refine List.map_id'' (fun range => ?_) ranges
    simp only [Function.comp_apply, call, RangeAppend.range_ofEnds, between, key_endpoint]
  have back := (perm.map RangeAppend.range).map (@between Key _)
  rwa [same] at back

/-- Storable ranges come back wherever they are stored. -/
theorem clear_of_storable {ranges : List (Keyrange Key)}
    (storable : ∀ range ∈ ranges, Storable range) : Clear ranges := by
  refine ⟨fun range member => ?_, ?_⟩
  · obtain ⟨left, right⟩ := RangeAppend.size_ofEnds (endpoint range.left) (endpoint range.right)
    exact ⟨left.trans_lt (storable range member).1, right.trans_lt (storable range member).2.1⟩
  · have perm := RangeBuffer.Division.inOrder_of newChunkSize (ranges.map call)
    -- Whatever key the record object keeps, an empty right end follows an empty left one.
    have general : ∀ (calls : List RangeAppend) (kept : Option Bytes),
        (∀ given ∈ calls, ∃ range ∈ ranges, given = call range) →
        RangeBuffer.ReadsRight kept (calls.map RangeAppend.range) := by
      intro calls
      induction calls with
      | nil => exact fun _ _ => trivial
      | cons given rest ih =>
        intro kept all
        obtain ⟨range, member, rfl⟩ := all given List.mem_cons_self
        have ends : (call range).range = (endpoint range.left, endpoint range.right) :=
          RangeAppend.range_ofEnds _ _
        rw [List.map_cons, ends]
        refine ⟨fun empty => ?_, ih _ fun other there => all other (List.mem_cons_of_mem _ there)⟩
        rw [(storable range member).2.2 empty]
        rfl
    refine general _ none fun given member => ?_
    obtain ⟨range, there, rfl⟩ := List.mem_map.mp (perm.subset member)
    exact ⟨range, there, rfl⟩

/-- Range buffers keep storable ranges that may be joined. -/
theorem keeps [LinearOrder Key] {kept : Nat → Set (Keyrange Key)}
    (joins : ∀ txnid, ∀ first ∈ kept txnid, ∀ last ∈ kept txnid, first.left ≤ last.right →
      { left := first.left, right := last.right } ∈ kept txnid)
    (storable : ∀ txnid, ∀ range ∈ kept txnid, Storable range) : RangeBuffers.Keeps kept :=
  ⟨joins, fun txnid _ all => givesBack (clear_of_storable fun range member =>
    storable txnid range (all range member))⟩

end KeyBytes

end Tokuft
