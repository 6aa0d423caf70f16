import Tokuft.Locktree.Exact
import Mathlib.Combinatorics.Enumerative.DoubleCounting

/-! An escalation keeps every lock covered, tells every transaction once, and adds no range, as long
as its range buffers can store what it writes to them. -/

namespace Tokuft

/-- Members that each stand on their own place are no more than the places. -/
theorem length_le_of_own_place {α β : Type} {many : List α} {places : List β} (nodup : many.Nodup)
    (on : α → β → Prop) (some : ∀ member ∈ many, ∃ place ∈ places, on member place)
    (own : ∀ member ∈ many, ∀ other ∈ many, ∀ place ∈ places,
      on member place → on other place → member = other) : many.length ≤ places.length := by
  -- Members on different places are counted by their places.
  classical
  have card : many.toFinset.card ≤ places.toFinset.card := by
    refine Finset.card_le_card_of_forall_subsingleton on (fun member inMany => ?_)
      fun place inPlaces member first other second => ?_
    · obtain ⟨place, inPlaces, stands⟩ := some member (List.mem_toFinset.mp inMany)
      exact ⟨place, List.mem_toFinset.mpr inPlaces, stands⟩
    · exact own member (List.mem_toFinset.mp first.1) other (List.mem_toFinset.mp second.1) place
        (List.mem_toFinset.mp inPlaces) first.2 second.2
  rw [List.toFinset_card_of_nodup nodup] at card
  exact card.trans (List.toFinset_card_le places)

variable {Key : Type} [LinearOrder Key]

/-- Locks that grew together are not more than before. -/
theorem Rearranged.length_le {before after : List (RowLock Key)}
    (rearranged : Rearranged before after) (ordered : ∀ lock ∈ before, lock.range.Ordered)
    (ok : LocksOk after) : after.length ≤ before.length := by
  refine length_le_of_own_place ok.nodup (fun new old => old.range.keys ⊆ new.range.keys)
    (fun new member => ?_) fun new member other otherMember old there inNew inOther => ?_
  · obtain ⟨old, there, -, inside⟩ := rearranged.grown new member
    exact ⟨old, there, inside⟩
  · -- Two locks around one old range share a key.
    have key := Keyrange.left_mem_keys (ordered old there)
    exact ok.eq_of_overlaps member otherMember ((Keyrange.overlaps_iff_shared
      (ok.ordered new member) (ok.ordered other otherMember)).mpr ⟨_, inNew key, inOther key⟩)

/-- Merged locks are not more than before. -/
theorem Merged.length_le {before after : List (RowLock Key)} (merged : Merged before after) :
    after.length ≤ before.length := by
  refine length_le_of_own_place merged.ok.nodup (fun new old => new.range.left = old.range.left)
    (fun new member => ?_) fun new member other otherMember old there left otherLeft => ?_
  · obtain ⟨first, there, -, -, -, left, -⟩ := merged.ends new member
    exact ⟨first, there, left⟩
  · -- Two locks with the same left end share it.
    have key := Keyrange.left_mem_keys (merged.ok.ordered new member)
    have otherKey := Keyrange.left_mem_keys (merged.ok.ordered other otherMember)
    rw [otherLeft, ← left] at otherKey
    exact merged.ok.eq_of_overlaps member otherMember ((Keyrange.overlaps_iff_shared
      (merged.ok.ordered new member) (merged.ok.ordered other otherMember)).mpr
        ⟨_, key, otherKey⟩)

namespace Locktree

/-- What an escalation leaves, and the range buffers that it gives to its callback in turn. -/
structure EscalatedExactly (before after : Locktree Key)
    (buffers : List (Nat × List (Keyrange Key))) : Prop where
  /-- What a transaction locked is covered by one range that it locks. -/
  covered : ∀ lock ∈ before.heldLocks, ∃ wide ∈ after.heldLocks,
    wide.txnid = lock.txnid ∧ lock.range.keys ⊆ wide.range.keys
  exclusive : ∀ lock ∈ after.heldLocks, ∀ other ∈ after.heldLocks,
    lock.txnid ≠ other.txnid → lock.range.overlaps other.range = false
  /-- All locks are in the tree. -/
  inTree : after.heldLocks = after.rangetree.locks
  once : (buffers.map Prod.fst).Nodup
  /-- The callback is called for the transactions that hold locks. -/
  told : ∀ txnid, txnid ∈ buffers.map Prod.fst ↔ ∃ lock ∈ before.heldLocks, lock.txnid = txnid
  /-- A buffer lists the ranges of its transaction that are in the tree. -/
  listed : ∀ buffer ∈ buffers, ∀ range,
    range ∈ buffer.2 ↔ { range, txnid := buffer.1 } ∈ after.rangetree.locks
  /-- The ranges of a buffer are all different. -/
  distinct : ∀ buffer ∈ buffers, buffer.2.Nodup
  fewer : after.heldLocks.length ≤ before.heldLocks.length

variable {buffers : List (Nat × List (Keyrange Key))}

omit [LinearOrder Key] in
/-- A lock of the buffers is on a range in the buffer of its transaction. -/
theorem mem_locksOfBuffers {lock : RowLock Key} :
    lock ∈ locksOfBuffers buffers ↔
      ∃ buffer ∈ buffers, buffer.1 = lock.txnid ∧ lock.range ∈ buffer.2 := by
  rw [locksOfBuffers, List.mem_flatMap]
  refine exists_congr fun buffer => and_congr_right fun _ => ?_
  exact mem_locksOf.trans (and_congr_left fun _ => eq_comm)

omit [LinearOrder Key] in
/-- No two buffers are for the same transaction. -/
theorem Descending.nodup (descending : Descending buffers) : (buffers.map Prod.fst).Nodup :=
  List.pairwise_map.mpr (descending.imp fun less => Nat.ne_of_gt less)

omit [LinearOrder Key] in
/-- The ranges of a buffer are all different when the locks of the buffers are. -/
theorem nodup_of_locksOfBuffers (nodup : (locksOfBuffers buffers).Nodup) :
    ∀ buffer ∈ buffers, buffer.2.Nodup := by
  intro buffer member
  rw [locksOfBuffers, List.nodup_flatMap] at nodup
  exact List.Nodup.of_map _ (nodup.1 buffer member)

/-- Whatever an escalation reads from its range buffers is what was written to them. -/
structure Readable [KeyBytes Key] (lt : Locktree Key) : Prop where
  buffered : KeyBytes.Clear lt.stoBuffer
  /-- What a batch has of one transaction in one place begins and ends with storable keys. -/
  runs : ∀ locks, Coalesced lt.heldLocks locks → ∀ wide, BatchRun locks wide →
    KeyBytes.Storable wide.range

variable [BoundedOrder Key] [KeyBytes Key]

/-- An escalation of a lock tree that it can read covers, tells and lists exactly its locks. -/
theorem escalate_exact {before : Locktree Key} (ok : before.Ok) (readable : before.Readable) :
    ∃ after buffers, before.escalate = some (after, buffers) ∧ after.Ok ∧
      EscalatedExactly before after buffers := by
  let kept : Nat → Set (Keyrange Key) := fun _ => {range | KeyBytes.Storable range}
  obtain ⟨after, buffers, moved, done, afterOk, descending, nonempty, coalesced, merged,
    idle, nodup,
      same⟩ := @escalate_ok _ _ _ _ _ kept ok (KeyBytes.givesBack readable.buffered)
    (fun _ _ storable => KeyBytes.givesBack (KeyBytes.clear_of_storable storable))
    fun moved _ coalesced _ isRuns wide member =>
      readable.runs moved coalesced wide (isRuns wide member)
  have held := heldLocks_idle idle
  have covered : ∀ lock ∈ before.heldLocks, ∃ wide ∈ after.heldLocks,
      wide.txnid = lock.txnid ∧ lock.range.keys ⊆ wide.range.keys := by
    intro lock member
    obtain ⟨middle, inMoved, own, grows⟩ := coalesced.stays lock member
    obtain ⟨wide, there, sameToo, left, right⟩ := merged.covered middle inMoved
    exact ⟨wide, held ▸ there, sameToo.trans own, grows.trans (Set.Icc_subset_Icc left right)⟩
  refine ⟨after, buffers, done, afterOk, covered,
    fun lock member other otherMember => afterOk.exclusive member otherMember, held,
    descending.nodup, fun txnid => ⟨fun member => ?_, fun ⟨lock, member, own⟩ => ?_⟩,
    fun buffer member range => ?_, nodup_of_locksOfBuffers nodup, ?_⟩
  · -- A buffer has a merged lock, which goes back to locks of its transaction.
    obtain ⟨buffer, there, rfl⟩ := List.mem_map.mp member
    obtain ⟨range, inBuffer⟩ := List.exists_mem_of_ne_nil _ (nonempty buffer there)
    have lockMember : { range, txnid := buffer.1 } ∈ after.rangetree.locks :=
      (same _).mpr (mem_locksOfBuffers.mpr ⟨buffer, there, rfl, inBuffer⟩)
    obtain ⟨first, inMoved, -, -, own, -⟩ := merged.ends _ lockMember
    obtain ⟨old, inHeld, sameTxnid, -⟩ := coalesced.grown first inMoved
    exact ⟨old, inHeld, sameTxnid.trans own⟩
  · obtain ⟨wide, there, sameTxnid, -⟩ := covered lock member
    rw [held, same] at there
    obtain ⟨buffer, inBuffers, isTxn, -⟩ := mem_locksOfBuffers.mp there
    exact List.mem_map.mpr ⟨buffer, inBuffers, isTxn.trans (sameTxnid.trans own)⟩
  · rw [same, mem_locksOfBuffers]
    constructor
    · exact fun inBuffer => ⟨buffer, member, rfl, inBuffer⟩
    · rintro ⟨other, otherMember, sameTxnid, inOther⟩
      rw [List.inj_on_of_nodup_map descending.nodup member otherMember sameTxnid.symm]
      exact inOther
  · rw [held]
    exact merged.length_le.trans (coalesced.toRearranged.length_le ok.ordered coalesced.ok)

section

attribute [local instance] oneByteKeys

/-- A transaction holds a row, another one the next, and the first one again two rows. -/
def takenInTurn : Locktree (Fin 10) :=
  let last : Treenode (Fin 10) := .node .nil 0 ⟨⟨7, 7⟩, 1⟩ .nil 0
  { Locktree.create with
    rangetree := .node (.node .nil 0 ⟨⟨1, 1⟩, 1⟩ .nil 0) 1 ⟨⟨3, 3⟩, 2⟩
      (.node .nil 0 ⟨⟨5, 5⟩, 1⟩ last 1) 2 }

/-- Its rows grow together behind the row of the other transaction, and not across it. -/
theorem escalate_exact_inTurn : ∃ after,
    takenInTurn.escalate = some (after, [(2, [⟨3, 3⟩]), (1, [⟨1, 1⟩, ⟨5, 7⟩])]) ∧
      EscalatedExactly takenInTurn after [(2, [⟨3, 3⟩]), (1, [⟨1, 1⟩, ⟨5, 7⟩])] := by
  have ok : takenInTurn.Ok := by
    refine ⟨⟨?_, ?_⟩, (fun range member => by cases member), fun _ => rfl,
      fun owner wrong => by cases wrong⟩
    · show List.Pairwise (fun earlier later => earlier.range.right < later.range.left)
        takenInTurn.rangetree.locks
      decide
    · show ∀ lock ∈ takenInTurn.rangetree.locks, lock.range.left ≤ lock.range.right
      decide
  have readable : takenInTurn.Readable :=
    ⟨KeyBytes.clear_of_storable (fun range _ => storable_oneByteKeys range),
      fun _ _ wide _ => storable_oneByteKeys wide.range⟩
  obtain ⟨after, buffers, done, -, exactly⟩ := escalate_exact ok readable
  have told : takenInTurn.escalate.map Prod.snd =
      some [(2, [⟨3, 3⟩]), (1, [⟨1, 1⟩, ⟨5, 7⟩])] := by
    decide +kernel
  rw [done] at told
  obtain rfl := Option.some.inj told
  exact ⟨after, done, exactly⟩

end

section

/-- In a descending order the empty key lies behind every other one. -/
local instance descendingKeys : KeyBytes (Fin 4) where
  endpoint k :=
    if k = 0 then .negativeInfinity else if k = 1 then .key [98] else if k = 2 then .key []
    else .positiveInfinity
  key := fun
    | .negativeInfinity => 0
    | .positiveInfinity => 3
    | .key [] => 2
    | .key _ => 1
  key_endpoint := by decide
  fits := by decide

/-- A transaction holds the row of a key, and behind it that of the empty one. -/
def emptyKeyLast : Locktree (Fin 4) :=
  { Locktree.create with
    rangetree := .node .nil 0 ⟨⟨1, 1⟩, 1⟩ (.node .nil 0 ⟨⟨2, 2⟩, 1⟩ .nil 0) 1 }

/-- An escalation writes one range for both, reads its right end as its left one, and so takes the
empty key away from the transaction. -/
theorem escalate_loses_empty_key : emptyKeyLast.Ok ∧ ∃ after buffers,
    emptyKeyLast.escalate = some (after, buffers) ∧
      ¬ EscalatedExactly emptyKeyLast after buffers := by
  refine ⟨⟨⟨?_, ?_⟩, (fun range member => by cases member), fun _ => rfl,
    fun owner wrong => by cases wrong⟩, ?_⟩
  · show List.Pairwise (fun earlier later => earlier.range.right < later.range.left)
      emptyKeyLast.rangetree.locks
    decide
  · show ∀ lock ∈ emptyKeyLast.rangetree.locks, lock.range.left ≤ lock.range.right
    decide
  · have told : emptyKeyLast.escalate.map (fun (after, _) => after.heldLocks) =
        some [⟨⟨1, 1⟩, 1⟩] := by
      decide +kernel
    obtain ⟨⟨after, buffers⟩, done, held⟩ := Option.map_eq_some_iff.mp told
    refine ⟨after, buffers, done, fun exactly => ?_⟩
    have held : after.heldLocks = [⟨⟨1, 1⟩, 1⟩] := held
    obtain ⟨wide, there, -, covers⟩ := exactly.covered ⟨⟨2, 2⟩, 1⟩ (by decide)
    rw [held, List.mem_singleton] at there
    subst there
    exact absurd (covers (Set.left_mem_Icc.mpr le_rfl)).2 (by decide)

end

end Locktree

end Tokuft
