import Mathlib.Logic.Function.Basic

/-! Tables that share a pool of blocks, where a block belongs to one slot in all of them. -/

namespace Tokuft

namespace SlotTables

variable {Table Slot Block : Type}

/-- Some table has a block in some slot. -/
def Referenced (tables : Table → Slot → Option Block) (block : Block) : Prop :=
  ∃ table slot, tables table slot = some block

/-- A block belongs to one slot, in whichever tables it is. -/
def OneSlot (tables : Table → Slot → Option Block) : Prop :=
  ∀ {table other slot place block}, tables table slot = some block →
    tables other place = some block → slot = place

/-- Tables that have no more than others keep every block to one slot. -/
theorem OneSlot.mono {tables fewer : Table → Slot → Option Block} (oneSlot : OneSlot tables)
    (less : ∀ table place block, fewer table place = some block →
      ∃ other, tables other place = some block) : OneSlot fewer := by
  intro table other place spot block here there
  obtain ⟨first, here⟩ := less table place block here
  obtain ⟨second, there⟩ := less other spot block there
  exact oneSlot here there

variable [DecidableEq Slot]

/-- Change a slot in some of the tables. -/
def rewrite (tables : Table → Slot → Option Block) (changed : Table → Prop) [DecidablePred changed]
    (slot : Slot) (new : Option Block) (table : Table) (place : Slot) : Option Block :=
  if changed table ∧ place = slot then new else tables table place

variable {tables : Table → Slot → Option Block} {changed : Table → Prop} [DecidablePred changed]
  {slot : Slot} {old new : Option Block}

section

variable (oneSlot : OneSlot tables) (same : ∀ table, changed table → tables table slot = old)
  {first : Table} (isChanged : changed first) (block : Block)
include oneSlot same isChanged block

/-- The changed slot loses its block unless another table has it there, and gets the new one. -/
theorem rewrite_referenced :
    Referenced (rewrite tables changed slot new) block ↔ new = some block ∨
      (Referenced tables block ∧
        (old = some block → ∃ table, ¬changed table ∧ tables table slot = some block)) := by
  constructor
  · intro ⟨table, place, found⟩
    unfold rewrite at found
    split at found
    · exact Or.inl found
    · rename_i outside
      refine Or.inr ⟨⟨table, place, found⟩, fun had => ?_⟩
      -- The block was in the changed slot, so it is in that slot here.
      have here := oneSlot found ((same first isChanged).trans had)
      subst here
      exact ⟨table, fun wrong => outside ⟨wrong, rfl⟩, found⟩
  · rintro (rfl | ⟨⟨table, place, found⟩, elsewhere⟩)
    · exact ⟨first, slot, if_pos ⟨isChanged, rfl⟩⟩
    · by_cases inside : changed table ∧ place = slot
      · obtain ⟨isChangedToo, rfl⟩ := inside
        obtain ⟨other, outside, there⟩ := elsewhere ((same table isChangedToo).symm.trans found)
        exact ⟨other, place, by rw [rewrite, if_neg fun wrong => outside wrong.1]; exact there⟩
      · exact ⟨table, place, by rw [rewrite, if_neg inside]; exact found⟩

/-- A new block comes to those that are left when the slot is emptied. -/
theorem rewrite_new :
    Referenced (rewrite tables changed slot new) block ↔
      new = some block ∨ Referenced (rewrite tables changed slot none) block := by
  rw [rewrite_referenced oneSlot same isChanged, rewrite_referenced oneSlot same isChanged]
  simp

end

/-- Outside the changed slot the tables have what they have when it is emptied. -/
theorem rewrite_elsewhere {block : Block}
    (gone : ¬Referenced (rewrite tables changed slot none) block) {table : Table} {place : Slot}
    (found : rewrite tables changed slot new table place = some block) :
    changed table ∧ place = slot := by
  by_contra outside
  refine gone ⟨table, place, ?_⟩
  rw [rewrite, if_neg outside] at found ⊢
  exact found

/-- A new block that no table has elsewhere belongs to the changed slot only. -/
theorem rewrite_oneSlot (oneSlot : OneSlot tables)
    (fresh : ∀ block, new = some block → ¬Referenced (rewrite tables changed slot none) block) :
    OneSlot (rewrite tables changed slot new) := by
  -- One case for a slot that was changed and one for all others.
  intro table other place spot block here there
  by_cases inside : changed table ∧ place = slot
  · have isNew : new = some block := by rw [rewrite, if_pos inside] at here; exact here
    rw [inside.2, (rewrite_elsewhere (fresh block isNew) there).2]
  · by_cases alsoInside : changed other ∧ spot = slot
    · have isNew : new = some block := by rw [rewrite, if_pos alsoInside] at there; exact there
      exact absurd (rewrite_elsewhere (fresh block isNew) here) inside
    · rw [rewrite, if_neg inside] at here
      rw [rewrite, if_neg alsoInside] at there
      exact oneSlot here there

end SlotTables

end Tokuft
