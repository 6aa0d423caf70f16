import Mathlib.Logic.Relation

/-! Paths of a graph that avoid some places, as a search that marks its own path sees them. -/

namespace Tokuft

variable {Node : Type} {edge : Node → Node → Prop}

/-- A path of at least one edge between two nodes, whose places between them are not avoided. -/
def Escapes (edge : Node → Node → Prop) (avoided : Set Node) (source target : Node) : Prop :=
  ∃ last, Relation.ReflTransGen (fun a b => edge a b ∧ b ∉ avoided) source last ∧
    edge last target

namespace Escapes

variable {avoided : Set Node} {source target : Node}

/-- The path may be a single edge. -/
theorem single (direct : edge source target) :
    Escapes edge avoided source target :=
  ⟨source, .refl, direct⟩

/-- A path goes on from a place that is not avoided. -/
theorem head {next : Node} (first : edge source next) (free : next ∉ avoided)
    (rest : Escapes edge avoided next target) :
    Escapes edge avoided source target := by
  obtain ⟨last, path, final⟩ := rest
  exact ⟨last, .head ⟨first, free⟩ path, final⟩

/-- Avoiding less leaves more paths. -/
theorem mono {more : Set Node} (less : avoided ⊆ more) (path : Escapes edge more source target) :
    Escapes edge avoided source target := by
  obtain ⟨last, steps, final⟩ := path
  exact ⟨last, Relation.ReflTransGen.mono
    (fun a b step => ⟨step.1, fun inside => step.2 (less inside)⟩) source last steps, final⟩

/-- A path either is a single edge, or goes on from a place that is not avoided. -/
theorem cases_head (path : Escapes edge avoided source target) :
    edge source target ∨
      ∃ next, edge source next ∧ next ∉ avoided ∧ Escapes edge avoided next target := by
  obtain ⟨last, steps, final⟩ := path
  rcases steps.cases_head with rfl | ⟨next, ⟨first, free⟩, rest⟩
  · exact Or.inl final
  · exact Or.inr ⟨next, first, free, last, rest, final⟩

/-- Whatever a path returns to can be avoided by starting over from there. -/
theorem avoid_or_restart (place : Node) (path : Escapes edge avoided source target) :
    Escapes edge (insert place avoided) source target ∨
      Escapes edge (insert place avoided) place target := by
  -- By induction on the path from its front.
  obtain ⟨last, steps, final⟩ := path
  induction steps using Relation.ReflTransGen.head_induction_on with
  | refl => exact Or.inl (single final)
  | head step rest ih =>
    rename_i here next
    rcases ih with avoids | restarts
    · by_cases same : next = place
      · exact Or.inr (same ▸ avoids)
      · refine Or.inl (head step.1 ?_ avoids)
        rintro (rfl | inside)
        · exact same rfl
        · exact step.2 inside
    · exact Or.inr restarts

/-- A search from a node may avoid the node itself, and follow each of its edges. -/
theorem iff_head :
    Escapes edge avoided source target ↔ edge source target ∨
      ∃ next, edge source next ∧ next ∉ insert source avoided ∧
        Escapes edge (insert source avoided) next target := by
  -- The path starts over whenever it comes back to the source.
  constructor
  · intro path
    have avoids : Escapes edge (insert source avoided) source target :=
      (avoid_or_restart source path).elim id id
    exact avoids.cases_head
  · rintro (direct | ⟨next, first, free, rest⟩)
    · exact single direct
    · exact head first (fun inside => free (Or.inr inside))
        (rest.mono fun node inside => Or.inr inside)

/-- With nothing to avoid there is a path where edges lead from one node to the other. -/
theorem iff_transGen :
    Escapes edge ∅ source target ↔ Relation.TransGen edge source target := by
  constructor
  · rintro ⟨last, steps, final⟩
    exact .tail' (Relation.ReflTransGen.mono (fun a b step => step.1) source last steps) final
  · intro path
    obtain ⟨last, steps, final⟩ := Relation.TransGen.tail'_iff.mp path
    exact ⟨last, Relation.ReflTransGen.mono
      (fun a b step => ⟨step, fun inside => inside⟩) source last
      steps, final⟩

end Escapes

end Tokuft
