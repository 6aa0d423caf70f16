import Mathlib.Data.List.Sort
import Mathlib.Order.Interval.Set.Defs
import Mathlib.Tactic.Order

/-! Half-open spans of a linear order that lie apart from each other. -/

namespace Tokuft

namespace Spans

variable {Point : Type} [LinearOrder Point]

/-- The points that some span holds. -/
def covered (spans : List (Point × Point)) : Set Point :=
  { point | ∃ span ∈ spans, span.1 ≤ point ∧ point < span.2 }

/-- Spans that are nonempty, in order, and with a point between each two. -/
structure Separated (spans : List (Point × Point)) : Prop where
  nonempty : ∀ span ∈ spans, span.1 < span.2
  apart : spans.Pairwise fun early late => early.2 < late.1

/-- A span of points of a set that no greater span of such points includes. -/
structure IsMaximal (points : Set Point) (span : Point × Point) : Prop where
  nonempty : span.1 < span.2
  inside : Set.Ico span.1 span.2 ⊆ points
  greatest : ∀ start last, start ≤ span.1 → span.2 ≤ last → Set.Ico start last ⊆ points →
    start = span.1 ∧ last = span.2

/-- One span, unless it is empty. -/
def piece (start last : Point) : List (Point × Point) :=
  if start < last then [(start, last)] else []

/-- A piece has at most one span. -/
theorem mem_piece {start last : Point} {span : Point × Point} :
    span ∈ piece start last ↔ start < last ∧ span = (start, last) := by
  unfold piece
  split <;> simp [*]

/-- A piece holds the points from its start to its end. -/
theorem covered_piece {start last point : Point} :
    point ∈ covered (piece start last) ↔ start ≤ point ∧ point < last := by
  constructor
  · intro ⟨span, member, inside⟩
    obtain ⟨-, rfl⟩ := mem_piece.mp member
    exact inside
  · intro inside
    exact ⟨(start, last), mem_piece.mpr ⟨lt_of_le_of_lt inside.1 inside.2, rfl⟩, inside⟩

/-- Two lists of spans hold what either holds. -/
theorem covered_append {early late : List (Point × Point)} {point : Point} :
    point ∈ covered (early ++ late) ↔ point ∈ covered early ∨ point ∈ covered late := by
  simp only [covered, Set.mem_ofPred_eq, List.mem_append]
  constructor
  · rintro ⟨span, here | there, inside⟩
    · exact Or.inl ⟨span, here, inside⟩
    · exact Or.inr ⟨span, there, inside⟩
  · rintro (⟨span, here, inside⟩ | ⟨span, there, inside⟩)
    · exact ⟨span, Or.inl here, inside⟩
    · exact ⟨span, Or.inr there, inside⟩

/-- A list of spans holds what the first holds or the others hold. -/
theorem covered_cons {span : Point × Point} {rest : List (Point × Point)} {point : Point} :
    point ∈ covered (span :: rest) ↔ (span.1 ≤ point ∧ point < span.2) ∨ point ∈ covered rest := by
  simp [covered, Set.mem_ofPred_eq]

section

variable {spans : List (Point × Point)} (separated : Separated spans)
include separated

/-- Two spans of a separated list are the same, or one ends before the other starts. -/
theorem Separated.trichotomy {span other : Point × Point} (member : span ∈ spans)
    (elsewhere : other ∈ spans) :
    span = other ∨ span.2 < other.1 ∨ other.2 < span.1 := by
  -- By induction on the list: the first span ends before all others start.
  obtain ⟨-, apart⟩ := separated
  induction apart with
  | nil => cases member
  | cons first rest ih =>
    rcases List.mem_cons.mp member with here | inner
    · rcases List.mem_cons.mp elsewhere with there | later
      · exact Or.inl (here.trans there.symm)
      · exact Or.inr (Or.inl (here ▸ first _ later))
    · rcases List.mem_cons.mp elsewhere with there | later
      · exact Or.inr (Or.inr (there ▸ first _ inner))
      · exact ih inner later

/-- The end of a span is held by none. -/
theorem Separated.end_not_covered {span : Point × Point} (member : span ∈ spans) :
    span.2 ∉ covered spans := by
  -- The span that held it would overlap this one, or touch it.
  rintro ⟨other, elsewhere, start, last⟩
  rcases separated.trichotomy member elsewhere with rfl | before | after
  · exact lt_irrefl _ last
  · exact absurd start (not_le_of_gt before)
  · have nonempty := separated.nonempty span member
    exact absurd (lt_trans last after) (not_lt_of_gt nonempty)

/-- The spans of a separated list are the maximal spans of the points that they hold. -/
theorem Separated.mem_iff_isMaximal {span : Point × Point} :
    span ∈ spans ↔ IsMaximal (covered spans) span := by
  constructor
  · intro member
    refine ⟨separated.nonempty span member, fun point inside => ⟨span, member, inside⟩, ?_⟩
    intro start last before after inside
    have nonempty := separated.nonempty span member
    constructor
    · -- A span that holds an earlier start would end inside the greater span.
      by_contra different
      have earlier : start < span.1 := lt_of_le_of_ne before different
      obtain ⟨other, elsewhere, holds, ends⟩ :=
        inside ⟨le_rfl, lt_of_lt_of_le (lt_trans earlier nonempty) after⟩
      rcases separated.trichotomy elsewhere member with rfl | first | second
      · exact absurd holds (not_le_of_gt earlier)
      · refine separated.end_not_covered elsewhere (inside ⟨le_of_lt ends, ?_⟩)
        exact lt_of_lt_of_le (lt_trans first nonempty) after
      · have late : span.2 < start := lt_of_lt_of_le second holds
        exact absurd (lt_trans late earlier) (not_lt_of_gt nonempty)
    · by_contra different
      have later : span.2 < last := lt_of_le_of_ne after (Ne.symm different)
      refine separated.end_not_covered member (inside ⟨?_, later⟩)
      exact le_of_lt (lt_of_le_of_lt before nonempty)
  · intro maximal
    obtain ⟨other, member, start, last⟩ := maximal.inside ⟨le_rfl, maximal.nonempty⟩
    have reaches : span.2 ≤ other.2 := by
      by_contra short
      exact separated.end_not_covered member (maximal.inside ⟨le_of_lt last, lt_of_not_ge short⟩)
    obtain ⟨sameStart, sameLast⟩ := maximal.greatest other.1 other.2 start reaches
      fun point inside => ⟨other, member, inside⟩
    have same : other = span := Prod.ext sameStart sameLast
    rw [← same]
    exact member

end

/-- Separated spans are determined by the points that they hold. -/
theorem Separated.eq_of_covered {spans others : List (Point × Point)} (first : Separated spans)
    (second : Separated others) (same : covered spans = covered others) : spans = others := by
  -- Both lists hold the maximal spans of the same points, in the same order.
  have ordered {list : List (Point × Point)} (separated : Separated list) :
      list.Pairwise fun early late => early.1 < late.1 := by
    refine separated.apart.imp_of_mem ?_
    intro early late member _ apart
    exact lt_trans (separated.nonempty early member) apart
  have irrefl : Std.Irrefl fun early late : Point × Point => early.1 < late.1 :=
    ⟨fun span => lt_irrefl span.1⟩
  have antisymm : Std.Antisymm fun early late : Point × Point => early.1 < late.1 :=
    ⟨fun early late before after => absurd before (not_lt_of_gt after)⟩
  refine List.Pairwise.eq_of_mem_iff (ordered first) (ordered second) fun span => ?_
  rw [first.mem_iff_isMaximal, second.mem_iff_isMaximal, same]

/-- Spans in order with a point between them make a separated list. -/
theorem separated_append {early late : List (Point × Point)} :
    Separated (early ++ late) ↔ Separated early ∧ Separated late ∧
      ∀ span ∈ early, ∀ other ∈ late, span.2 < other.1 := by
  -- Only the spans on the two sides of the seam are new neighbours.
  constructor
  · intro ⟨nonempty, apart⟩
    obtain ⟨first, second, between⟩ := List.pairwise_append.mp apart
    exact ⟨⟨fun span member => nonempty span (List.mem_append_left late member), first⟩,
      ⟨fun span member => nonempty span (List.mem_append_right early member), second⟩, between⟩
  · intro ⟨first, second, between⟩
    refine ⟨fun span member => ?_, List.pairwise_append.mpr ⟨first.apart, second.apart, between⟩⟩
    rcases List.mem_append.mp member with here | there
    · exact first.nonempty span here
    · exact second.nonempty span there

/-- A nonempty span is separated by itself. -/
theorem separated_single {start last : Point} (nonempty : start < last) :
    Separated [(start, last)] :=
  ⟨fun span member => by rw [List.mem_singleton.mp member]; exact nonempty,
    List.pairwise_singleton _ _⟩

/-- A piece is separated. -/
theorem separated_piece (start last : Point) : Separated (piece start last) := by
  unfold piece
  split
  · exact separated_single (by assumption)
  · exact ⟨fun span member => (by cases member), List.Pairwise.nil⟩

section

variable {early late : List (Point × Point)}

/-- The spans before and after one of a separated list end before it and start after it. -/
theorem Separated.around {start last : Point}
    (separated : Separated (early ++ (start, last) :: late)) :
    (∀ span ∈ early, span.2 < start) ∧ ∀ span ∈ late, last < span.1 := by
  obtain ⟨-, rest, between⟩ := separated_append.mp separated
  exact ⟨fun span member => between span member (start, last) List.mem_cons_self,
    fun span member => List.rel_of_pairwise_cons rest.apart member⟩

/-- A part is cut out of a span, and what is left of it on either side stays. -/
theorem Separated.carve {start last low high : Point}
    (separated : Separated (early ++ (start, last) :: late)) (after : start ≤ low)
    (nonempty : low < high) (within : high ≤ last) :
    Separated (early ++ (piece start low ++ piece high last) ++ late) ∧
      ∀ point, point ∈ covered (early ++ (piece start low ++ piece high last) ++ late) ↔
        point ∈ covered (early ++ (start, last) :: late) ∧ ¬(low ≤ point ∧ point < high) := by
  -- What is left of the span lies inside it, so that its neighbours stay apart from it.
  obtain ⟨first, rest, between⟩ := separated_append.mp separated
  have rest : Separated ([(start, last)] ++ late) := rest
  obtain ⟨-, second, -⟩ := separated_append.mp rest
  obtain ⟨front, back⟩ := separated.around
  constructor
  · refine separated_append.mpr ⟨separated_append.mpr ⟨first, separated_append.mpr
      ⟨separated_piece start low, separated_piece high last, ?_⟩, ?_⟩, second, ?_⟩
    · intro span here other there
      obtain ⟨-, rfl⟩ := mem_piece.mp here
      obtain ⟨-, rfl⟩ := mem_piece.mp there
      exact nonempty
    · intro span member other there
      have apart := front span member
      rcases List.mem_append.mp there with there | there
      · obtain ⟨-, rfl⟩ := mem_piece.mp there
        exact apart
      · obtain ⟨-, rfl⟩ := mem_piece.mp there
        order
    · intro span here other member
      have apart := back other member
      rcases List.mem_append.mp here with here | here
      · exact between span here other (List.mem_cons_of_mem _ member)
      · rcases List.mem_append.mp here with here | here
        · obtain ⟨-, rfl⟩ := mem_piece.mp here
          order
        · obtain ⟨-, rfl⟩ := mem_piece.mp here
          exact apart
  · intro point
    simp only [covered_append, covered_cons, covered_piece]
    constructor
    · rintro ((⟨span, member, inside⟩ | left | right) | ⟨span, member, inside⟩)
      · have apart := front span member
        exact ⟨Or.inl ⟨span, member, inside⟩, fun cut => by order⟩
      · exact ⟨Or.inr (Or.inl ⟨left.1, by order⟩), fun cut => by order⟩
      · exact ⟨Or.inr (Or.inl ⟨by order, right.2⟩), fun cut => by order⟩
      · have apart := back span member
        exact ⟨Or.inr (Or.inr ⟨span, member, inside⟩), fun cut => by order⟩
    · rintro ⟨here | inside | here, outside⟩
      · exact Or.inl (Or.inl here)
      · rcases lt_or_ge point low with before | notBefore
        · exact Or.inl (Or.inr (Or.inl ⟨inside.1, before⟩))
        · have notWithin : high ≤ point := le_of_not_gt fun below => outside ⟨notBefore, below⟩
          exact Or.inl (Or.inr (Or.inr ⟨notWithin, inside.2⟩))
      · exact Or.inr here

end

/-- What is left of the spans before a new one, when the last that touches it is joined with it. -/
inductive JoinsLast (early : List (Point × Point)) (low : Point) :
    List (Point × Point) → Point → Prop where
  | apart (different : ∀ span ∈ early.getLast?, span.2 ≠ low) : JoinsLast early low early low
  | touching {front : List (Point × Point)} {start : Point}
      (split : early = front ++ [(start, low)]) :
    JoinsLast early low front start

/-- What is left of the spans after a new one, when the first that it touches is joined with it. -/
inductive JoinsFirst (late : List (Point × Point)) (high : Point) :
    List (Point × Point) → Point → Prop where
  | apart (different : ∀ span ∈ late.head?, high ≠ span.1) : JoinsFirst late high late high
  | touching {back : List (Point × Point)} {last : Point} (split : late = (high, last) :: back) :
    JoinsFirst late high back last

/-- The spans before a new one end before the joined span starts. -/
theorem JoinsLast.ok {early front : List (Point × Point)} {low start : Point}
    (joins : JoinsLast early low front start) (separated : Separated early)
    (before : ∀ span ∈ early, span.2 ≤ low) :
    Separated front ∧ (∀ span ∈ front, span.2 < start) ∧ start ≤ low ∧
      ∀ point, (point ∈ covered early ↔ point ∈ covered front ∨ (start ≤ point ∧ point < low)) := by
  cases joins with
  | apart different =>
    refine ⟨separated, fun span member => ?_, le_rfl, fun point => ?_⟩
    · -- All but the last end before the last starts.
      rcases List.eq_nil_or_concat early with rfl | ⟨others, last, rfl⟩
      · cases member
      · rw [List.concat_eq_append] at member separated before different
        obtain ⟨-, second, between⟩ := separated_append.mp separated
        have here : last ∈ others ++ [last] := List.mem_append_right _ (List.mem_singleton.mpr rfl)
        have nonempty := second.nonempty last (List.mem_singleton.mpr rfl)
        have ends : last.2 < low := lt_of_le_of_ne (before last here) (different last (by simp))
        rcases List.mem_append.mp member with inner | same
        · have apart := between span inner last (List.mem_singleton.mpr rfl)
          order
        · rw [List.mem_singleton.mp same]
          exact ends
    · have none : ¬(low ≤ point ∧ point < low) := fun both => by order
      simp [none]
  | touching split =>
    subst split
    obtain ⟨first, second, between⟩ := separated_append.mp separated
    have nonempty : start < low := second.nonempty _ (List.mem_singleton.mpr rfl)
    refine ⟨first, fun span member => between span member _ (List.mem_singleton.mpr rfl),
      le_of_lt nonempty, fun point => ?_⟩
    rw [covered_append, covered_cons]
    simp [covered]

/-- The spans after a new one start after the joined span ends. -/
theorem JoinsFirst.ok {late back : List (Point × Point)} {high last : Point}
    (joins : JoinsFirst late high back last) (separated : Separated late)
    (after : ∀ span ∈ late, high ≤ span.1) :
    Separated back ∧ (∀ span ∈ back, last < span.1) ∧ high ≤ last ∧
      ∀ point, (point ∈ covered late ↔ point ∈ covered back ∨ (high ≤ point ∧ point < last)) := by
  cases joins with
  | apart different =>
    refine ⟨separated, fun span member => ?_, le_rfl, fun point => ?_⟩
    · -- All but the first start after the first ends.
      cases late with
      | nil => cases member
      | cons first rest =>
        have nonempty := separated.nonempty first List.mem_cons_self
        have starts : high < first.1 :=
          lt_of_le_of_ne (after first List.mem_cons_self) (different first rfl)
        rcases List.mem_cons.mp member with same | inner
        · rw [same]
          exact starts
        · have apart := List.rel_of_pairwise_cons separated.apart inner
          order
    · have none : ¬(high ≤ point ∧ point < high) := fun both => by order
      simp [none]
  | touching split =>
    subst split
    have rest : Separated ([(high, last)] ++ back) := separated
    obtain ⟨first, second, between⟩ := separated_append.mp rest
    have nonempty : high < last := first.nonempty _ (List.mem_singleton.mpr rfl)
    refine ⟨second, fun span member => between _ (List.mem_singleton.mpr rfl) span member,
      le_of_lt nonempty, fun point => ?_⟩
    rw [covered_cons]
    exact or_comm

/-- A new span is put between others and joined with those that it touches. -/
theorem Separated.join {early late front back : List (Point × Point)} {low high start last : Point}
    (separated : Separated (early ++ late)) (nonempty : low < high)
    (before : ∀ span ∈ early, span.2 ≤ low) (after : ∀ span ∈ late, high ≤ span.1)
    (left : JoinsLast early low front start) (right : JoinsFirst late high back last) :
    Separated (front ++ (start, last) :: back) ∧
      ∀ point, point ∈ covered (front ++ (start, last) :: back) ↔
        point ∈ covered (early ++ late) ∨ (low ≤ point ∧ point < high) := by
  obtain ⟨first, second, -⟩ := separated_append.mp separated
  obtain ⟨frontOk, frontApart, starts, frontHolds⟩ := left.ok first before
  obtain ⟨backOk, backApart, ends, backHolds⟩ := right.ok second after
  constructor
  · have whole : start < last := by order
    have rest : Separated ([(start, last)] ++ back) :=
      separated_append.mpr ⟨separated_single whole, backOk, fun span here other member => by
        rw [List.mem_singleton.mp here]
        exact backApart other member⟩
    refine separated_append.mpr ⟨frontOk, rest, fun span member other here => ?_⟩
    have apart := frontApart span member
    rcases List.mem_cons.mp here with same | here
    · rw [same]
      exact apart
    · have far := backApart other here
      order
  · intro point
    rw [covered_append, covered_cons, covered_append, frontHolds, backHolds]
    constructor
    · rintro (here | inside | here)
      · exact Or.inl (Or.inl (Or.inl here))
      · -- The joined span is the new one with what it touches on either side.
        rcases lt_or_ge point low with early | notEarly
        · exact Or.inl (Or.inl (Or.inr ⟨inside.1, early⟩))
        · rcases lt_or_ge point high with within | late
          · exact Or.inr ⟨notEarly, within⟩
          · exact Or.inl (Or.inr (Or.inr ⟨late, inside.2⟩))
      · exact Or.inl (Or.inr (Or.inl here))
    · rintro (((here | early) | (here | late)) | new)
      · exact Or.inl here
      · exact Or.inr (Or.inl ⟨early.1, by order⟩)
      · exact Or.inr (Or.inr here)
      · exact Or.inr (Or.inl ⟨by order, late.2⟩)
      · exact Or.inr (Or.inl ⟨by order, by order⟩)

end Spans

end Tokuft
