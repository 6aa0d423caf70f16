import Tokuft.Library.Spans

/-! The gaps that spans in a line leave between two points. -/

namespace Tokuft

namespace Spans

variable {Point : Type} [LinearOrder Point]

/-- Nonempty spans one behind the other, from a first point to a last. -/
def InLine (start last : Point) : List (Point × Point) → Prop
  | [] => start < last
  | span :: rest => start ≤ span.1 ∧ span.1 < span.2 ∧ InLine span.2 last rest

/-- What the spans leave, in order. -/
def gaps (start last : Point) : List (Point × Point) → List (Point × Point)
  | [] => piece start last
  | span :: rest => piece start span.1 ++ gaps span.2 last rest

variable {start last : Point} {row : List (Point × Point)} {i : Nat} {span : Point × Point}

section

variable (inLine : InLine start last row)
include inLine

/-- Every span in a line starts at the first point or behind it. -/
theorem InLine.le_start :
    ∀ span ∈ row, start ≤ span.1 ∧ span.1 < span.2 := by
  induction row generalizing start with
  | nil => exact fun span member => by cases member
  | cons first rest ih =>
    obtain ⟨low, nonempty, behind⟩ := inLine
    intro span member
    rcases List.mem_cons.mp member with rfl | later
    · exact ⟨low, nonempty⟩
    · obtain ⟨after, some⟩ := ih behind span later
      exact ⟨le_trans low (le_trans (le_of_lt nonempty) after), some⟩

/-- The line goes on to a last point that it does not reach. -/
theorem InLine.start_lt : start < last := by
  induction row generalizing start with
  | nil => exact inLine
  | cons first rest ih =>
    obtain ⟨low, nonempty, behind⟩ := inLine
    exact lt_of_le_of_lt low (lt_trans nonempty (ih behind))

/-- The gaps lie apart, and none of them starts before the first point. -/
theorem InLine.separated_gaps :
    Separated (gaps start last row) ∧ ∀ gap ∈ gaps start last row, start ≤ gap.1 := by
  -- By induction on the row: a gap ends where the next span starts.
  induction row generalizing start with
  | nil =>
    refine ⟨separated_piece start last, fun gap member => ?_⟩
    rw [(mem_piece.mp member).2]
  | cons first rest ih =>
    obtain ⟨low, nonempty, behind⟩ := inLine
    obtain ⟨separated, after⟩ := ih behind
    constructor
    · refine separated_append.mpr ⟨separated_piece _ _, separated, fun gap here other there => ?_⟩
      rw [(mem_piece.mp here).2]
      exact lt_of_lt_of_le nonempty (after other there)
    · intro gap member
      rcases List.mem_append.mp member with here | there
      · rw [(mem_piece.mp here).2]
      · exact le_trans low (le_trans (le_of_lt nonempty) (after gap there))

/-- The gaps hold the points that the spans do not hold. -/
theorem InLine.covered_gaps {point : Point} :
    point ∈ covered (gaps start last row) ↔
      (start ≤ point ∧ point < last) ∧ point ∉ covered row := by
  -- By induction on the row.
  induction row generalizing start with
  | nil =>
    have none : point ∉ covered ([] : List (Point × Point)) := fun ⟨_, member, _⟩ => by cases member
    simp [gaps, covered_piece, none]
  | cons first rest ih =>
    obtain ⟨low, nonempty, behind⟩ := inLine
    rw [gaps, covered_append, covered_piece, ih behind, covered_cons]
    have reaches := behind.start_lt
    have later : point ∈ covered rest → first.2 ≤ point := by
      rintro ⟨span, member, inside, -⟩
      exact le_trans (behind.le_start span member).1 inside
    constructor
    · rintro (front | ⟨inside, outside⟩)
      · refine ⟨⟨front.1, by order⟩, fun both => ?_⟩
        rcases both with within | beyond
        · order
        · have after := later beyond
          order
      · refine ⟨⟨by order, inside.2⟩, fun both => ?_⟩
        rcases both with within | beyond
        · order
        · exact outside beyond
    · rintro ⟨inside, outside⟩
      rw [not_or] at outside
      rcases lt_or_ge point first.1 with front | back
      · exact Or.inl ⟨inside.1, front⟩
      · have after : first.2 ≤ point := le_of_not_gt fun below => outside.1 ⟨back, below⟩
        exact Or.inr ⟨⟨after, inside.2⟩, outside.2⟩

/-- The first gap starts at the first point unless a span does. -/
theorem InLine.head_gaps :
    (∃ gap, (gaps start last row)[0]? = some gap ∧ gap.1 = start) ↔
      ∀ span ∈ row, start ≠ span.1 := by
  cases row with
  | nil =>
    have nonempty : start < last := inLine
    simp [gaps, piece, nonempty]
  | cons first rest =>
    obtain ⟨low, nonempty, behind⟩ := inLine
    rcases lt_or_eq_of_le low with apart | touching
    · refine iff_of_true ⟨(start, first.1), by simp [gaps, piece, apart], rfl⟩ fun span member => ?_
      rcases List.mem_cons.mp member with rfl | later
      · exact ne_of_lt apart
      · have after := (behind.le_start span later).1
        exact ne_of_lt (lt_of_lt_of_le (lt_trans apart nonempty) after)
    · -- The first span takes the first point, so every gap starts behind it.
      refine iff_of_false ?_ fun none => none first List.mem_cons_self touching
      rintro ⟨gap, head, same⟩
      rw [gaps, piece, if_neg (by order), List.nil_append] at head
      have after := behind.separated_gaps.2 gap (List.mem_of_getElem? head)
      order

end

/-- There is at most one gap more than there are spans. -/
theorem length_gaps (start last : Point) (row : List (Point × Point)) :
    (gaps start last row).length ≤ row.length + 1 := by
  -- By induction on the row, each span of which leaves one gap in front at most.
  have one (low high : Point) : (piece low high).length ≤ 1 := by
    unfold piece
    split <;> simp
  induction row generalizing start with
  | nil => exact one start last
  | cons first rest ih =>
    have front := one start first.1
    have back := ih first.2
    rw [gaps, List.length_append, List.length_cons]
    omega

/-- A gap ends behind the start of every span with its number or a smaller one. -/
theorem InLine.le_gap (inLine : InLine start last row) {j : Nat} (order : j ≤ i)
    {gap : Point × Point} (isGap : (gaps start last row)[i]? = some gap)
    (isSpan : row[j]? = some span) : span.1 ≤ gap.2 := by
  induction row generalizing start i j with
  | nil => cases isSpan
  | cons first rest ih =>
    have separated := inLine.separated_gaps.1
    have someGap := separated.nonempty gap (List.mem_of_getElem? isGap)
    have begins := inLine.separated_gaps.2 gap (List.mem_of_getElem? isGap)
    obtain ⟨low, nonempty, behind⟩ := inLine
    rcases lt_or_eq_of_le low with apart | touching
    · rw [gaps, piece, if_pos apart, List.singleton_append] at isGap
      cases i with
      | zero =>
        obtain rfl : j = 0 := by omega
        cases isGap
        cases isSpan
        exact le_rfl
      | succ i =>
        have later := behind.separated_gaps.2 gap (List.mem_of_getElem? isGap)
        cases j with
        | zero =>
          cases isSpan
          order
        | succ j => exact ih behind (by omega) isGap isSpan
    · -- No gap is in front of the first span, so the gaps are those of the others.
      rw [gaps, piece, if_neg (by order), List.nil_append] at isGap
      cases j with
      | zero =>
        cases isSpan
        order
      | succ j => exact ih behind (by omega) isGap isSpan

/-- No span up to a number touches the one behind it, and none touches the first point. -/
def Loose (start : Point) (row : List (Point × Point)) (i : Nat) : Prop :=
  (∀ span ∈ row, start ≠ span.1) ∧ ∀ span ∈ row.take (i + 1), ∀ other ∈ row, span.2 ≠ other.1

section

variable {first : Point × Point} (inLine : InLine start last (first :: row))
include inLine

/-- A line is loose up to its first span when nothing touches that. -/
theorem InLine.loose_zero :
    Loose start (first :: row) 0 ↔ start ≠ first.1 ∧ ∀ span ∈ row, first.2 ≠ span.1 := by
  -- No span is in front of the first one.
  obtain ⟨low, nonempty, behind⟩ := inLine
  constructor
  · rintro ⟨front, apart⟩
    exact ⟨front first List.mem_cons_self, fun span member =>
      apart first List.mem_cons_self span (List.mem_cons_of_mem _ member)⟩
  · rintro ⟨front, apart⟩
    constructor
    · intro span member
      rcases List.mem_cons.mp member with rfl | later
      · exact front
      · have after := (behind.le_start span later).1
        exact ne_of_lt (lt_of_le_of_lt low (lt_of_lt_of_le nonempty after))
    · intro span here other member
      obtain rfl : span = first := List.mem_singleton.mp here
      rcases List.mem_cons.mp member with rfl | later
      · exact ne_of_gt nonempty
      · exact apart other later

/-- A line is loose further on when the rest of it is loose behind its first span. -/
theorem InLine.loose_succ :
    Loose start (first :: row) (i + 1) ↔ start ≠ first.1 ∧ Loose first.2 row i := by
  obtain ⟨low, nonempty, behind⟩ := inLine
  constructor
  · rintro ⟨front, apart⟩
    refine ⟨front first List.mem_cons_self, fun span member => ?_, fun span here other there => ?_⟩
    · exact apart first List.mem_cons_self span (List.mem_cons_of_mem _ member)
    · exact apart span (List.mem_cons_of_mem _ here) other (List.mem_cons_of_mem _ there)
  · rintro ⟨front, next, apart⟩
    constructor
    · intro span member
      rcases List.mem_cons.mp member with rfl | later
      · exact front
      · have after := (behind.le_start span later).1
        exact ne_of_lt (lt_of_le_of_lt low (lt_of_lt_of_le nonempty after))
    · intro span here other there
      rw [List.take_succ_cons] at here
      rcases List.mem_cons.mp here with rfl | later
      · rcases List.mem_cons.mp there with rfl | member
        · exact ne_of_gt nonempty
        · exact next other member
      · rcases List.mem_cons.mp there with rfl | member
        · -- What is behind the first span does not end in front of it.
          obtain ⟨after, some⟩ := behind.le_start span (List.mem_of_mem_take later)
          order
        · exact apart span later other member

end

/-- The spans of a line start one behind the other. -/
theorem InLine.lt_succ (inLine : InLine start last row) {next : Point × Point}
    (here : row[i]? = some span) (there : row[i + 1]? = some next) : span.1 < next.1 := by
  induction row generalizing start i with
  | nil => cases here
  | cons first rest ih =>
    obtain ⟨low, nonempty, behind⟩ := inLine
    cases i with
    | zero =>
      cases here
      exact lt_of_lt_of_le nonempty (behind.le_start next (List.mem_of_getElem? there)).1
    | succ i => exact ih behind here there

/-- Two gaps one after the other are around the span of their number only in a loose line. -/
theorem InLine.around_iff (inLine : InLine start last row) (isSpan : row[i]? = some span) :
    (∃ early late, (gaps start last row)[i]? = some early ∧
      (gaps start last row)[i + 1]? = some late ∧ early.2 = span.1 ∧ late.1 = span.2) ↔
      Loose start row i := by
  -- Each span that touches something takes a gap away, so the gaps fall behind the spans.
  induction row generalizing start i with
  | nil => cases isSpan
  | cons first rest ih =>
    have whole := inLine
    obtain ⟨low, nonempty, behind⟩ := inLine
    rcases lt_or_eq_of_le low with apart | touching
    · have shape : gaps start last (first :: rest) =
        (start, first.1) :: gaps first.2 last rest := by
        rw [gaps, piece, if_pos apart, List.singleton_append]
      rw [shape]
      cases i with
      | zero =>
        cases isSpan
        rw [whole.loose_zero, ← behind.head_gaps]
        constructor
        · rintro ⟨early, late, -, next, -, same⟩
          exact ⟨ne_of_lt apart, late, next, same⟩
        · rintro ⟨-, late, next, same⟩
          exact ⟨(start, span.1), late, rfl, next, rfl, same⟩
      | succ i =>
        rw [whole.loose_succ, ← ih behind isSpan]
        constructor
        · exact fun both => ⟨ne_of_lt apart, both⟩
        · exact And.right
    · have shape : gaps start last (first :: rest) = gaps first.2 last rest := by
        rw [gaps, piece, if_neg (by order), List.nil_append]
      rw [shape]
      refine iff_of_false ?_ fun loose => loose.1 first List.mem_cons_self touching
      rintro ⟨early, late, isEarly, isLate, same, -⟩
      -- The gap before belongs to a later span, which starts behind this one.
      have bound := length_gaps first.2 last rest
      have within : i + 1 < (gaps first.2 last rest).length :=
        (List.getElem?_eq_some_iff.mp isLate).1
      have more : i < rest.length := by omega
      have next : (first :: rest)[i + 1]? = some rest[i] := by
        rw [List.getElem?_cons_succ]
        exact List.getElem?_eq_getElem more
      have sorted := whole.lt_succ isSpan next
      have ends := behind.le_gap le_rfl isEarly (List.getElem?_eq_getElem more)
      order

end Spans

end Tokuft
