import Tokuft.Util.OmtExact

/-! Values of a sequence can be marked when they are visited, and be deleted by their marks. -/

namespace Tokuft

variable {α σ : Type}

/-- A node without its bits. -/
def OmtNode.clearStolenBits (n : OmtNode α) : OmtNode α :=
  { n with marked := false, marksBelow := false }

namespace WeightTree

/-- Visit and mark the values whose places are in a range, until a visit says to stop. A value is
marked before it is visited, and a node has its bit before its sides are walked. -/
def iterateAndMarkRange (f : α → Nat → σ → Int × σ) (left right : Nat) :
    WeightTree (OmtNode α) → Nat → σ → Option (WeightTree (OmtNode α) × Int × σ)
  | null, _, _ => none
  | node weight before n behind, idx, extra =>
    let idxRoot := idx + before.nweight
    -- A visit does not see the bits, so the bit below is written together with the side.
    let first := if left < idxRoot ∧ before.isNull = false then
        (before.iterateAndMarkRange f left right idx extra).map fun (side, r, extra) =>
          (side, true, r, extra)
      else some (before, n.marksBelow, 0, extra)
    first.bind fun (before, below, r, extra) =>
      if r ≠ 0 then some (node weight before { n with marksBelow := below } behind, r, extra)
      else
        let (marked, r, extra) :=
          if left ≤ idxRoot ∧ idxRoot < right then (true, f n.value idxRoot extra)
          else (n.marked, 0, extra)
        let n := { n with marked := marked, marksBelow := below }
        if r ≠ 0 then some (node weight before n behind, r, extra)
        else if idxRoot + 1 < right ∧ behind.isNull = false then
          (behind.iterateAndMarkRange f left right (idxRoot + 1) extra).map
            fun (side, r, extra) =>
              (node weight before { n with marksBelow := true } side, r, extra)
        else some (node weight before n behind, 0, extra)

/-- Visit the values that are marked, until a visit says to stop. -/
def iterateOverMarked (f : α → Nat → σ → Int × σ) :
    WeightTree (OmtNode α) → Nat → σ → Int × σ
  | null, _, extra => (0, extra)
  | node _ before n behind, idx, extra =>
    let idxRoot := idx + before.nweight
    let (r, extra) := if n.marksBelow then before.iterateOverMarked f idx extra else (0, extra)
    if r ≠ 0 then (r, extra)
    else
      let (r, extra) := if n.marked then f n.value idxRoot extra else (0, extra)
      if r ≠ 0 then (r, extra)
      else if n.marksBelow then behind.iterateOverMarked f (idxRoot + 1) extra
      else (0, extra)

/-- Take away all marks, with the places where they were. -/
def unmark : WeightTree (OmtNode α) → Nat → WeightTree (OmtNode α) × List Nat
  | null, _ => (null, [])
  | node weight before n behind, idx =>
    let idxRoot := idx + before.nweight
    let here := if n.marked then [idxRoot] else []
    if n.marksBelow then
      let (before, first) := before.unmark idx
      let (behind, last) := behind.unmark (idxRoot + 1)
      (node weight before n.clearStolenBits behind, first ++ here ++ last)
    else (node weight before n.clearStolenBits behind, here)

/-- Check the bits of a tree, and count its marks. -/
def verifyMarksConsistent : WeightTree (OmtNode α) → Bool → Option Nat
  | null, _ => some 0
  | node _ before n behind, allowMarks => do
    let first ← before.verifyMarksConsistent n.marksBelow
    let last ← behind.verifyMarksConsistent n.marksBelow
    let numMarks := first + last
    if n.marksBelow then
      invariant (allowMarks = true)
      invariant (0 < numMarks)
    else invariant (numMarks = 0)
    if n.marked then do
      invariant (allowMarks = true)
      return numMarks + 1
    else return numMarks

end WeightTree

namespace Omt

/-- Visit and mark the values whose places are in a range, until a visit says to stop. -/
def iterateAndMarkRange (f : α → Nat → σ → Int × σ) (omt : Omt α) (left right : Nat)
    (extra : σ) : Option (OmtCode × Int × σ × Omt α) :=
  if omt.size < right then some (.einval, 0, extra, omt)
  else if left = right then some (.ok, 0, extra, omt)
  else
    match omt.d with
    | .array _ _ _ => none
    | .tree freeIdx root => do
      let (root, r, extra) ← root.iterateAndMarkRange f left right 0 extra
      return (.ok, r, extra, ⟨omt.capacity, .tree freeIdx root⟩)

/-- Visit the values that are marked, until a visit says to stop. -/
def iterateOverMarked (f : α → Nat → σ → Int × σ) (omt : Omt α) (extra : σ) :
    Option (Int × σ) :=
  match omt.d with
  | .array _ _ _ => none
  | .tree _ root => some (root.iterateOverMarked f 0 extra)

/-- Delete places one after another, of which some were deleted before. -/
def deletePlaces (omt : Omt α) : List Nat → Nat → Option (Omt α)
  | [], _ => some omt
  | place :: places, i => do
    let (r, omt) ← omt.deleteAt true (place - i)
    invariant (r = .ok)
    omt.deletePlaces places (i + 1)

/-- Delete all values that are marked. -/
def deleteAllMarked (omt : Omt α) : Option (Omt α) :=
  if omt.hasMarks then
    match omt.d with
    | .array _ _ _ => none
    | .tree freeIdx root => do
      -- All marks are taken away first, as a sequence with marks must not be changed.
      let (root, places) := root.unmark 0
      let omt ← deletePlaces ⟨omt.capacity, .tree freeIdx root⟩ places 0
      omt.barfIfMarked true
      return omt
  else some omt

/-- Check that the bits agree with the marks. -/
def verifyMarksConsistent (omt : Omt α) : Option Unit :=
  match omt.d with
  | .array _ _ _ => none
  | .tree _ root => (root.verifyMarksConsistent true).map fun _ => ()

end Omt

end Tokuft
