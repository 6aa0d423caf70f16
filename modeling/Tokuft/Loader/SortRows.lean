import Mathlib.Algebra.Order.BigOperators.Ring.Finset

/-! The merge sort of the rows of a bulk load, which refuses rows with equal keys. -/

namespace Tokuft

/-- A row of a rowset. -/
structure LoadRow (Key Val : Type) where
  key : Key
  val : Val
  deriving DecidableEq

variable {Key Val : Type} [LinearOrder Key]

/-- Merge rows one by one, up to two equal keys, one row of which is reported. -/
def mergeRowArraysBase :
    List (LoadRow Key Val) → List (LoadRow Key Val) →
      Except (LoadRow Key Val) (List (LoadRow Key Val))
  | [], b => .ok b
  | a, [] => .ok a
  | x :: a, y :: b =>
    if x.key = y.key then .error x
    else if x.key < y.key then (mergeRowArraysBase a (y :: b)).map (x :: ·)
    else (mergeRowArraysBase (x :: a) b).map (y :: ·)
termination_by a b => a.length + b.length

/-- The place of the first row of sorted rows that comes after a key, counted from `abefore`. -/
def binarySearch (key : Key) (a : List (LoadRow Key Val)) (abefore : Nat) :
    Except (LoadRow Key Val) Nat :=
  match _found : a.drop (a.length / 2) with
  -- Only an array of no rows has no row in its middle.
  | [] => .ok abefore
  | row :: _ =>
    if key = row.key then .error row
    else if key < row.key then
      if a.length = 1 then .ok abefore else binarySearch key (a.take (a.length / 2)) abefore
    else if a.length = 1 then .ok (abefore + 1)
    else binarySearch key (a.drop (a.length / 2)) (abefore + a.length / 2)
termination_by a.length
decreasing_by
  all_goals
    have rows := congrArg List.length _found
    simp only [List.length_drop, List.length_cons, List.length_take] at rows ⊢
    omega

/-- Merge sorted rows, in two halves around a middle row when there are many. -/
def mergeRowArrays (a b : List (LoadRow Key Val)) :
    Except (LoadRow Key Val) (List (LoadRow Key Val)) :=
  if _small : a.length + b.length < 10000 then mergeRowArraysBase a b
  else
    let long := if a.length < b.length then b else a
    let short := if a.length < b.length then a else b
    let a2 := long.length / 2
    match long.drop a2 with
    -- The longer of two arrays with so many rows has a row in its middle.
    | [] => .ok []
    | middle :: _ => do
      let b2 ← binarySearch middle.key short 0
      let first ← mergeRowArrays (long.take a2) (short.take b2)
      let second ← mergeRowArrays (long.drop a2) (short.drop b2)
      pure (first ++ second)
termination_by a.length + b.length
decreasing_by
  all_goals
    simp only [List.length_take, List.length_drop]
    split <;> omega

/-- Sort rows by sorting their halves and merging these. -/
def mergesortRowArray (rows : List (LoadRow Key Val)) :
    Except (LoadRow Key Val) (List (LoadRow Key Val)) :=
  if _few : rows.length ≤ 1 then .ok rows
  else do
    let mid := rows.length / 2
    let first ← mergesortRowArray (rows.take mid)
    let second ← mergesortRowArray (rows.drop mid)
    mergeRowArrays first second
termination_by rows.length
decreasing_by all_goals simp only [List.length_take, List.length_drop]; omega

end Tokuft
