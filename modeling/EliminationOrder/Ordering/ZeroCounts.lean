/-
Orderings that only count zeros.

Each column carries a count, at first the number of its zeros. The score of a row is
the sum of the counts of the columns in which it is not zero; the row with the least
score goes next, the first of several, and the counts of its columns are lowered, so
that rows overlapping it look cheap from then on. How they are lowered makes the rule:
halving them estimates fill without simulating elimination, and setting them to zero
orders the rows of a matrix of any shape.
-/
import EliminationOrder.Matrix.Stored

namespace EliminationOrder

/-- The rows still to be taken, and the counts of the columns. -/
structure ZeroCounts where
  /-- For each row the columns in which it is not zero. -/
  rows : Array (List Nat)
  /-- The count of each column. -/
  counts : Array Nat
  /-- The rows that have not been taken, ascending. -/
  left : List Nat

namespace ZeroCounts

/-- Lowers the counts of the listed columns by one each. -/
def countDown (counts : Array Nat) : List Nat → Outcome (Array Nat)
  | [] => .ok counts
  | c :: cs =>
    match counts[c]? with
    | some (k + 1) => countDown (counts.setIfInBounds c k) cs
    | some 0 => .error (.fault .countBelowZero)
    | none => .error (.outOfRange c counts.size)

/-- The counts of zeros by column, with no row taken. -/
def ofMatrix {α : Type} [Entry α] (a : StoredMatrix α) : Outcome ZeroCounts := do
  let rows ← a.rowPatterns
  let counts ← countDown (Array.replicate a.ncols a.nrows) rows.flatten
  return { rows := rows.toArray, counts, left := List.range rows.length }

/-- The columns in which row `k` is not zero. -/
def row (z : ZeroCounts) (k : Nat) : List Nat :=
  z.rows[k]?.getD []

/-- The sum of the counts over the columns in which row `k` is not zero. -/
def score (z : ZeroCounts) (k : Nat) : Nat :=
  (z.row k).foldr (fun c sum => z.counts[c]?.getD 0 + sum) 0

/-- The row with the least score among those left, the first of several. -/
def cheapest? (z : ZeroCounts) : Option Nat :=
  z.left.minOn? z.score

/-- Takes row `k` and lowers the counts of its columns. -/
def take (lower : Nat → Nat) (z : ZeroCounts) (k : Nat) : ZeroCounts :=
  { z with
    counts := (z.row k).foldl (fun counts c => counts.modify c lower) z.counts
    left := z.left.erase k }

/-- At most `rounds` rows, the cheapest first. -/
def run (lower : Nat → Nat) : Nat → ZeroCounts → List Nat
  | 0, _ => []
  | rounds + 1, z =>
    match z.cheapest? with
    | none => []
    | some k => k :: run lower rounds (z.take lower k)

/-- All rows, always the cheapest next. -/
def order (lower : Nat → Nat) (z : ZeroCounts) : List Nat :=
  run lower z.left.length z

end ZeroCounts

/-- Estimated fill: the counts of a taken row are halved. Only square matrices have an elimination order. -/
def approximateFill {α : Type} [Entry α] (a : StoredMatrix α) : Outcome (List Nat) := do
  requireSquare a.nrows a.ncols
  let z ← ZeroCounts.ofMatrix a
  return z.order (· / 2)

/-- Greedy rows: the counts of a taken row are set to zero. -/
def greedyRow {α : Type} [Entry α] (a : StoredMatrix α) : Outcome (List Nat) := do
  let z ← ZeroCounts.ofMatrix a
  return z.order fun _ => 0

end EliminationOrder
