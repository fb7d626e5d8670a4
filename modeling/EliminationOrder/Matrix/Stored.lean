/-
A matrix in either storage, and what the orderings read of it.

The orderings see a matrix through its shape and the nonzero pattern of its rows. A
sparse matrix answers from its row index and a dense one by reading the row; both give
the columns of nonzero entries in ascending order.
-/
import EliminationOrder.Graph.Basic
import EliminationOrder.Matrix.Sparse

namespace EliminationOrder

/-- A matrix in either storage. -/
inductive StoredMatrix (α : Type) [Entry α]
  | sparse (a : SparseMatrix α)
  | dense (a : DenseMatrix α)

namespace StoredMatrix

variable {α : Type} [Entry α]

/-- The number of rows. -/
def nrows : StoredMatrix α → Nat
  | sparse a => a.nrows
  | dense a => a.nrows

/-- The number of columns. -/
def ncols : StoredMatrix α → Nat
  | sparse a => a.ncols
  | dense a => a.ncols

/-- The entry at `(i, j)`. -/
def get (i j : Nat) : StoredMatrix α → Outcome α
  | sparse a => a.get i j
  | dense a => a.get i j

/-- The pattern of row `i` where the storage has an index of it. -/
def indexedRow (i : Nat) : StoredMatrix α → Outcome (Option (List Nat))
  | sparse a => some <$> a.indexedRow i
  | dense _ => .ok none

/-- The columns in which row `i` is not zero, in ascending order. -/
def rowPattern (i : Nat) : StoredMatrix α → Outcome (List Nat)
  | sparse a => a.indexedRow i
  | dense a => a.scanRow i

/-- The patterns of the rows from `i` on, `count` of them. -/
def rowPatternsFrom (a : StoredMatrix α) (i : Nat) : Nat → Outcome (List (List Nat))
  | 0 => .ok []
  | count + 1 => do
    let row ← a.rowPattern i
    let rows ← a.rowPatternsFrom (i + 1) count
    return row :: rows

/-- The patterns of all rows. -/
def rowPatterns (a : StoredMatrix α) : Outcome (List (List Nat)) :=
  a.rowPatternsFrom 0 a.nrows

/-- All entries, row by row. -/
def entriesByRow (a : StoredMatrix α) : Outcome (List (List α)) :=
  (List.range a.nrows).mapM fun i => (List.range a.ncols).mapM fun j => a.get i j

end StoredMatrix

/-- Turns the patterns of rows numbered from `i` into pairs of a row and a column. -/
def patternPairs : Nat → List (List Nat) → List (Nat × Nat)
  | _, [] => []
  | i, row :: rows => row.map (i, ·) ++ patternPairs (i + 1) rows

/--
The graph of the symmetrised pattern of a square matrix: `i` and `j` are joined if
either of the entries `(i, j)` and `(j, i)` is not zero.
-/
def EliminationGraph.ofMatrix {α : Type} [Entry α] (a : StoredMatrix α) : Outcome EliminationGraph := do
  requireSquare a.nrows a.ncols
  let rows ← a.rowPatterns
  EliminationGraph.ofEdges a.nrows (patternPairs 0 rows)

end EliminationOrder
