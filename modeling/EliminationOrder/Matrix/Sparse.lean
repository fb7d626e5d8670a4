/-
Matrices that store only some of their entries.

Each column is a list of rows and values, by ascending row. A position that is not
listed holds zero; a listed one may hold zero too, since assembling a matrix can cancel
entries, and it stays listed. Beside the columns stands an index of the rows: for each
row the columns in which it is not zero. The index is a second copy of the pattern,
read where rows are asked for, and follows from the columns (`rows_eq`), so two
matrices with the same columns are the same matrix.

How a matrix is put together stands in a module of its own.
-/
import EliminationOrder.Matrix.Dense
import EliminationOrder.Sorting

namespace EliminationOrder

/-- The stored entries of one column: rows and values. -/
abbrev Column (α : Type) : Type :=
  List (Nat × α)

namespace Column

variable {α : Type}

/-- The column by ascending row; entries of one row keep their order. -/
def sort (col : Column α) : Column α :=
  sortList (fun a b => a.1 ≤ b.1) col

/-- Every row is larger than the one before. -/
def Ascending (col : Column α) : Prop :=
  col.Pairwise fun a b => a.1 < b.1

instance (col : Column α) : Decidable col.Ascending :=
  inferInstanceAs (Decidable (List.Pairwise _ _))

/-- Every row is below the bound. -/
def InRange (nrows : Nat) (col : Column α) : Prop :=
  ∀ e ∈ col, e.1 < nrows

instance (nrows : Nat) (col : Column α) : Decidable (col.InRange nrows) :=
  inferInstanceAs (Decidable (∀ e ∈ col, e.1 < nrows))

/-- Adds `x` to the entry in row `r` of an ascending column; a row that is not stored starts from zero. -/
def accumulate [Entry α] (r : Nat) (x : α) : Column α → Column α
  | [] => [(r, 0 + x)]
  | (s, y) :: rest =>
    if r < s then (r, 0 + x) :: (s, y) :: rest
    else if r = s then (s, y + x) :: rest
    else (s, y) :: accumulate r x rest

end Column

/-! ### The row index -/

/-- Enters column `j` at the front of the rows in which it is not zero. -/
def indexColumn {α : Type} [Entry α] (j : Nat) (col : Column α) (rows : Array (List Nat)) :
    Array (List Nat) :=
  col.foldl (fun rows (r, x) => if Entry.isZero x then rows else rows.modify r (j :: ·)) rows

theorem indexColumn_cons {α : Type} [Entry α] (j r : Nat) (x : α) (col : Column α)
    (rows : Array (List Nat)) : indexColumn j ((r, x) :: col) rows
      = indexColumn j col (if Entry.isZero x then rows else rows.modify r (j :: ·)) :=
  rfl

/-- Enters columns numbered from `j`, the last one first, so that each row comes out ascending. -/
def indexColumns {α : Type} [Entry α] (nrows : Nat) : Nat → List (Column α) → Array (List Nat)
  | _, [] => Array.replicate nrows []
  | j, col :: cols => indexColumn j col (indexColumns nrows (j + 1) cols)

/-- For each row the columns in which it is not zero. -/
def rowIndex {α : Type} [Entry α] (nrows : Nat) (columns : Array (Column α)) : Array (List Nat) :=
  indexColumns nrows 0 columns.toList

/-! ### The type -/

/-- A matrix with some of its entries stored by columns, and an index of its rows. -/
structure SparseMatrix (α : Type) [Entry α] where
  nrows : Nat
  columns : Array (Column α)
  rows : Array (List Nat)
  /-- Each column is listed by ascending row, none twice. -/
  ascending : ∀ col ∈ columns, col.Ascending
  /-- Each stored row exists. -/
  inRange : ∀ col ∈ columns, col.InRange nrows
  /-- The index is that of the columns. -/
  rows_eq : rows = rowIndex nrows columns

namespace SparseMatrix

variable {α : Type} [Entry α]

/-- The number of columns. -/
def ncols (a : SparseMatrix α) : Nat :=
  a.columns.size

/-- The number of stored entries, zeros among them included. -/
def storedCount (a : SparseMatrix α) : Nat :=
  a.columns.toList.flatten.length

/-! ### Reading -/

/-- The entry at `(i, j)`. The column has to exist; no row is out of range, and one that is not stored holds zero. -/
def get (a : SparseMatrix α) (i j : Nat) : Outcome α :=
  match a.columns[j]? with
  | some col => .ok ((col.lookup i).getD 0)
  | none => .error (.outOfRange j a.ncols)

/-- The columns in which row `i` is not zero, in ascending order, read from the index. -/
def indexedRow (a : SparseMatrix α) (i : Nat) : Outcome (List Nat) :=
  match a.rows[i]? with
  | some row => .ok row
  | none => .error (.outOfRange i a.nrows)

/-! ### Dense copies -/

/-- Writes the stored entries of a column into column `j` of a dense matrix. -/
def writeColumn (j : Nat) : Column α → DenseMatrix α → Outcome (DenseMatrix α)
  | [], d => .ok d
  | (r, x) :: col, d => do
    let d ← d.set r j x
    writeColumn j col d

/-- Writes columns numbered from `j` into a dense matrix. -/
def writeColumns : Nat → List (Column α) → DenseMatrix α → Outcome (DenseMatrix α)
  | _, [], d => .ok d
  | j, col :: cols, d => do
    let d ← writeColumn j col d
    writeColumns (j + 1) cols d

/-- The same entries with every position stored. -/
def toDense (a : SparseMatrix α) : Outcome (DenseMatrix α) :=
  writeColumns 0 a.columns.toList (DenseMatrix.zeros a.nrows a.ncols)

end SparseMatrix

end EliminationOrder
