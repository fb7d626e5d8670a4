/-
How sparse matrices are put together: from packed arrays, columns, triplets and other matrices.

`ofPacked` takes the entries of all columns, each column in any order. It works first and
checks afterwards: the columns are sorted in place and their rows indexed with the
boundaries as they come, which faults where a column does not lie in the arrays, and then
what came out is held against everything that a matrix promises. All other ways end there:
`ofColumns` packs a list of columns, `permuteSymmetric` those of a matrix in another order.

`ofTriplets` adds up the values of each position, in the order in which they are listed,
keeps the positions by column and then by row, and hands their entries over packed, with
boundaries found by counting.
-/
import EliminationOrder.Matrix.Packed
import EliminationOrder.Matrix.PackedRows
import EliminationOrder.Permutation

namespace EliminationOrder.SparseMatrix

variable {α : Type} [Entry α]

/-! ### Packed arrays -/

/-- The matrix of packed columns that have been sorted, with its rows indexed, if it keeps all its promises. -/
def ofSorted (nrows ncols : Nat) (offsets : List Nat) (packed : PackedColumns α)
    (columns : List (Column α)) : Outcome (SparseMatrix α) :=
  match h : PackedRows.ofPositions nrows (positionsFrom nrows 0 columns) with
  | .error e => .error e
  | .ok index =>
    if offsets.length ≠ ncols + 1 then
      .error (.fault (.sizeMismatch offsets.length (ncols + 1)))
    else if ¬ Boundaries packed.rowIds.size offsets then
      .error (.fault .badBoundaries)
    else if inRange : ∀ col ∈ columns, col.InRange nrows then
      if ascending : ∀ col ∈ columns, col.Ascending then
        if packed.rowIds.size ≠ packed.values.size then
          .error (.fault (.sizeMismatch packed.rowIds.size packed.values.size))
        else if ¬ index.Complete nrows then
          .error (.fault .invariantBroken)
        else
          .ok {
            nrows
            columns := columns.toArray
            rows := index.rows nrows
            ascending := by simpa using ascending
            inRange := by simpa using inRange
            rows_eq := PackedRows.rows_eq_rowIndex h }
      else
        .error (.fault (.repeatedRow (columns.findIdx fun col => ¬ col.Ascending)))
    else
      .error (.fault (.strayRow nrows))

/--
The matrix in packed form: the rows and the values of all columns one after the other,
column `j` between boundaries `j` and `j + 1`.
-/
def ofPacked (nrows ncols : Nat) (offsets rowIds : List Nat) (values : List α) :
    Outcome (SparseMatrix α) := do
  let packed ← PackedColumns.sortColumns offsets (.ofLists rowIds values)
  let columns ← packed.columns offsets
  ofSorted nrows ncols offsets packed columns

/-! ### Columns -/

/--
The matrix with the given columns, each in any order. Every row has to be below `nrows`,
and no column may list a row twice.
-/
def ofColumns (nrows : Nat) (columns : List (Column α)) : Outcome (SparseMatrix α) :=
  ofPacked nrows columns.length (columnOffsets 0 columns) (columns.flatten.map Prod.fst)
    (columns.flatten.map Prod.snd)

/--
The square matrix reordered by `p` on both sides: its entry at `(k, l)` is the entry at
`(p[k], p[l])`.
-/
def permuteSymmetric (a : SparseMatrix α) (p : List Nat) : Outcome (SparseMatrix α) := do
  if a.nrows ≠ a.ncols then
    throw (.fault (.sizeMismatch a.nrows a.ncols))
  if p.length ≠ a.ncols then
    throw (.fault (.sizeMismatch p.length a.ncols))
  let position := (← Permutation.inverse p).toArray
  let columns := p.map fun c =>
    (a.columns[c]?.getD []).map fun (r, x) => (position[r]?.getD 0, x)
  ofColumns a.nrows columns

/-! ### Triplets -/

/-- The columns of the positions that triplets name, the values of each position added up. -/
def collect (ncols : Nat) (triplets : List (Nat × Nat × α)) : Array (Column α) :=
  triplets.foldl (fun columns (r, c, x) => columns.modify c (Column.accumulate r x))
    (Array.replicate ncols [])

/-- The entries of columns numbered from `j`, one column after the other: row, column and value of each. -/
def listEntries : Nat → List (Column α) → List (Nat × Nat × α)
  | _, [] => []
  | j, col :: cols => col.map (fun (r, x) => (r, j, x)) ++ listEntries (j + 1) cols

/-- The matrix with every triplet `(row, column, value)` added in, in the order of the list. -/
def ofTriplets (nrows ncols : Nat) (triplets : List (Nat × Nat × α)) : Outcome (SparseMatrix α) :=
  match triplets.find? fun (r, c, _) => !(r < nrows && c < ncols) with
  | some (r, c, _) => .error (.fault (.noPosition r c nrows ncols))
  | none =>
    let entries := listEntries 0 (collect ncols triplets).toList
    ofPacked nrows ncols (groupBoundaries ncols (entries.map fun e => e.2.1))
      (entries.map fun e => e.1) (entries.map fun e => e.2.2)

end EliminationOrder.SparseMatrix
