/-
Entries packed into arrays, column after column.

The stored entries of all columns stand one after the other, their rows in one array and
their values in another. Where the columns lie is said by a list of boundaries, column `j`
between boundaries `j` and `j + 1`. Columns are sorted in place, and boundaries are used as
they come: a column that does not lie in both arrays is a fault of whoever reads it, and
nothing else is looked at.
-/
import EliminationOrder.Matrix.Sparse

namespace EliminationOrder

/-! ### Parts of arrays -/

/-- The elements from one boundary up to the next one. They have to lie in the array. -/
def slice {β : Type} (xs : Array β) (first last : Nat) : Outcome (List β) :=
  if first ≤ last ∧ last ≤ xs.size then
    .ok (xs.extract first last).toList
  else
    .error (.fault .badBoundaries)

/-- Writes the elements of a list over those of an array, from position `i` on. -/
def overwrite {β : Type} (i : Nat) : List β → Array β → Array β
  | [], xs => xs
  | y :: ys, xs => overwrite (i + 1) ys (xs.setIfInBounds i y)

/-- Whether a list starts at zero, never falls, and ends at `last`. -/
def Boundaries (last : Nat) (offsets : List Nat) : Prop :=
  offsets.head? = some 0 ∧ offsets.getLast? = some last ∧ offsets.Pairwise (· ≤ ·)

instance (last : Nat) (offsets : List Nat) : Decidable (Boundaries last offsets) :=
  inferInstanceAs (Decidable (_ ∧ _ ∧ _))

/-! ### Entries by columns -/

/-- The stored entries of all columns, one column after the other: their rows and their values. -/
structure PackedColumns (α : Type) where
  rowIds : Array Nat
  values : Array α

namespace PackedColumns

variable {α : Type}

/-- The arrays with the elements of two lists. -/
def ofLists (rowIds : List Nat) (values : List α) : PackedColumns α where
  rowIds := rowIds.toArray
  values := values.toArray

/-- The entries from one boundary up to the next one. -/
def column (packed : PackedColumns α) (first last : Nat) : Outcome (Column α) := do
  let rows ← slice packed.rowIds first last
  let values ← slice packed.values first last
  return rows.zip values

/-- The entries between each two boundaries that follow one another. -/
def columns (packed : PackedColumns α) : List Nat → Outcome (List (Column α))
  | first :: last :: offsets => do
    let col ← packed.column first last
    let cols ← packed.columns (last :: offsets)
    return col :: cols
  | _ => .ok []

/-- Sorts the entries between two boundaries by row, in both arrays. -/
def sortColumn (first last : Nat) (packed : PackedColumns α) : Outcome (PackedColumns α) := do
  let col ← packed.column first last
  return {
    rowIds := overwrite first (col.sort.map Prod.fst) packed.rowIds
    values := overwrite first (col.sort.map Prod.snd) packed.values }

/-- Sorts the entries between each two boundaries that follow one another. -/
def sortColumns : List Nat → PackedColumns α → Outcome (PackedColumns α)
  | first :: last :: offsets, packed => do
    let packed ← packed.sortColumn first last
    sortColumns (last :: offsets) packed
  | _, packed => .ok packed

end PackedColumns

/-- The boundaries of columns that are packed one after the other, from position `first` on. -/
def columnOffsets {α : Type} (first : Nat) : List (Column α) → List Nat
  | [] => [first]
  | col :: cols => first :: columnOffsets (first + col.length) cols

end EliminationOrder
