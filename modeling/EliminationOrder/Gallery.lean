/-
Matrices with known patterns: the identity, Laplacians of paths and grids, and the
matrices of graphs given by their edges, with ones on the diagonal and at both places
of every edge.

Every constant goes through the entry type, which may not have it: a Laplacian of
unsigned entries faults as soon as it has to hold a minus one.
-/
import EliminationOrder.Matrix.Assembly
import EliminationOrder.Random

namespace EliminationOrder.Gallery

variable {α : Type} [Entry α]

/-- An integer as an entry. -/
def constant (n : Int) : Outcome α :=
  match Entry.ofInt? n with
  | some x => .ok x
  | none => .error (.fault (.notRepresentable n))

/-- The identity of order `m`. -/
def identity (m : Nat) : Outcome (SparseMatrix α) :=
  SparseMatrix.ofColumns m ((List.range m).map fun i => [(i, 1)])

/-! ### Laplacians -/

/-- A column of a Laplacian: `diagonal` in its own row and minus one in those of its neighbors. -/
def laplacianColumn (diagonal : Int) (i : Nat) (neighbors : List Nat) : Outcome (Column α) :=
  ((i, diagonal) :: neighbors.map (·, -1)).mapM fun (r, n) => do
    let x ← constant n
    return (r, x)

/-- The neighbors of point `i` on a path of `m` points. -/
def pathNeighbors (m i : Nat) : List Nat :=
  (if 0 < i then [i - 1] else []) ++ (if i + 1 < m then [i + 1] else [])

/-- The Laplacian of a path of `m` points, with two on the diagonal. -/
def pathLaplacian (m : Nat) : Outcome (SparseMatrix α) := do
  let columns ← (List.range m).mapM fun i => laplacianColumn 2 i (pathNeighbors m i)
  SparseMatrix.ofColumns m columns

/-- The number of the grid point `(x, y)`: points are numbered along `y` first. -/
def gridPoint (my x y : Nat) : Nat :=
  y + my * x

/-- The points of a grid of `mx` times `my`, by their numbers. -/
def gridPoints (mx my : Nat) : List (Nat × Nat) :=
  (List.range mx).flatMap fun x => (List.range my).map fun y => (x, y)

/-- The neighbors of a grid point: one step along either axis. -/
def gridNeighbors (mx my x y : Nat) : List Nat :=
  (pathNeighbors mx x).map (fun x => gridPoint my x y) ++
    (pathNeighbors my y).map (fun y => gridPoint my x y)

/-- The Laplacian of a grid of `mx` times `my` points, with four on the diagonal. -/
def gridLaplacian (mx my : Nat) : Outcome (SparseMatrix α) := do
  let columns ← (gridPoints mx my).mapM fun (x, y) =>
    laplacianColumn 4 (gridPoint my x y) (gridNeighbors mx my x y)
  SparseMatrix.ofColumns (mx * my) columns

/-! ### Matrices of graphs -/

/-- The triplets of an edge: a one at both of its places, and none for a loop. -/
def edgeTriplets (edge : Nat × Nat) : List (Nat × Nat × α) :=
  if edge.1 = edge.2 then [] else [(edge.1, edge.2, 1), (edge.2, edge.1, 1)]

/--
Ones on the diagonal and at both places of every edge; an edge listed again is added
again. Loops are skipped, wherever they are.
-/
def ofEdges (m : Nat) (edges : List (Nat × Nat)) : Outcome (SparseMatrix α) :=
  SparseMatrix.ofTriplets m m ((List.range m).map (fun i => (i, i, 1)) ++ edges.flatMap edgeTriplets)

/-- The edges of a path through all points. -/
def path (m : Nat) : Outcome (SparseMatrix α) :=
  ofEdges m ((List.range (m - 1)).map fun i => (i, i + 1))

/-- Edges from the point zero to all others. -/
def star (m : Nat) : Outcome (SparseMatrix α) :=
  ofEdges m ((List.range (m - 1)).map fun i => (0, i + 1))

/-- All pairs of different points, the smaller first. -/
def allPairs (m : Nat) : List (Nat × Nat) :=
  (List.range m).flatMap fun i => (List.range (m - (i + 1))).map fun k => (i, i + 1 + k)

/-- Edges between all pairs. -/
def complete (m : Nat) : Outcome (SparseMatrix α) :=
  ofEdges m (allPairs m)

/-- The pairs of a list that a sequence of events of probability `p` picks. -/
def pick (p : Float) : List (Nat × Nat) → Random.Stream → List (Nat × Nat)
  | [], _ => []
  | pair :: pairs, s =>
    let (chosen, s) := s.event p
    if chosen then pair :: pick p pairs s else pick p pairs s

/-- Edges between pairs picked at random, each with probability `density`. -/
def random (m : Nat) (density : Float) (seed : UInt64) : Outcome (SparseMatrix α) :=
  if 0 ≤ density ∧ density ≤ 1 then
    ofEdges m (pick density (allPairs m) (Random.Stream.ofSeed seed))
  else
    .error (.fault (.notProbability density))

end EliminationOrder.Gallery
