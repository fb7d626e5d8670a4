import EliminationOrder.Main
import EliminationOrder.Session.Dense
import EliminationOrder.Session.Graph
import EliminationOrder.Session.Marker
import EliminationOrder.Proofs.FirstOccurrences
import EliminationOrder.Proofs.Marker
import EliminationOrder.Proofs.Graph.Sound
import EliminationOrder.Proofs.Graph.Elimination
import EliminationOrder.Proofs.Graph.Prediction
import EliminationOrder.Proofs.Graph.Construction
import EliminationOrder.Proofs.Matrix.Pattern
import EliminationOrder.Proofs.Graph.Reachable
import EliminationOrder.Proofs.Graph.Rewriting
import EliminationOrder.Proofs.Path
import EliminationOrder.Proofs.Graph.EliminationPaths
import EliminationOrder.Proofs.FillRequest
import EliminationOrder.Proofs.FillPaths
import EliminationOrder.Proofs.EdgeAccount
import EliminationOrder.Proofs.Ordering.Greedy
import EliminationOrder.Proofs.Ordering.MinimumFill
import EliminationOrder.Proofs.Invariant
import EliminationOrder.Proofs.Graph.Alike
import EliminationOrder.Proofs.Ordering.HopDegree
import EliminationOrder.Proofs.Ordering.Method
import EliminationOrder.Proofs.Ordering.SamePattern
import EliminationOrder.Proofs.Chordal
import EliminationOrder.Proofs.Ordering.PerfectElimination
import EliminationOrder.Proofs.Ordering.Forests
import EliminationOrder.Proofs.Ordering.Components
import EliminationOrder.Proofs.Ordering.SameZeros
import EliminationOrder.Proofs.Graph.SameNodes
import EliminationOrder.Proofs.Session.Transparent
import EliminationOrder.Proofs.Session.MarkedSet
import EliminationOrder.Proofs.Matrix.Columns
import EliminationOrder.Proofs.Matrix.PackedColumns
import EliminationOrder.Proofs.Matrix.WellFormed
import EliminationOrder.Proofs.Matrix.Assembly
import EliminationOrder.Proofs.Matrix.Packing
import EliminationOrder.Proofs.Matrix.Triplets
import EliminationOrder.Proofs.Inverse
import EliminationOrder.Proofs.Matrix.Reorder
import EliminationOrder.Proofs.Matrix.StoredArrays
import EliminationOrder.Proofs.Matrix.Rearrangement
import EliminationOrder.Proofs.Matrix.Bisection
import EliminationOrder.Proofs.Session.DenseStore
import EliminationOrder.Proofs.Relabelling
import EliminationOrder.Proofs.FilledPattern
import EliminationOrder.Proofs.Graph.ListOrder
import EliminationOrder.Proofs.Graph.Distance
import EliminationOrder.Proofs.Ordering.HopDistances
import EliminationOrder.Proofs.Ordering.TotalOrder
import EliminationOrder.Proofs.Ordering.HopOrder
import EliminationOrder.Proofs.Ordering.ZeroCountRule
import EliminationOrder.Proofs.Ordering.RowCover
import EliminationOrder.Proofs.Gallery.EdgeLists
import EliminationOrder.Proofs.Gallery.Laplacian
import EliminationOrder.Proofs.Decimal.Digits
import EliminationOrder.Proofs.Decimal.Rounding
import EliminationOrder.Proofs.Decimal.Nearest
import EliminationOrder.Proofs.Decimal.Shortest
import EliminationOrder.Proofs.Decimal.Text
import EliminationOrder.Proofs.Toml.Laws
import EliminationOrder.Proofs.Toml.Scalar
import EliminationOrder.Proofs.Toml.Lines
import EliminationOrder.Proofs.Toml.Tables
import EliminationOrder.Proofs.Toml.Native
import EliminationOrder.Proofs.Config.RoundTrip
import EliminationOrder.Proofs.Config.Acceptance
