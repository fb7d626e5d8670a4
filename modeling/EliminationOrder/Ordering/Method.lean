/-
The ordering methods under one roof: their names, and what each makes of a matrix.
-/
import EliminationOrder.Ordering.HopDegree
import EliminationOrder.Ordering.MinimumDegree
import EliminationOrder.Ordering.MinimumFill
import EliminationOrder.Ordering.ZeroCounts

namespace EliminationOrder

/-- Which rule an ordering follows. -/
inductive MethodKind
  | exactMinimumDegree
  | greedyMinimumFill
  | approximateFill
  | greedyRow
  | hopDegree
deriving DecidableEq, Repr

namespace MethodKind

/-- All rules. -/
def all : List MethodKind :=
  [exactMinimumDegree, greedyMinimumFill, approximateFill, greedyRow, hopDegree]

/-- The name under which a rule is configured and reported. -/
def name : MethodKind → String
  | exactMinimumDegree => "exact_minimum_degree"
  | greedyMinimumFill => "greedy_minimum_fillin"
  | approximateFill => "approximate_fillin"
  | greedyRow => "greedy_row"
  | hopDegree => "khop_degree"

/-- The rule with the given name. -/
def ofName? (name : String) : Option MethodKind :=
  all.find? fun kind => kind.name == name

/-- Whether a rule is a heuristic that no promise of quality is made for. -/
def isExperimental : MethodKind → Bool
  | approximateFill | hopDegree => true
  | exactMinimumDegree | greedyMinimumFill | greedyRow => false

end MethodKind

/-- An ordering rule with its parameters. -/
inductive Method
  | exactMinimumDegree
  | greedyMinimumFill
  | approximateFill
  | greedyRow
  | hopDegree (k : HopDegree)

namespace Method

/-- The rule without its parameters. -/
def kind : Method → MethodKind
  | exactMinimumDegree => .exactMinimumDegree
  | greedyMinimumFill => .greedyMinimumFill
  | approximateFill => .approximateFill
  | greedyRow => .greedyRow
  | hopDegree _ => .hopDegree

/-- The method that is used where none is asked for. -/
def standard : Method :=
  exactMinimumDegree

/-- The order in which a method takes the rows of a matrix. -/
def order {α : Type} [Entry α] (a : StoredMatrix α) : Method → Outcome (List Nat)
  | exactMinimumDegree => do
    let g ← EliminationGraph.ofMatrix a
    let (p, _) ← MinimumDegree.order g
    return p
  | greedyMinimumFill => do
    let g ← EliminationGraph.ofMatrix a
    let (p, _) ← MinimumFill.order g
    return p
  | approximateFill => EliminationOrder.approximateFill a
  | greedyRow => EliminationOrder.greedyRow a
  | hopDegree k => do
    -- The decay is judged again, before the shape of the matrix.
    let _ ← HopDegree.ofDecay k.decay
    let g ← EliminationGraph.ofMatrix a
    k.order g

end Method

end EliminationOrder
