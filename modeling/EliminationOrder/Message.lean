/-
What a failure says.
-/
import EliminationOrder.Decimal.Text
import EliminationOrder.Failure

namespace EliminationOrder

namespace Refusal

/-- The name of the argument that is at fault. -/
def argument : Refusal → String
  | notSquare _ _ => "matrix"
  | alreadyEliminated _ _ => "graph"
  | notPermutation _ => "permutation"
  | decayOutOfRange _ => "decay"
  | zeroHops => "khop_max_hops"

/-- What is wrong with the argument. -/
def reason : Refusal → String
  | notSquare nrows ncols =>
    "elimination ordering needs a square matrix, got " ++ toString nrows ++ "x" ++ toString ncols
  | alreadyEliminated gone total => toString gone ++ " of " ++ toString total ++ " nodes already eliminated"
  | notPermutation size => "not a permutation of 0.." ++ toString size
  | decayOutOfRange decay =>
    "must lie strictly between 0 and 1, got " ++ String.ofList (Decimal.write .message decay)
  | zeroHops => "must be at least 1"

/-- The refusal in full. -/
def message (r : Refusal) : String :=
  "Invalid argument '" ++ r.argument ++ "': " ++ r.reason

end Refusal

/-- Why a file gave no text, in words. -/
def ReadFailure.message : ReadFailure → String
  | notFound => "no such file"
  | notText => "the file is not text"
  | other => "the file cannot be read"

/-- A failure in words. -/
def Failure.message : Failure → String
  | refused r => r.message
  | config => "Config error"
  | unreadable cause => "I/O error: " ++ cause.message
  | fault _ => "internal fault"

end EliminationOrder
