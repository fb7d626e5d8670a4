/-
How a call can end without an answer.

A *refusal* is an answer to the caller: the request was understood, and something
about it rules a result out. A *fault* is a call outside an operation's domain, such
as an index past the end; a caller that keeps to the documented ranges never sees one.
Both are causes, not texts: what a refusal says is computed from its cause elsewhere.
-/

namespace EliminationOrder

/-- What rules a request out, with the values its explanation names. -/
inductive Refusal
  /-- Elimination needs as many rows as columns. -/
  | notSquare (nrows ncols : Nat)
  /-- Fill is only counted on a graph that has lost no node yet. -/
  | alreadyEliminated (gone total : Nat)
  /-- The list does not hold every index below `size` exactly once. -/
  | notPermutation (size : Nat)
  /-- The decay of a hop ordering lies strictly between zero and one. -/
  | decayOutOfRange (decay : Float)
  /-- A configured bound on hops is at least one. -/
  | zeroHops

/-- A call outside an operation's domain. -/
inductive Fault
  /-- `index` was used where only numbers below `bound` are in range. -/
  | outOfRange (index bound : Nat)
  /-- A matrix of this shape has no such position. -/
  | noPosition (row column nrows ncols : Nat)
  /-- The node has left the graph already. -/
  | nodeGone (node : Nat)
  /-- A counter at zero was asked to count down. -/
  | countBelowZero
  /-- A check of a data structure against its invariant failed. -/
  | invariantBroken
  /-- An elimination created another number of edges than was predicted for it. -/
  | mispredicted (created predicted : Nat)
  /-- An ordering still had active nodes after a round for each of them. -/
  | unfinished
  /-- Two sizes that have to agree differ. -/
  | sizeMismatch (found expected : Nat)
  /-- The boundaries between the columns do not cut the entries into columns. -/
  | badBoundaries
  /-- A column lists a row that the matrix, with `nrows` rows, does not have. -/
  | strayRow (nrows : Nat)
  /-- A column lists one row twice. -/
  | repeatedRow (column : Nat)
  /-- The entry type has no such number. -/
  | notRepresentable (value : Int)
  /-- A probability lies between zero and one. -/
  | notProbability (value : Float)

/-- Why a file gave no text. -/
inductive ReadFailure
  | notFound
  | notText
  | other

/-- How a call can end without an answer. -/
inductive Failure
  | refused (refusal : Refusal)
  /-- A configuration text was not understood, or cannot be written. -/
  | config
  | unreadable (cause : ReadFailure)
  | fault (fault : Fault)

namespace Failure

/-- The index is past the end. -/
abbrev outOfRange (index bound : Nat) : Failure :=
  .fault (.outOfRange index bound)

end Failure

/-- The answer of a call, or how it ended without one. -/
abbrev Outcome (α : Type) : Type :=
  Except Failure α

namespace Outcome

variable {α β : Type}

@[simp] theorem pure_eq_ok (a : α) : (pure a : Outcome α) = .ok a :=
  rfl

@[simp] theorem ok_bind (a : α) (f : α → Outcome β) : (Except.ok a >>= f : Outcome β) = f a :=
  rfl

@[simp] theorem error_bind (e : Failure) (f : α → Outcome β) :
    (Except.error e >>= f : Outcome β) = .error e :=
  rfl

/-- Two calls in a row answer when the first one does and the second one, given its answer. -/
theorem bind_eq_ok {x : Outcome α} {f : α → Outcome β} {b : β} :
    x >>= f = .ok b ↔ ∃ a, x = .ok a ∧ f a = .ok b := by
  cases x with
  | error e => simp
  | ok a => simp

/-- Two answers that are pairs agree when both parts do. -/
theorem ok_pair_inj {a a' : α} {b b' : β} :
    (.ok (a, b) : Outcome (α × β)) = .ok (a', b') ↔ a = a' ∧ b = b' := by
  simp

/-- An answer shows in what can be compared: failures hold floating numbers, and cannot. -/
theorem toOption_eq_some {x : Outcome α} {a : α} : x.toOption = some a ↔ x = .ok a := by
  cases x with
  | error e =>
      show none = some a ↔ _
      simp
  | ok b =>
      show some b = some a ↔ _
      simp

end Outcome

/-- Elimination is defined for as many rows as columns. -/
def requireSquare (nrows ncols : Nat) : Outcome Unit :=
  if nrows = ncols then .ok () else .error (.refused (.notSquare nrows ncols))

end EliminationOrder
