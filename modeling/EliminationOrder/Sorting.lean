/-
Sorting by insertion.

Each element goes in front of the first one that it may precede, beginning with the
last, so elements that may precede each other keep their order. The lists sorted here
are columns, which mostly come sorted already, and the scores of one matrix; insertion
is structural, so closed instances evaluate.
-/

namespace EliminationOrder

variable {α : Type}

/-- Puts `a` in front of the first element of a list that it may precede. -/
def insertSorted (precedes : α → α → Bool) (a : α) : List α → List α
  | [] => [a]
  | b :: bs => if precedes a b then a :: b :: bs else b :: insertSorted precedes a bs

/-- The elements of a list, each before those that it precedes; ties keep their order. -/
def sortList (precedes : α → α → Bool) : List α → List α
  | [] => []
  | a :: as => insertSorted precedes a (sortList precedes as)

end EliminationOrder
