/-
The sort is the library's insertion sort.

`sortList` takes its test as a function and the library's sort takes a decidable relation;
apart from that they are one recursion, so what is known of the latter carries over.
-/
import EliminationOrder.Sorting
import Mathlib.Data.List.Sort

namespace EliminationOrder

variable {α : Type} {precedes : α → α → Bool}

theorem insertSorted_eq_orderedInsert (a : α) (l : List α) :
    insertSorted precedes a l = l.orderedInsert (fun a b => precedes a b = true) a := by
  induction l with
  | nil => rfl
  | cons b l ih => rw [insertSorted, List.orderedInsert_cons, ih]

theorem sortList_eq_insertionSort (l : List α) :
    sortList precedes l = l.insertionSort fun a b => precedes a b = true := by
  induction l with
  | nil => rfl
  | cons a l ih => rw [sortList, ih, insertSorted_eq_orderedInsert, List.insertionSort_cons]

/-- **Sorting rearranges a list**, whatever the test says. -/
theorem sortList_perm (l : List α) : (sortList precedes l).Perm l := by
  rw [sortList_eq_insertionSort]
  exact List.perm_insertionSort _ l

/-- Every element comes before those after it, if the test compares any two and is transitive. -/
theorem sortList_pairwise (htotal : ∀ a b, precedes a b = true ∨ precedes b a = true)
    (htrans : ∀ a b c, precedes a b = true → precedes b c = true → precedes a c = true)
    (l : List α) : (sortList precedes l).Pairwise fun a b => precedes a b = true := by
  have : Std.Total fun a b => precedes a b = true := ⟨htotal⟩
  have : IsTrans α fun a b => precedes a b = true := ⟨htrans⟩
  rw [sortList_eq_insertionSort]
  exact List.pairwise_insertionSort _ l

end EliminationOrder
