/-
Columns as finite maps.

A column that lists no row twice is a map from rows to values, and sorting it does not change
what is looked up.  It still lists no row twice when its rows are renamed one to one.
-/
import EliminationOrder.Matrix.Sparse
import EliminationOrder.Proofs.Sorting

namespace EliminationOrder

namespace Column

variable {α : Type} {col col' : Column α} {i : Nat} {x : α}

/-- No row is listed twice. -/
def Distinct (col : Column α) : Prop :=
  (col.map Prod.fst).Nodup

/-! ### Looking up -/

theorem lookup_eq_some_iff (h : col.Distinct) : List.lookup i col = some x ↔ (i, x) ∈ col := by
  induction col with
  | nil => simp
  | cons e col ih =>
      obtain ⟨r, y⟩ := e
      obtain ⟨hr, h'⟩ := List.nodup_cons.mp h
      by_cases hir : i = r
      · subst hir
        have hother : (i, x) ∉ col := fun hmem => hr (List.mem_map.mpr ⟨(i, x), hmem, rfl⟩)
        simp [List.lookup_cons_self, hother, eq_comm]
      · have hne : (i == r) = false := by simpa using hir
        rw [List.lookup_cons, hne, List.mem_cons, ih h']
        simp [hir]

theorem Distinct.perm (h : col.Distinct) (hperm : col'.Perm col) : col'.Distinct :=
  ((hperm.map Prod.fst).nodup_iff).mpr h

/-- **What is looked up does not depend on the order of the entries.** -/
theorem lookup_perm (h : col.Distinct) (hperm : col'.Perm col) (i : Nat) :
    List.lookup i col' = List.lookup i col := by
  refine Option.ext fun x => ?_
  rw [lookup_eq_some_iff (h.perm hperm), lookup_eq_some_iff h, hperm.mem_iff]

/-- The column with its rows renamed. -/
def rename (f : Nat → Nat) (col : Column α) : Column α :=
  col.map fun e => (f e.1, e.2)

theorem Distinct.rename {f : Nat → Nat} (h : col.Distinct)
    (hf : ∀ e ∈ col, ∀ e' ∈ col, f e.1 = f e'.1 → e.1 = e'.1) : (col.rename f).Distinct := by
  have hmap : (col.rename f).map Prod.fst = (col.map Prod.fst).map f := by
    simp [Column.rename, Function.comp_def]
  unfold Distinct
  rw [hmap]
  refine List.Nodup.map_on ?_ h
  intro r hr r' hr' heq
  obtain ⟨e, he, rfl⟩ := List.mem_map.mp hr
  obtain ⟨e', he', rfl⟩ := List.mem_map.mp hr'
  exact hf e he e' he' heq

theorem Ascending.distinct (h : col.Ascending) : col.Distinct :=
  List.pairwise_map.mpr (h.imp Nat.ne_of_lt)

/-- **An ascending column is determined by its entries.** -/
theorem Ascending.eq_of_mem_iff (h : col.Ascending) (h' : col'.Ascending)
    (hmem : ∀ e, e ∈ col ↔ e ∈ col') : col = col' := by
  have hnodup : ∀ {c : Column α}, c.Ascending → c.Nodup :=
    fun hc => hc.imp fun hlt heq => Nat.ne_of_lt hlt (congrArg Prod.fst heq)
  have hperm : col.Perm col' := (List.perm_ext_iff_of_nodup (hnodup h) (hnodup h')).mpr hmem
  exact hperm.eq_of_pairwise (fun a b _ _ hab hba => absurd hab (Nat.lt_asymm hba)) h h'

/-! ### Sorting -/

theorem sort_perm (col : Column α) : col.sort.Perm col :=
  sortList_perm col

/-- **Distinct rows come out ascending.** -/
theorem Distinct.sort_ascending (h : col.Distinct) : col.sort.Ascending := by
  have hle : col.sort.Pairwise fun a b => a.1 ≤ b.1 := by
    have hsorted : col.sort.Pairwise fun a b => decide (a.1 ≤ b.1) = true := by
      refine sortList_pairwise ?_ ?_ col
      · intro a b
        simp only [decide_eq_true_eq]
        omega
      · intro a b c
        simp only [decide_eq_true_eq]
        omega
    exact hsorted.imp fun hab => of_decide_eq_true hab
  have hne : col.sort.Pairwise fun a b => a.1 ≠ b.1 :=
    List.pairwise_map.mp (h.perm col.sort_perm)
  exact (hle.and hne).imp fun hab => Nat.lt_of_le_of_ne hab.1 hab.2

theorem lookup_sort (h : col.Distinct) (i : Nat) : List.lookup i col.sort = List.lookup i col :=
  lookup_perm h col.sort_perm i

end Column

end EliminationOrder
