/-
That the orderings by zero counts answer, and take every row once.

Two things could go wrong.  Counting the zeros of a column counts down from the number of
rows, once for each row that is not zero there; the pattern of a row names a column at
most once, so no count is asked to go below zero (`countDown_ok`, `ofMatrix_counts`).  And a
run is given as many rounds as there are rows; each takes one, so it ends because no row
is left, and the rows it took are all of them (`run_perm`, `run_eq_order`).

How the counts are lowered, and so which row is cheapest, plays no part in either.
-/
import EliminationOrder.Ordering.ZeroCounts
import EliminationOrder.Proofs.Matrix.Pattern
import Mathlib.Data.List.Count
import Mathlib.Data.List.Nodup

namespace EliminationOrder

/-! ### Rows and zeros of a column -/

namespace StoredMatrix

variable {α : Type} [Entry α]

/-- How many of the listed rows are not zero in column `c`. -/
def touched (a : StoredMatrix α) (rows : List Nat) (c : Nat) : Nat :=
  rows.countP fun i => a.Nonzero i c

theorem touched_range_le (a : StoredMatrix α) (c : Nat) :
    a.touched (List.range a.nrows) c ≤ a.nrows := by
  calc a.touched (List.range a.nrows) c ≤ (List.range a.nrows).length := List.countP_le_length
    _ = a.nrows := List.length_range

/-- The number of zeros in column `c`. -/
def zerosIn (a : StoredMatrix α) (c : Nat) : Nat :=
  a.nrows - a.touched (List.range a.nrows) c

/-- Over some rows, a column is listed as often as there are rows that are not zero in it. -/
theorem count_nonzeroColumns (a : StoredMatrix α) (c : Nat) (is : List Nat) :
    (is.map a.nonzeroColumns).flatten.count c = a.touched is c := by
  induction is with
  | nil => rfl
  | cons i is ih =>
      rw [List.map_cons, List.flatten_cons, List.count_append, ih, touched, touched,
        List.countP_cons, (a.nodup_nonzeroColumns i).count, Nat.add_comm]
      simp only [mem_nonzeroColumns, decide_eq_true_eq]

end StoredMatrix

namespace ZeroCounts

/-! ### Counting down -/

/-- Counting down answers as long as no column is listed more often than its count allows. -/
theorem countDown_ok (cs : List Nat) :
    ∀ {counts : Array Nat}, (∀ c ∈ cs, ∃ x, counts[c]? = some x ∧ cs.count c ≤ x) →
      ∃ counts', countDown counts cs = .ok counts' ∧
        ∀ c, counts'[c]? = counts[c]?.map (· - cs.count c) := by
  induction cs with
  | nil =>
      intro counts _
      exact ⟨counts, rfl, by simp⟩
  | cons c cs ih =>
      intro counts henough
      obtain ⟨x, hx, hcount⟩ := henough c (by simp)
      rw [List.count_cons_self] at hcount
      obtain ⟨k, rfl⟩ := Nat.exists_eq_succ_of_ne_zero (show x ≠ 0 by omega)
      have hlt : c < counts.size := (Array.getElem?_eq_some_iff.mp hx).1
      have hself : (counts.setIfInBounds c k)[c]? = some k := by simp [hlt]
      have hother : ∀ d, c ≠ d → (counts.setIfInBounds c k)[d]? = counts[d]? :=
        fun d hd => Array.getElem?_setIfInBounds_ne hd
      have henough' : ∀ d ∈ cs, ∃ x, (counts.setIfInBounds c k)[d]? = some x ∧ cs.count d ≤ x := by
        intro d hd
        by_cases hcd : c = d
        · subst hcd
          exact ⟨k, hself, by omega⟩
        · obtain ⟨y, hy, hle⟩ := henough d (by simp [hd])
          rw [List.count_cons_of_ne hcd] at hle
          exact ⟨y, by rw [hother d hcd]; exact hy, hle⟩
      obtain ⟨counts', hrest, hclosed⟩ := ih henough'
      refine ⟨counts', by simp only [countDown, hx]; exact hrest, ?_⟩
      intro d
      rw [hclosed d]
      by_cases hcd : c = d
      · subst hcd
        rw [hself, hx, List.count_cons_self]
        simp only [Option.map_some, Option.some.injEq]
        omega
      · rw [hother d hcd, List.count_cons_of_ne hcd]

/-- **The zeros of every matrix can be counted**, column by column. -/
theorem ofMatrix_counts {α : Type} [Entry α] (a : StoredMatrix α) :
    ∃ z, ofMatrix a = .ok z ∧ z.left = List.range a.nrows ∧
      (∀ k < a.nrows, z.row k = a.nonzeroColumns k) ∧
      ∀ c < a.ncols, z.counts[c]? = some (a.zerosIn c) := by
  set rows := (List.range a.nrows).map a.nonzeroColumns with hrows
  have hfull : ∀ c < a.ncols, (Array.replicate a.ncols a.nrows)[c]? = some a.nrows := by
    intro c hc
    simp [hc]
  have henough : ∀ c ∈ rows.flatten,
      ∃ x, (Array.replicate a.ncols a.nrows)[c]? = some x ∧ rows.flatten.count c ≤ x := by
    intro c hc
    obtain ⟨row, hrow, hcrow⟩ := List.mem_flatten.mp hc
    obtain ⟨i, -, rfl⟩ := List.mem_map.mp hrow
    refine ⟨a.nrows, hfull c (StoredMatrix.mem_nonzeroColumns.mp hcrow).2.1, ?_⟩
    rw [hrows, a.count_nonzeroColumns]
    exact a.touched_range_le c
  obtain ⟨counts, hcounts, hclosed⟩ := countDown_ok rows.flatten henough
  refine ⟨_, by rw [ofMatrix, a.rowPatterns_eq, Outcome.ok_bind, hcounts]; rfl, ?_, ?_, ?_⟩
  · simp
  · intro k hk
    simp [row, hk]
  · intro c hc
    rw [hclosed c, hfull c hc, hrows, a.count_nonzeroColumns]
    rfl

theorem ofMatrix_ok {α : Type} [Entry α] (a : StoredMatrix α) :
    ∃ z, ofMatrix a = .ok z ∧ z.left = List.range a.nrows := by
  obtain ⟨z, hz, hleft, -, -⟩ := ofMatrix_counts a
  exact ⟨z, hz, hleft⟩

/-! ### Runs -/

variable {lower : Nat → Nat} {z : ZeroCounts} {k : Nat}

theorem cheapest?_mem (h : z.cheapest? = some k) : k ∈ z.left :=
  List.minOn?_mem h

/-- There is a cheapest row as long as there is one left. -/
theorem cheapest?_eq_some (h : z.left ≠ []) : ∃ k, z.cheapest? = some k := by
  have hsome : z.cheapest?.isSome := List.isSome_minOn?_iff.mpr h
  exact Option.isSome_iff_exists.mp hsome

theorem cheapest?_eq_none (h : z.left = []) : z.cheapest? = none := by
  rw [cheapest?, h]
  rfl

theorem length_left_take (lower : Nat → Nat) (h : k ∈ z.left) :
    (z.take lower k).left.length + 1 = z.left.length := by
  rw [show (z.take lower k).left = z.left.erase k from rfl, List.length_erase_of_mem h]
  have := List.length_pos_of_mem h
  omega

/-- **A run takes every row that was left, once.** -/
theorem run_perm (rounds : Nat) :
    ∀ {z : ZeroCounts}, z.left.length ≤ rounds → (run lower rounds z).Perm z.left := by
  induction rounds with
  | zero =>
      intro z hlen
      rw [List.length_eq_zero_iff.mp (Nat.le_zero.mp hlen), run]
  | succ rounds ih =>
      intro z hlen
      by_cases hleft : z.left = []
      · rw [run, cheapest?_eq_none hleft, hleft]
      · obtain ⟨k, hk⟩ := cheapest?_eq_some hleft
        have hmem := cheapest?_mem hk
        have htake := length_left_take lower hmem
        have hrest := ih (z := z.take lower k) (by omega)
        rw [run, hk]
        exact (hrest.cons k).trans (List.perm_cons_erase hmem).symm

theorem order_perm (z : ZeroCounts) (lower : Nat → Nat) : (order lower z).Perm z.left :=
  run_perm z.left.length (Nat.le_refl _)

theorem run_add (extra rounds : Nat) :
    ∀ {z : ZeroCounts}, z.left.length ≤ rounds →
      run lower (rounds + extra) z = run lower rounds z := by
  induction rounds with
  | zero =>
      intro z hlen
      have hleft := List.length_eq_zero_iff.mp (Nat.le_zero.mp hlen)
      cases extra with
      | zero => rfl
      | succ extra => simp only [run, cheapest?_eq_none hleft]
  | succ rounds ih =>
      intro z hlen
      rw [Nat.succ_add, run, run]
      cases hk : z.cheapest? with
      | none => rfl
      | some k =>
          have htake := length_left_take lower (cheapest?_mem hk)
          show k :: run lower (rounds + extra) (z.take lower k) = _
          rw [ih (by omega)]

/-- **More rounds than rows take no more rows.** -/
theorem run_eq_order {rounds : Nat} (hrounds : z.left.length ≤ rounds) :
    run lower rounds z = order lower z := by
  obtain ⟨extra, rfl⟩ := Nat.exists_eq_add_of_le hrounds
  exact run_add extra z.left.length (Nat.le_refl _)

end ZeroCounts

end EliminationOrder
