/-
What the orderings by zero counts choose.

Counts are lowered again and again while rows are taken, but where the count of a column
stands at any time is no matter of history.  It is the number of its zeros, lowered once
for each row taken that is not zero there (`countAfter`); no order of the rows shows in it.

`Taken rows z` says that `z` is what is left after the rows of a list, with the counts in
this form.  It holds at first with no rows taken (`exists_taken`) and one step takes one
row more (`Taken.take`).  A score is then a sum over closed forms (`Taken.score_eq`), the
scan for the cheapest row finds the first that is least in these sums
(`Taken.cheapest?_eq`), and by induction on its rounds so does a whole run
(`cheapest_of_run`).  All of this is said for any way to lower a count.
-/
import EliminationOrder.Proofs.Ordering.Greedy
import EliminationOrder.Proofs.Ordering.ZeroCounts
import Mathlib.Algebra.BigOperators.Group.List.Basic

namespace EliminationOrder

namespace ZeroCounts

variable {α : Type} [Entry α] {a : StoredMatrix α} {lower : Nat → Nat} {z : ZeroCounts}
  {taken : List Nat} {j k : Nat}

/-! ### Counts in closed form -/

/-- The count of column `c` after some rows have been taken. -/
def countAfter (lower : Nat → Nat) (a : StoredMatrix α) (taken : List Nat) (c : Nat) : Nat :=
  lower^[a.touched taken c] (a.zerosIn c)

/-- The score of row `k` after some rows have been taken. -/
def scoreAfter (lower : Nat → Nat) (a : StoredMatrix α) (taken : List Nat) (k : Nat) : Nat :=
  ((a.nonzeroColumns k).map (countAfter lower a taken)).sum

/-- Row `k` has the least score of the rows that have not been taken, and is the first such. -/
structure Cheapest (lower : Nat → Nat) (a : StoredMatrix α) (taken : List Nat) (k : Nat) :
    Prop where
  lt : k < a.nrows
  not_mem : k ∉ taken
  least : ∀ j < a.nrows, j ∉ taken →
    scoreAfter lower a taken k ≤ scoreAfter lower a taken j ∧
      (j < k → scoreAfter lower a taken k < scoreAfter lower a taken j)

/-- One more row lowers the counts of its columns once more. -/
theorem countAfter_concat (taken : List Nat) (k c : Nat) :
    countAfter lower a (taken ++ [k]) c
      = if a.Nonzero k c then lower (countAfter lower a taken c)
        else countAfter lower a taken c := by
  unfold countAfter StoredMatrix.touched
  rw [List.countP_append, List.countP_singleton]
  by_cases h : a.Nonzero k c
  · rw [if_pos (by simpa using h), if_pos h, Function.iterate_succ_apply']
  · rw [if_neg (by simpa using h), if_neg h, Nat.add_zero]

/-! ### What is left after some rows -/

/-- The state in which the rows of a list have been taken. -/
structure Taken (lower : Nat → Nat) (a : StoredMatrix α) (taken : List Nat) (z : ZeroCounts) :
    Prop where
  row : ∀ k < a.nrows, z.row k = a.nonzeroColumns k
  left : z.left = (List.range a.nrows).filter fun k => k ∉ taken
  counts : ∀ c < a.ncols, z.counts[c]? = some (countAfter lower a taken c)

theorem Taken.mem_left (h : Taken lower a taken z) : k ∈ z.left ↔ k < a.nrows ∧ k ∉ taken := by
  rw [h.left, List.mem_filter, List.mem_range, decide_eq_true_eq]

/-- Before any row is taken the counts are those of the zeros. -/
theorem exists_taken (lower : Nat → Nat) (a : StoredMatrix α) :
    ∃ z, ofMatrix a = .ok z ∧ Taken lower a [] z := by
  obtain ⟨z, hz, hleft, hrow, hcounts⟩ := ofMatrix_counts a
  refine ⟨z, hz, hrow, ?_, hcounts⟩
  rw [hleft]
  exact (List.filter_eq_self.mpr fun k _ => by simp).symm

theorem getElem?_foldl_modify (lower : Nat → Nat) (c : Nat) (cs : List Nat) :
    ∀ {counts : Array Nat}, cs.Nodup →
      (cs.foldl (fun counts c => counts.modify c lower) counts)[c]?
        = if c ∈ cs then counts[c]?.map lower else counts[c]? := by
  induction cs with
  | nil =>
      intro counts _
      rfl
  | cons d cs ih =>
      intro counts hnodup
      obtain ⟨hd, hnodup'⟩ := List.nodup_cons.mp hnodup
      rw [List.foldl_cons, ih hnodup', Array.getElem?_modify]
      by_cases hcd : d = c
      · subst hcd
        simp [hd]
      · have hdc : c ≠ d := fun hc => hcd hc.symm
        simp [hcd, hdc]

/-- **Taking a row that is left takes one row more.** -/
theorem Taken.take (h : Taken lower a taken z) (hk : k ∈ z.left) :
    Taken lower a (taken ++ [k]) (z.take lower k) := by
  have hrow := h.row k (h.mem_left.mp hk).1
  refine ⟨h.row, ?_, ?_⟩
  · have hnodup : z.left.Nodup := by
      rw [h.left]
      exact List.nodup_range.filter _
    rw [show (z.take lower k).left = z.left.erase k from rfl, hnodup.erase_eq_filter, h.left,
      List.filter_filter]
    refine List.filter_congr fun j _ => ?_
    rw [Bool.eq_iff_iff]
    simp [and_comm]
  · intro c hc
    have hcounts : (z.take lower k).counts
        = (a.nonzeroColumns k).foldl (fun counts c => counts.modify c lower) z.counts := by
      rw [← hrow]
      rfl
    rw [hcounts, getElem?_foldl_modify lower c _ (a.nodup_nonzeroColumns k), h.counts c hc,
      countAfter_concat]
    by_cases hkc : a.Nonzero k c
    · rw [if_pos (StoredMatrix.mem_nonzeroColumns.mpr hkc), if_pos hkc]
      rfl
    · have hnot : c ∉ a.nonzeroColumns k := fun hc => hkc (StoredMatrix.mem_nonzeroColumns.mp hc)
      rw [if_neg hnot, if_neg hkc]

theorem Taken.score_eq (h : Taken lower a taken z) (hk : k < a.nrows) :
    z.score k = scoreAfter lower a taken k := by
  have hsum : ∀ cs : List Nat, (∀ c ∈ cs, c < a.ncols) →
      cs.foldr (fun c sum => z.counts[c]?.getD 0 + sum) 0
        = (cs.map (countAfter lower a taken)).sum := by
    intro cs
    induction cs with
    | nil => intro _; rfl
    | cons c cs ih =>
        intro hlt
        rw [List.foldr_cons, ih fun d hd => hlt d (by simp [hd]), h.counts c (hlt c (by simp)),
          List.map_cons, List.sum_cons, Option.getD_some]
  rw [score, h.row k hk, scoreAfter]
  exact hsum _ fun c hc => (StoredMatrix.mem_nonzeroColumns.mp hc).2.1

/-! ### Runs -/

/-- **The scan finds the first row that is least.** -/
theorem Taken.cheapest?_eq (h : Taken lower a taken z) (hk : z.cheapest? = some k) :
    Cheapest lower a taken k := by
  have hmem := cheapest?_mem hk
  have hascending : z.left.Pairwise (· < ·) := by
    rw [h.left]
    exact List.pairwise_lt_range.filter _
  obtain ⟨m, -, hm, hleast⟩ := minOn?_first hascending (List.ne_nil_of_mem hmem)
  obtain rfl : m = k := Option.some.inj (hm.symm.trans hk)
  obtain ⟨hlt, hnot⟩ := h.mem_left.mp hmem
  refine ⟨hlt, hnot, ?_⟩
  intro j hj hjnot
  rw [← h.score_eq hlt, ← h.score_eq hj]
  exact hleast j (h.mem_left.mpr ⟨hj, hjnot⟩)

/-- **A run takes a cheapest row at every step**, after those it has taken before. -/
theorem cheapest_of_run (rounds : Nat) :
    ∀ {taken : List Nat} {z : ZeroCounts}, Taken lower a taken z → ∀ {t k : Nat},
      (run lower rounds z)[t]? = some k →
        Cheapest lower a (taken ++ (run lower rounds z).take t) k := by
  induction rounds with
  | zero =>
      intro taken z _ t k hk
      simp [run] at hk
  | succ rounds ih =>
      intro taken z h t k hk
      rw [run] at hk ⊢
      cases hfirst : z.cheapest? with
      | none => simp [hfirst] at hk
      | some first =>
          simp only [hfirst] at hk ⊢
          cases t with
          | zero =>
              obtain rfl : first = k := by simpa using hk
              simpa using h.cheapest?_eq hfirst
          | succ t =>
              rw [List.getElem?_cons_succ] at hk
              have hrest := ih (h.take (cheapest?_mem hfirst)) hk
              simpa using hrest

/-- **An order takes all rows, and a cheapest one at every step.** -/
theorem order_cheapest (lower : Nat → Nat) (a : StoredMatrix α) :
    ∃ z, ofMatrix a = .ok z ∧ (order lower z).Perm (List.range a.nrows) ∧
      ∀ t k, (order lower z)[t]? = some k →
        Cheapest lower a ((order lower z).take t) k := by
  obtain ⟨z, hz, htaken⟩ := exists_taken lower a
  have hleft : z.left = List.range a.nrows := by
    rw [htaken.left]
    exact List.filter_eq_self.mpr fun k _ => by simp
  refine ⟨z, hz, ?_, fun t k hk => cheapest_of_run z.left.length htaken hk⟩
  rw [← hleft]
  exact order_perm z lower

end ZeroCounts

/-! ### Estimated fill -/

namespace StoredMatrix

variable {α : Type} [Entry α]

/-- The fill estimated for row `k` after some rows: zeros, halved once for each row that meets them. -/
def estimate (a : StoredMatrix α) (taken : List Nat) (k : Nat) : Nat :=
  ((a.nonzeroColumns k).map fun c => a.zerosIn c / 2 ^ a.touched taken c).sum

end StoredMatrix

namespace ZeroCounts

variable {α : Type} [Entry α] {a : StoredMatrix α}

/-- **Halving step by step is one division by a power of two.** -/
theorem iterate_half (m x : Nat) : (· / 2)^[m] x = x / 2 ^ m := by
  induction m with
  | zero => simp
  | succ m ih => rw [Function.iterate_succ_apply', ih, Nat.div_div_eq_div_mul, Nat.pow_succ]

theorem scoreAfter_half (a : StoredMatrix α) (taken : List Nat) (k : Nat) :
    scoreAfter (· / 2) a taken k = a.estimate taken k := by
  unfold scoreAfter StoredMatrix.estimate
  congr 1
  refine List.map_congr_left fun c _ => ?_
  rw [countAfter, iterate_half]

end ZeroCounts

/--
**Estimated fill takes the row with the least estimate.**  A column of a square matrix has
at most as many entries as there are rows, so its zeros can be counted down.  The order
takes every row once.  Each row that it takes has the least estimate of those not taken
before it, where every column counts with its zeros, halved for each earlier row that is
not zero there and rounded down; of several such rows it is the first.
-/
theorem approximateFill_takes_least_estimate {α : Type} [Entry α] {a : StoredMatrix α}
    (hsquare : a.nrows = a.ncols) :
    (∀ c, a.zerosIn c + a.touched (List.range a.nrows) c = a.nrows) ∧
      ∃ p, approximateFill a = .ok p ∧ p.Perm (List.range a.nrows) ∧
        ∀ t k, p[t]? = some k → k ∉ p.take t ∧
          ∀ j < a.nrows, j ∉ p.take t →
            a.estimate (p.take t) k ≤ a.estimate (p.take t) j ∧
              (j < k → a.estimate (p.take t) k < a.estimate (p.take t) j) := by
  constructor
  · intro c
    exact Nat.sub_add_cancel (a.touched_range_le c)
  obtain ⟨z, hz, hperm, hsteps⟩ := ZeroCounts.order_cheapest (· / 2) a
  refine ⟨z.order (· / 2), ?_, hperm, ?_⟩
  · rw [approximateFill, requireSquare, if_pos hsquare, Outcome.ok_bind, hz]
    rfl
  · intro t k hk
    have hcheapest := hsteps t k hk
    refine ⟨hcheapest.not_mem, ?_⟩
    intro j hj hjnot
    rw [← ZeroCounts.scoreAfter_half, ← ZeroCounts.scoreAfter_half]
    exact hcheapest.least j hj hjnot

/-- Three rows, the last two of one pattern; the columns have two zeros, none and one. -/
def threeRows : StoredMatrix UInt8 :=
  .dense ⟨3, 3, #[1, 0, 0, 1, 1, 1, 0, 1, 1], rfl⟩

/-- Taking the second row halves the one zero of the third away. -/
theorem approximateFill_takes_least_estimate_threeRows :
    threeRows.nrows = threeRows.ncols ∧ approximateFill threeRows = .ok [1, 2, 0] ∧
      threeRows.estimate [] 2 = 1 ∧ threeRows.estimate [1] 2 = 0 ∧
      (0 < threeRows.nrows ∧ 0 ∉ [1] ∧ threeRows.estimate [1] 2 < threeRows.estimate [1] 0) := by
  have hsquare : threeRows.nrows = threeRows.ncols := rfl
  have hok : approximateFill threeRows = .ok [1, 2, 0] := by rfl
  obtain ⟨-, p, horder, -, hleast⟩ := approximateFill_takes_least_estimate hsquare
  rw [hok, Except.ok.injEq] at horder
  subst horder
  obtain ⟨-, hsecond⟩ := hleast 1 2 rfl
  have hlt : 0 < threeRows.nrows := by decide
  have hnot : 0 ∉ [1] := by decide
  have hmore := (hsecond 0 hlt hnot).2 (by decide)
  exact ⟨hsquare, hok, by decide, by decide, hlt, hnot, hmore⟩

end EliminationOrder
