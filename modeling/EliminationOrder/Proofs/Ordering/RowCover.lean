/-
What greedy rows choose.

Taking a row sets the counts of its columns to zero, so a column counts with its zeros until
the first row that is not zero there is taken, and not at all from then on.  The score of a
row is therefore the number of zeros in those of its columns that no row taken before covers
(`scoreAfter_zero`), and a row of least such score goes next.

A row whose columns are all covered scores nothing.  As long as there is one, only rows that
score nothing are taken, and they change no count: what they would set to zero is zero
already (`countAfter_concat_of_score_eq_zero`).  So scores stand still until the row itself is
taken (`TakesCheapest.countAfter_take`), and no row with a positive score comes before it.
That much holds for every way to lower a count that leaves zero alone.
-/
import EliminationOrder.Proofs.Ordering.ZeroCountRule

namespace EliminationOrder

namespace ZeroCounts

variable {α : Type} [Entry α] {a : StoredMatrix α} {lower : Nat → Nat} {taken p : List Nat}
  {j k t : Nat}

/-! ### Rows that score nothing -/

/-- **Taking a row that scores nothing changes no count.** -/
theorem countAfter_concat_of_score_eq_zero (hlower : lower 0 = 0)
    (hscore : scoreAfter lower a taken k = 0) :
    countAfter lower a (taken ++ [k]) = countAfter lower a taken := by
  funext c
  rw [countAfter_concat]
  by_cases hkc : a.Nonzero k c
  · have hmem : countAfter lower a taken c ∈ (a.nonzeroColumns k).map (countAfter lower a taken) :=
      List.mem_map.mpr ⟨c, StoredMatrix.mem_nonzeroColumns.mpr hkc, rfl⟩
    have hcount : countAfter lower a taken c = 0 :=
      List.sum_eq_zero_iff_forall_eq_nat.mp hscore _ hmem
    rw [if_pos hkc, hcount, hlower]
  · rw [if_neg hkc]

/-- Every row of an order is a cheapest one after those before it. -/
def TakesCheapest (lower : Nat → Nat) (a : StoredMatrix α) (p : List Nat) : Prop :=
  ∀ t k, p[t]? = some k → Cheapest lower a (p.take t) k

namespace TakesCheapest

variable (h : TakesCheapest lower a p) (hlower : lower 0 = 0) (hk : k < a.nrows)
  (hscore : scoreAfter lower a (p.take t) k = 0)

include h hlower hk hscore

/-- Until a row that scores nothing is taken, no count changes. -/
theorem countAfter_take (s : Nat) : k ∉ p.take (t + s) → t + s ≤ p.length →
    countAfter lower a (p.take (t + s)) = countAfter lower a (p.take t) := by
  induction s with
  | zero => exact fun _ _ => rfl
  | succ s ih =>
      intro hleft hlen
      have hlt : t + s < p.length := by omega
      rw [← Nat.add_assoc, List.take_succ_eq_append_getElem hlt] at hleft ⊢
      have hbefore : k ∉ p.take (t + s) := fun hc => hleft (List.mem_append_left _ hc)
      have hsame := ih hbefore (by omega)
      have hzero : scoreAfter lower a (p.take (t + s)) k = 0 := by
        rw [scoreAfter, hsame]
        exact hscore
      -- The row taken next costs no more than the one that is left.
      have hnext := h _ _ (List.getElem?_eq_getElem hlt)
      have hnone : scoreAfter lower a (p.take (t + s)) p[t + s] = 0 := by
        have := (hnext.least k hk hbefore).1
        omega
      rw [countAfter_concat_of_score_eq_zero hlower hnone, hsame]

/-- **A row that scores nothing comes before every row with a positive score.** -/
theorem idxOf_lt (hj : j ∈ p) (hjleft : j ∉ p.take t)
    (hpos : 0 < scoreAfter lower a (p.take t) j) : p.idxOf k < p.idxOf j := by
  by_contra hc
  have hlt : p.idxOf j < p.length := List.idxOf_lt_length_iff.mpr hj
  have hle : t ≤ p.idxOf j := by
    by_contra hgt
    exact hjleft ((List.mem_take_iff_idxOf_lt hj).mpr (by omega))
  obtain ⟨s, hs⟩ := Nat.exists_eq_add_of_le hle
  have hkleft : k ∉ p.take (t + s) := by
    intro hmem
    have := (List.mem_take_iff_idxOf_lt (List.mem_of_mem_take hmem)).mp hmem
    omega
  have hsame := countAfter_take h hlower hk hscore s hkleft (by omega)
  have hj' : p[t + s]? = some j := by
    rw [← hs, List.getElem?_eq_getElem hlt, List.getElem_idxOf hlt]
  have hjk : scoreAfter lower a (p.take t) j ≤ scoreAfter lower a (p.take t) k := by
    rw [scoreAfter, scoreAfter, ← hsame]
    exact ((h _ _ hj').least k hk hkleft).1
  omega

end TakesCheapest

end ZeroCounts

/-! ### Covered columns -/

namespace StoredMatrix

variable {α : Type} [Entry α]

/-- The zeros in those columns of row `k` in which all the given rows are zero. -/
def uncoveredZeros (a : StoredMatrix α) (rows : List Nat) (k : Nat) : Nat :=
  (((a.nonzeroColumns k).filter fun c => ∀ i ∈ rows, ¬ a.Nonzero i c).map a.zerosIn).sum

/-- A row with no column left uncovered scores nothing. -/
theorem uncoveredZeros_eq_zero {a : StoredMatrix α} {rows : List Nat} {k : Nat}
    (h : ∀ c, a.Nonzero k c → ∃ i ∈ rows, a.Nonzero i c) : a.uncoveredZeros rows k = 0 := by
  have hnone : ((a.nonzeroColumns k).filter fun c => ∀ i ∈ rows, ¬ a.Nonzero i c) = [] := by
    refine List.filter_eq_nil_iff.mpr fun c hc huncovered => ?_
    obtain ⟨i, hi, hic⟩ := h c (mem_nonzeroColumns.mp hc)
    exact of_decide_eq_true huncovered i hi hic
  rw [uncoveredZeros, hnone]
  rfl

end StoredMatrix

namespace ZeroCounts

variable {α : Type} [Entry α] {a : StoredMatrix α}

/-- A column counts with its zeros until one of the rows taken covers it. -/
theorem countAfter_zero (taken : List Nat) (c : Nat) :
    countAfter (fun _ => 0) a taken c
      = if ∀ i ∈ taken, ¬ a.Nonzero i c then a.zerosIn c else 0 := by
  have htouched : a.touched taken c = 0 ↔ ∀ i ∈ taken, ¬ a.Nonzero i c := by
    simp [StoredMatrix.touched, List.countP_eq_zero]
  unfold countAfter
  by_cases h : ∀ i ∈ taken, ¬ a.Nonzero i c
  · rw [if_pos h, htouched.mpr h]
    rfl
  · rw [if_neg h]
    obtain ⟨m, hm⟩ := Nat.exists_eq_succ_of_ne_zero (mt htouched.mp h)
    rw [hm, Function.iterate_succ_apply']

theorem scoreAfter_zero (a : StoredMatrix α) (taken : List Nat) (k : Nat) :
    scoreAfter (fun _ => 0) a taken k = a.uncoveredZeros taken k := by
  have hsum : ∀ cs : List Nat, (cs.map (countAfter (fun _ => 0) a taken)).sum
      = ((cs.filter fun c => ∀ i ∈ taken, ¬ a.Nonzero i c).map a.zerosIn).sum := by
    intro cs
    induction cs with
    | nil => rfl
    | cons c cs ih =>
        rw [List.map_cons, List.sum_cons, ih, countAfter_zero, List.filter_cons]
        by_cases h : ∀ i ∈ taken, ¬ a.Nonzero i c
        · rw [if_pos h, if_pos (decide_eq_true h), List.map_cons, List.sum_cons]
        · rw [if_neg h, if_neg (by simpa using h), Nat.zero_add]
  exact hsum (a.nonzeroColumns k)

end ZeroCounts

/--
**Greedy rows take the row with the fewest uncovered zeros.**  The zeros of a column are the
rows less those that are not zero there, in a matrix of any shape.  The order takes every row
once.  Each row that it takes has the fewest zeros in the columns that no row before it
covers, among the rows not taken before it; of several such rows it is the first.  A row
whose columns are all covered by rows that have been taken comes before every row left that
still has zeros to count.
-/
theorem greedyRow_takes_fewest_uncoveredZeros {α : Type} [Entry α] (a : StoredMatrix α) :
    (∀ c, a.zerosIn c + a.touched (List.range a.nrows) c = a.nrows) ∧
      ∃ p, greedyRow a = .ok p ∧ p.Perm (List.range a.nrows) ∧
        (∀ t k, p[t]? = some k → k ∉ p.take t ∧
          ∀ j < a.nrows, j ∉ p.take t →
            a.uncoveredZeros (p.take t) k ≤ a.uncoveredZeros (p.take t) j ∧
              (j < k → a.uncoveredZeros (p.take t) k < a.uncoveredZeros (p.take t) j)) ∧
        ∀ t k j, k < a.nrows → (∀ c, a.Nonzero k c → ∃ i ∈ p.take t, a.Nonzero i c) →
          j < a.nrows → j ∉ p.take t → 0 < a.uncoveredZeros (p.take t) j →
            p.idxOf k < p.idxOf j := by
  constructor
  · intro c
    exact Nat.sub_add_cancel (a.touched_range_le c)
  obtain ⟨z, hz, hperm, hsteps⟩ := ZeroCounts.order_cheapest (fun _ => 0) a
  refine ⟨z.order fun _ => 0, ?_, hperm, ?_, ?_⟩
  · rw [greedyRow, hz]
    rfl
  · intro t k hk
    have hcheapest := hsteps t k hk
    refine ⟨hcheapest.not_mem, ?_⟩
    intro j hj hjleft
    rw [← ZeroCounts.scoreAfter_zero, ← ZeroCounts.scoreAfter_zero]
    exact hcheapest.least j hj hjleft
  · intro t k j hk hcovered hj hjleft hpos
    have hscore := StoredMatrix.uncoveredZeros_eq_zero hcovered
    rw [← ZeroCounts.scoreAfter_zero] at hscore hpos
    have hmem : j ∈ z.order fun _ => 0 := hperm.mem_iff.mpr (List.mem_range.mpr hj)
    exact ZeroCounts.TakesCheapest.idxOf_lt hsteps rfl hk hscore hmem hjleft hpos

/-- Five rows over three columns: the first column, all of them, none, the last, the last two. -/
def fiveOverThree : StoredMatrix UInt8 :=
  .dense ⟨5, 3, #[1, 1, 0, 0, 0, 0, 1, 0, 0, 1, 0, 1, 0, 1, 1], rfl⟩

/-- The empty row goes first; once the second row is taken, the last has no column uncovered. -/
theorem greedyRow_takes_fewest_uncoveredZeros_fiveOverThree :
    greedyRow fiveOverThree = .ok [2, 3, 0, 1, 4] ∧
      fiveOverThree.uncoveredZeros [] 3 = 2 ∧ fiveOverThree.uncoveredZeros [2, 3] 1 = 6 ∧
      (0 ∉ [2, 3] ∧ 1 ∉ [2, 3] ∧
        fiveOverThree.uncoveredZeros [2, 3] 0 ≤ fiveOverThree.uncoveredZeros [2, 3] 1) := by
  have hok : greedyRow fiveOverThree = .ok [2, 3, 0, 1, 4] := by rfl
  obtain ⟨-, p, horder, -, hleast, -⟩ := greedyRow_takes_fewest_uncoveredZeros fiveOverThree
  rw [hok, Except.ok.injEq] at horder
  subst horder
  obtain ⟨hnot, hthird⟩ := hleast 2 0 rfl
  have hleft : 1 ∉ [2, 3] := by decide
  exact ⟨hok, by decide, by decide, hnot, hleft, (hthird 1 (by decide) hleft).1⟩

end EliminationOrder
