/-
What orders are, and what they do as maps.

`isPermutation` scans a list once and remembers what it has seen.  What it accepts are
the rearrangements of the numbers below the bound: the scan finds the entries different
and in range, and the length leaves no number out.

`entry p` reads an order as a map of all numbers, where numbers beyond it stay where they
are.  So it is injective with no bounds to carry along, and `after p q` is the order that
first one and then the other map makes.
-/
import EliminationOrder.Permutation
import Mathlib.Data.List.Nodup
import Mathlib.Data.List.Perm.Subperm
import Mathlib.Data.List.Range

namespace EliminationOrder.Permutation

variable {n : Nat}

/-! ### Rearrangements of the numbers below a bound -/

section Range

variable {p : List Nat} (hp : p.Perm (List.range n))

include hp

theorem length_eq : p.length = n := by
  simpa using hp.length_eq

theorem nodup : p.Nodup :=
  hp.nodup_iff.mpr List.nodup_range

theorem mem_iff_lt {i : Nat} : i ∈ p ↔ i < n := by
  rw [hp.mem_iff, List.mem_range]

end Range

/-- As many different numbers below a bound as there are leave none out. -/
theorem perm_range_of_nodup {p : List Nat} (hnodup : p.Nodup) (hlt : ∀ i ∈ p, i < n)
    (hlen : p.length = n) : p.Perm (List.range n) := by
  have hsub : p.Subperm (List.range n) :=
    List.subperm_of_subset hnodup fun i hi => List.mem_range.mpr (hlt i hi)
  exact hsub.perm_of_length_le (by simp [hlen])

/-- A rearrangement holds each of the numbers once, and no other. -/
theorem perm_range_iff_count {p : List Nat} : p.Perm (List.range n) ↔
    (∀ i < n, p.count i = 1) ∧ ∀ i ∈ p, i < n := by
  constructor
  · intro h
    exact ⟨fun i hi => List.count_eq_one_of_mem (nodup h) ((mem_iff_lt h).mpr hi),
      fun i hi => (mem_iff_lt h).mp hi⟩
  · intro h
    obtain ⟨hcount, hlt⟩ := h
    rw [List.perm_iff_count]
    intro i
    by_cases hi : i < n
    · rw [hcount i hi, List.count_eq_one_of_mem List.nodup_range (List.mem_range.mpr hi)]
    · rw [List.count_eq_zero_of_not_mem (fun hc => hi (hlt i hc)),
        List.count_eq_zero_of_not_mem (fun hc => hi (List.mem_range.mp hc))]

/-! ### The check -/

/-- The scan passes what is in range, different, and not seen before. -/
theorem allNew_iff (is : List Nat) :
    ∀ {seen : Array Bool}, seen.size = n →
      (allNew n seen is = true ↔ is.Nodup ∧ ∀ i ∈ is, i < n ∧ seen[i]? = some false) := by
  induction is with
  | nil =>
      intro seen _
      simp [allNew]
  | cons i is ih =>
      intro seen hsize
      rw [allNew, Bool.and_eq_true, Bool.and_eq_true, decide_eq_true_eq,
        ih (by simpa using hsize), List.nodup_cons]
      by_cases hi : i < n
      · have hlt : i < seen.size := by rw [hsize]; exact hi
        constructor
        · intro h
          obtain ⟨⟨-, hnew⟩, hnodup, hrest⟩ := h
          refine ⟨⟨?_, hnodup⟩, ?_⟩
          · intro hmem
            have := (hrest i hmem).2
            simp [hlt] at this
          · intro j hj
            rcases List.mem_cons.mp hj with rfl | hj
            · exact ⟨hi, by simpa [hlt] using hnew⟩
            · obtain ⟨hjn, hseen⟩ := hrest j hj
              refine ⟨hjn, ?_⟩
              by_cases hij : i = j
              · subst hij
                simp [hlt] at hseen
              · rwa [Array.getElem?_setIfInBounds_ne hij] at hseen
        · intro h
          obtain ⟨⟨hmem, hnodup⟩, hall⟩ := h
          refine ⟨⟨hi, by simp [(hall i (by simp)).2]⟩, hnodup, ?_⟩
          intro j hj
          have hij : i ≠ j := fun hc => hmem (hc ▸ hj)
          rw [Array.getElem?_setIfInBounds_ne hij]
          exact hall j (by simp [hj])
      · constructor
        · intro h
          exact absurd h.1.1 hi
        · intro h
          exact absurd (h.2 i (by simp)).1 hi

/-- **The check accepts the rearrangements of the numbers below the bound.** -/
theorem isPermutation_iff_perm (p : List Nat) (n : Nat) :
    isPermutation p n = true ↔ p.Perm (List.range n) := by
  rw [isPermutation, Bool.and_eq_true, beq_iff_eq, allNew_iff p (by simp)]
  constructor
  · intro h
    obtain ⟨hlen, hnodup, hall⟩ := h
    exact perm_range_of_nodup hnodup (fun i hi => (hall i hi).1) hlen
  · intro h
    refine ⟨length_eq h, nodup h, ?_⟩
    intro i hi
    have hlt : i < n := (mem_iff_lt h).mp hi
    exact ⟨hlt, by simp [hlt]⟩

theorem isPermutation_eq_false {p : List Nat} (hp : ¬ p.Perm (List.range n)) :
    isPermutation p n = false := by
  rwa [← Bool.not_eq_true, isPermutation_iff_perm]

/-! ### Orders as maps -/

/-- What stands at position `k`; a number beyond the order stands for itself. -/
def entry (p : List Nat) (k : Nat) : Nat :=
  p[k]?.getD k

/-- The entries of `p` in the order `q`: at position `k` stands `p[q[k]]`. -/
def after (p q : List Nat) : List Nat :=
  q.map (entry p)

theorem entry_eq_self {p : List Nat} {k : Nat} (hk : p.length ≤ k) : entry p k = k := by
  unfold entry
  rw [List.getElem?_eq_none hk]
  rfl

theorem getElem?_eq_entry {p : List Nat} {k : Nat} (hk : k < p.length) :
    p[k]? = some (entry p k) := by
  unfold entry
  rw [List.getElem?_eq_getElem hk]
  rfl

/-- In its natural order, `p` is as it is. -/
theorem after_range (p : List Nat) : after p (List.range p.length) = p := by
  refine List.ext_getElem? fun k => ?_
  by_cases hk : k < p.length
  · rw [after, List.getElem?_map, List.getElem?_range hk, getElem?_eq_entry hk]
    rfl
  · have hlen : (after p (List.range p.length)).length = p.length := by simp [after]
    rw [List.getElem?_eq_none (Nat.not_lt.mp hk), List.getElem?_eq_none (by omega)]

theorem entry_range (n k : Nat) : entry (List.range n) k = k := by
  by_cases hk : k < n
  · unfold entry
    rw [List.getElem?_range hk]
    rfl
  · exact entry_eq_self (by rw [List.length_range]; exact Nat.le_of_not_lt hk)

section Order

variable {p : List Nat} (hp : p.Perm (List.range n))

include hp

theorem entry_lt {k : Nat} (hk : k < n) : entry p k < n := by
  have hget := getElem?_eq_entry (p := p) (k := k) (by rw [length_eq hp]; exact hk)
  exact (mem_iff_lt hp).mp (List.mem_of_getElem? hget)

theorem getElem?_eq_some_entry {k i : Nat} : p[k]? = some i ↔ k < n ∧ entry p k = i := by
  rw [← length_eq hp]
  constructor
  · intro h
    have hk : k < p.length := (List.getElem?_eq_some_iff.mp h).1
    exact ⟨hk, Option.some.inj ((getElem?_eq_entry hk).symm.trans h)⟩
  · intro h
    obtain ⟨hk, rfl⟩ := h
    exact getElem?_eq_entry hk

/-- Only numbers below the bound are moved, and they stay below it. -/
theorem entry_lt_iff {k : Nat} : entry p k < n ↔ k < n := by
  constructor
  · intro h
    by_contra hk
    rw [entry_eq_self (by rw [length_eq hp]; omega)] at h
    exact hk h
  · exact entry_lt hp

/-- **Different positions hold different entries.** -/
theorem entry_injective : Function.Injective (entry p) := by
  have hlen := length_eq hp
  have hinside : ∀ {k l : Nat}, k < n → entry p k = entry p l → k = l := by
    intro k l hk heq
    by_cases hl : l < n
    · refine (List.getElem?_inj (show k < p.length by omega) (nodup hp)).mp ?_
      rw [getElem?_eq_entry (by omega), getElem?_eq_entry (by omega), heq]
    · -- An entry is in range, and a number beyond the order is not.
      have hlt := entry_lt hp hk
      rw [heq, entry_lt_iff hp] at hlt
      exact absurd hlt hl
  intro k l heq
  by_cases hk : k < n
  · exact hinside hk heq
  by_cases hl : l < n
  · exact (hinside hl heq.symm).symm
  · rwa [entry_eq_self (by omega), entry_eq_self (by omega)] at heq

/-- Every number below the bound stands somewhere. -/
theorem exists_entry_eq {i : Nat} (hi : i < n) : ∃ k < n, entry p k = i := by
  obtain ⟨k, hk⟩ := List.mem_iff_getElem?.mp ((mem_iff_lt hp).mpr hi)
  have hlt : k < p.length := (List.getElem?_eq_some_iff.mp hk).1
  refine ⟨k, by rwa [length_eq hp] at hlt, ?_⟩
  rw [getElem?_eq_entry hlt] at hk
  exact Option.some.inj hk

/-- One order after another is an order. -/
theorem after_perm {q : List Nat} (hq : q.Perm (List.range n)) :
    (after p q).Perm (List.range n) := by
  have hmap : (after p q).Perm (after p (List.range n)) := hq.map (entry p)
  rw [← length_eq hp, after_range] at hmap
  exact hmap.trans hp

/-- After one order, the other is looked up at what the first one says. -/
theorem entry_after {q : List Nat} (hq : q.Perm (List.range n)) (k : Nat) :
    entry (after p q) k = entry p (entry q k) := by
  by_cases hk : k < n
  · have hget := getElem?_eq_entry (p := q) (k := k) (by rw [length_eq hq]; exact hk)
    unfold after
    rw [entry, List.getElem?_map, hget]
    rfl
  · -- Beyond the orders all three leave a number as it is.
    have hle : n ≤ k := Nat.le_of_not_lt hk
    have hself : ∀ {r : List Nat}, r.Perm (List.range n) → entry r k = k :=
      fun hr => entry_eq_self (by rw [length_eq hr]; exact hle)
    rw [hself (after_perm hp hq), hself hq, hself hp]

end Order

end EliminationOrder.Permutation
