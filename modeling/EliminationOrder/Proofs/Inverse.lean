/-
Lists of positions, and the inverse of an order.

`inverse` writes down positions one after the other, so of several positions of a number the
last one stays (`LastAt`), and a number that does not occur keeps the zero that stood there.
The induction is on what is left to write: a later entry covers an earlier one of the same
number, and nothing else changes.  Only a number with no place in the list breaks it off.

A list whose entries are in range is an order just when that list leads each entry back to
its position: two entries of one number cannot both be led back (`perm_of_leadsBack`).  The
list is then an order itself, and leads back the other way too.
-/
import EliminationOrder.Proofs.Permutation

namespace EliminationOrder.Permutation

variable {n v w k : Nat} {p q vs : List Nat}

/-! ### Last positions -/

/-- `k` is the last position at which `v` stands. -/
def LastAt (p : List Nat) (v k : Nat) : Prop :=
  p[k]? = some v ∧ ∀ j, k < j → p[j]? ≠ some v

theorem lastAt_cons_zero : LastAt (w :: vs) v 0 ↔ w = v ∧ v ∉ vs := by
  unfold LastAt
  rw [List.getElem?_cons_zero, Option.some.injEq, List.mem_iff_getElem?, not_exists]
  refine and_congr_right fun _ => ?_
  constructor
  · intro h j
    exact h (j + 1) (Nat.succ_pos j)
  · intro h j hj
    obtain ⟨j, rfl⟩ := Nat.exists_eq_succ_of_ne_zero (Nat.ne_of_gt hj)
    exact h j

theorem lastAt_cons_succ : LastAt (w :: vs) v (k + 1) ↔ LastAt vs v k := by
  unfold LastAt
  rw [List.getElem?_cons_succ]
  refine and_congr_right fun _ => ?_
  constructor
  · intro h j hj
    exact h (j + 1) (Nat.succ_lt_succ hj)
  · intro h j hj
    obtain ⟨j, rfl⟩ := Nat.exists_eq_succ_of_ne_zero (Nat.ne_of_gt (Nat.zero_lt_of_lt hj))
    exact h j (Nat.lt_of_succ_lt_succ hj)

/-- Whatever stands in a list has a last position there. -/
theorem exists_lastAt (hv : v ∈ p) : ∃ k, LastAt p v k := by
  induction p with
  | nil => exact absurd hv List.not_mem_nil
  | cons w vs ih =>
      by_cases hlater : v ∈ vs
      · obtain ⟨k, hk⟩ := ih hlater
        exact ⟨k + 1, lastAt_cons_succ.mpr hk⟩
      · obtain rfl : v = w := (List.mem_cons.mp hv).resolve_right hlater
        exact ⟨0, lastAt_cons_zero.mpr ⟨rfl, hlater⟩⟩

/-! ### Writing positions down -/

/-- Positions are written in turn: a number is left with its last one, all else as it was. -/
theorem recordPositions_ok (vs : List Nat) :
    ∀ {q : Array Nat} (k : Nat), (∀ v ∈ vs, v < q.size) →
      ∃ q', recordPositions q k vs = .ok q' ∧ q'.size = q.size ∧
        (∀ v, v ∉ vs → q'[v]? = q[v]?) ∧ ∀ v i : Nat, LastAt vs v i → q'[v]? = some (k + i) := by
  induction vs with
  | nil =>
      intro q k _
      exact ⟨q, rfl, rfl, fun _ _ => rfl, fun v i h => absurd h.1 (by simp)⟩
  | cons w vs ih =>
      intro q k hlt
      have hw : w < q.size := hlt w (by simp)
      obtain ⟨q', hrest, hsize, hother, hlast⟩ := ih (q := q.setIfInBounds w k) (k + 1)
        (fun v hv => by rw [Array.size_setIfInBounds]; exact hlt v (by simp [hv]))
      refine ⟨q', ?_, by rw [hsize, Array.size_setIfInBounds], ?_, ?_⟩
      · rw [recordPositions, if_pos hw]
        exact hrest
      · intro v hv
        have hwv : w ≠ v := fun hc => hv (by simp [hc])
        rw [hother v (List.not_mem_of_not_mem_cons hv), Array.getElem?_setIfInBounds_ne hwv]
      · intro v i hi
        cases i with
        | zero =>
            obtain ⟨rfl, hgone⟩ := lastAt_cons_zero.mp hi
            rw [hother w hgone, Array.getElem?_setIfInBounds_self_of_lt hw, Nat.add_zero]
        | succ i =>
            rw [hlast v i (lastAt_cons_succ.mp hi), Nat.add_right_comm, Nat.add_assoc]

/-- A number without a place breaks it off. -/
theorem recordPositions_error (vs : List Nat) :
    ∀ {q : Array Nat} (k : Nat), (∃ v ∈ vs, q.size ≤ v) →
      ∃ v ∈ vs, q.size ≤ v ∧ recordPositions q k vs = .error (.outOfRange v q.size) := by
  induction vs with
  | nil =>
      intro q k h
      obtain ⟨v, hv, -⟩ := h
      exact absurd hv List.not_mem_nil
  | cons w vs ih =>
      intro q k h
      by_cases hw : w < q.size
      · obtain ⟨v, hv, hle⟩ := h
        have hlater : v ∈ vs := by
          refine (List.mem_cons.mp hv).resolve_left ?_
          rintro rfl
          exact Nat.not_le_of_lt hw hle
        obtain ⟨u, hu, hle', herror⟩ := ih (q := q.setIfInBounds w k) (k + 1)
          ⟨v, hlater, by rw [Array.size_setIfInBounds]; exact hle⟩
        rw [Array.size_setIfInBounds] at hle' herror
        refine ⟨u, List.mem_cons_of_mem w hu, hle', ?_⟩
        rw [recordPositions, if_pos hw]
        exact herror
      · exact ⟨w, List.mem_cons_self, Nat.le_of_not_lt hw, by rw [recordPositions, if_neg hw]⟩

/-- **Of a list in range, each number gets its last position**, and zero if it has none. -/
theorem inverse_of_lt (hlt : ∀ v ∈ p, v < p.length) :
    ∃ q, inverse p = .ok q ∧ q.length = p.length ∧ (∀ v k : Nat, LastAt p v k → q[v]? = some k) ∧
      ∀ v < p.length, v ∉ p → q[v]? = some 0 := by
  obtain ⟨q, hrecord, hsize, hother, hlast⟩ := recordPositions_ok p
    (q := Array.replicate p.length 0) 0 (fun v hv => by simpa using hlt v hv)
  refine ⟨q.toList, ?_, by simpa using hsize, ?_, ?_⟩
  · rw [inverse, hrecord]
    rfl
  · intro v k hk
    rw [Array.getElem?_toList, hlast v k hk, Nat.zero_add]
  · intro v hv hnone
    rw [Array.getElem?_toList, hother v hnone, Array.getElem?_replicate, if_pos hv]

/-- **Only a number beyond the list is in the way.** -/
theorem inverse_faults_iff : (∃ f, inverse p = .error (.fault f)) ↔ ∃ v ∈ p, p.length ≤ v := by
  constructor
  · intro h
    obtain ⟨f, hf⟩ := h
    by_contra hnone
    have hlt : ∀ v ∈ p, v < p.length :=
      fun v hv => Nat.lt_of_not_le fun hle => hnone ⟨v, hv, hle⟩
    obtain ⟨q, hok, -⟩ := inverse_of_lt hlt
    exact absurd (hok.symm.trans hf) (by simp)
  · intro h
    obtain ⟨v, -, -, herror⟩ := recordPositions_error p (q := Array.replicate p.length 0) 0
      (by rw [Array.size_replicate]; exact h)
    unfold inverse
    rw [herror]
    exact ⟨_, rfl⟩

/-! ### Back and forth -/

/-- `q` leads each entry of `p` back to the position at which it stands. -/
def LeadsBack (p q : List Nat) : Prop :=
  ∀ k v : Nat, p[k]? = some v → q[v]? = some k

/-- **What can be led back is an order**: two positions of one number would be the same. -/
theorem perm_of_leadsBack (hlt : ∀ v ∈ p, v < p.length) (h : LeadsBack p q) :
    p.Perm (List.range p.length) := by
  have hnodup : p.Nodup := by
    rw [List.nodup_iff_getElem?_ne_getElem?]
    intro i j hij hj heq
    have hi := h i p[j] (heq.trans (List.getElem?_eq_getElem hj))
    have hj' := h j p[j] (List.getElem?_eq_getElem hj)
    exact Nat.ne_of_lt hij (Option.some.inj (hi.symm.trans hj'))
  exact perm_range_of_nodup hnodup hlt rfl

section Order

variable (hp : p.Perm (List.range n))

include hp

theorem exists_getElem?_eq (hv : v < n) : ∃ k < n, p[k]? = some v := by
  obtain ⟨k, hk, rfl⟩ := exists_entry_eq hp hv
  exact ⟨k, hk, getElem?_eq_entry (by rw [length_eq hp]; exact hk)⟩

/-- **The inverse of an order leads back.** -/
theorem inverse_leadsBack : ∃ q, inverse p = .ok q ∧ q.length = n ∧ LeadsBack p q := by
  have hlen := length_eq hp
  obtain ⟨q, hok, hsize, hlast, -⟩ := inverse_of_lt (p := p)
    (fun v hv => by rw [hlen]; exact (mem_iff_lt hp).mp hv)
  refine ⟨q, hok, hsize.trans hlen, ?_⟩
  intro k v hk
  refine hlast v k ⟨hk, ?_⟩
  intro j hj hagain
  have hlt : k < p.length := (List.getElem?_eq_some_iff.mp hk).1
  exact Nat.ne_of_lt hj ((List.getElem?_inj hlt (nodup hp)).mp (hk.trans hagain.symm))

variable (hlen : q.length = n) (h : LeadsBack p q)

include hlen h

/-- What an order is led back by leads back to it. -/
theorem LeadsBack.symm : LeadsBack q p := by
  intro v k hv
  have hlt : v < n := by
    rw [← hlen]
    exact (List.getElem?_eq_some_iff.mp hv).1
  obtain ⟨j, -, hj⟩ := exists_getElem?_eq hp hlt
  obtain rfl : j = k := Option.some.inj ((h j v hj).symm.trans hv)
  exact hj

/-- It is an order too. -/
theorem LeadsBack.perm : q.Perm (List.range n) := by
  have hlt : ∀ k ∈ q, k < q.length := by
    intro k hk
    obtain ⟨v, hv⟩ := List.getElem?_of_mem hk
    have := (List.getElem?_eq_some_iff.mp (h.symm hp hlen v k hv)).1
    rwa [length_eq hp, ← hlen] at this
  have hperm := perm_of_leadsBack hlt (h.symm hp hlen)
  rwa [hlen] at hperm

/-- Nothing else leads an order back but its inverse. -/
theorem LeadsBack.inverse_eq : inverse p = .ok q := by
  obtain ⟨q', hok, hlen', h'⟩ := inverse_leadsBack hp
  rw [hok]
  refine congrArg Except.ok (List.ext_getElem? fun v => ?_)
  by_cases hv : v < n
  · obtain ⟨k, -, hk⟩ := exists_getElem?_eq hp hv
    rw [h k v hk, h' k v hk]
  · rw [List.getElem?_eq_none (by omega), List.getElem?_eq_none (by omega)]

/-- One after the other, an order and its inverse change nothing. -/
theorem LeadsBack.after_eq : after p q = List.range n := by
  have hq := h.perm hp hlen
  refine List.ext_getElem? fun v => ?_
  by_cases hv : v < n
  · have hget := (getElem?_eq_some_entry hq).mpr ⟨hv, rfl⟩
    obtain ⟨-, hback⟩ := (getElem?_eq_some_entry hp).mp (h.symm hp hlen _ _ hget)
    unfold after
    rw [List.getElem?_map, hget, List.getElem?_range hv, Option.map_some, hback]
  · have hrange : (after p q).length = n := length_eq (after_perm hp hq)
    rw [List.getElem?_eq_none (by omega), List.getElem?_eq_none (by simp; omega)]

end Order

/-! ### The check and the inverse -/

/--
**The check accepts orders and nothing else, and an order has an inverse on both sides.**
Any list is inverted unless it names a number beyond its length: what comes out holds the
last position of each number, and zero for a number that does not occur.  The list is an
order just when that leads each entry back to its position; then it is an order too, the
list leads its entries back in turn, and is its inverse.
-/
theorem isPermutation_and_inverse (p : List Nat) :
    (∀ n, isPermutation p n = true ↔ (∀ i < n, p.count i = 1) ∧ ∀ i ∈ p, i < n) ∧
    ((∃ f, inverse p = .error (.fault f)) ↔ ∃ v ∈ p, p.length ≤ v) ∧
    ((∀ v ∈ p, v < p.length) → ∃ q, inverse p = .ok q ∧ q.length = p.length ∧
      (∀ v ∈ p, ∃ k, LastAt p v k ∧ q[v]? = some k) ∧
      (∀ v < p.length, v ∉ p → q[v]? = some 0) ∧
      (isPermutation p p.length = true ↔ LeadsBack p q) ∧
      (isPermutation p p.length = true →
        isPermutation q p.length = true ∧ LeadsBack q p ∧ inverse q = .ok p)) := by
  refine ⟨?_, inverse_faults_iff, ?_⟩
  · intro n
    rw [isPermutation_iff_perm, perm_range_iff_count]
  · intro hlt
    obtain ⟨q, hok, hlen, hlast, hzero⟩ := inverse_of_lt hlt
    have hback : p.Perm (List.range p.length) → LeadsBack p q := by
      intro hp
      obtain ⟨q', hok', -, hback'⟩ := inverse_leadsBack hp
      obtain rfl : q = q' := Except.ok.inj (hok.symm.trans hok')
      exact hback'
    refine ⟨q, hok, hlen, ?_, hzero, ?_, ?_⟩
    · intro v hv
      obtain ⟨k, hk⟩ := exists_lastAt hv
      exact ⟨k, hk, hlast v k hk⟩
    · rw [isPermutation_iff_perm]
      exact ⟨hback, perm_of_leadsBack hlt⟩
    · intro h
      have hp := (isPermutation_iff_perm p p.length).mp h
      have hq := (hback hp).perm hp hlen
      have hforth := (hback hp).symm hp hlen
      exact ⟨(isPermutation_iff_perm q p.length).mpr hq, hforth, hforth.inverse_eq hq rfl⟩

/-- A list that names a number twice still gets its last positions, and an order its inverse. -/
theorem inverse_repeated_and_rotated :
    (∀ v ∈ [2, 0, 2], v < [2, 0, 2].length) ∧ inverse [2, 0, 2] = .ok [1, 0, 2] ∧
      ¬ LeadsBack [2, 0, 2] [1, 0, 2] ∧
      (∀ v ∈ [1, 2, 0], v < [1, 2, 0].length) ∧ isPermutation [1, 2, 0] 3 = true ∧
        inverse [1, 2, 0] = .ok [2, 0, 1] ∧ inverse [2, 0, 1] = .ok [1, 2, 0] := by
  have hlt : ∀ v ∈ [2, 0, 2], v < [2, 0, 2].length := by decide
  have hlt' : ∀ v ∈ [1, 2, 0], v < [1, 2, 0].length := by decide
  have hperm : isPermutation [1, 2, 0] 3 = true := by decide
  have hlast : inverse [2, 0, 2] = .ok [1, 0, 2] := rfl
  have hback : inverse [1, 2, 0] = .ok [2, 0, 1] := rfl
  obtain ⟨-, -, htwice⟩ := isPermutation_and_inverse [2, 0, 2]
  obtain ⟨q, hq, -, -, -, hiff, -⟩ := htwice hlt
  obtain rfl : [1, 0, 2] = q := Except.ok.inj (hlast.symm.trans hq)
  obtain ⟨-, -, honce⟩ := isPermutation_and_inverse [1, 2, 0]
  obtain ⟨r, hr, -, -, -, -, horder⟩ := honce hlt'
  obtain rfl : [2, 0, 1] = r := Except.ok.inj (hback.symm.trans hr)
  obtain ⟨-, -, hagain⟩ := horder hperm
  exact ⟨hlt, hq, fun h => absurd (hiff.mpr h) (by decide), hlt', hperm, hr, hagain⟩

end EliminationOrder.Permutation
