/-
Digits and the numbers they write.

A run of digits is read from the left.  What is read first counts for as many places as
follow, so two runs one after the other write the first number, moved over, plus the
second (`number_append`).

The numeral of a number is the run that reads back as it (`number_numeral`).  It is no
longer than it has to be: the number is at least the power of ten of its first place
(`pow_le_of_numeral`), so the first digit is zero only for zero itself.
-/
import Mathlib
import EliminationOrder.Decimal.Digits

namespace EliminationOrder.Decimal

variable {c d : Char} {ds es : List Char} {n : Nat}

/-! ### Classes of characters -/

section Classes

variable {p : Char → Bool}

/-- A character of a class is none outside it. -/
theorem ne_of_class (hc : p c = true) (hd : p d = false) : c ≠ d := by
  rintro rfl
  rw [hc] at hd
  cases hd

/-- A text of characters of a class has none outside it. -/
theorem not_mem_of_class (hs : ∀ c ∈ ds, p c = true) (hd : p d = false) : d ∉ ds :=
  fun hmem => ne_of_class (hs d hmem) hd rfl

end Classes

/-! ### Digits -/

theorem isDigit_iff : isDigit c = true ↔ 48 ≤ c.toNat ∧ c.toNat ≤ 57 := by
  rw [isDigit, Bool.and_eq_true, decide_eq_true_iff, decide_eq_true_iff]
  exact Iff.rfl

theorem digitValue?_of_isDigit (h : isDigit c = true) : digitValue? c = some (c.toNat - 48) := by
  rw [isDigit, Bool.and_eq_true, decide_eq_true_iff, decide_eq_true_iff] at h
  exact if_pos h

/-! ### Runs of digits -/

theorem foldl_number (base : Nat) (ds : List Char) (n : Nat) :
    ds.foldl (fun n c => base * n + (digitValue? c).getD 0) n
      = n * base ^ ds.length + number base ds := by
  induction ds generalizing n with
  | nil => simp [number]
  | cons c ds ih =>
      rw [number, List.foldl_cons, List.foldl_cons, ih, ih, List.length_cons, pow_succ]
      ring

/-- **Two runs write the first number, moved over by the places that follow, and the second.** -/
theorem number_append (ds es : List Char) :
    number 10 (ds ++ es) = number 10 ds * 10 ^ es.length + number 10 es := by
  rw [number, List.foldl_append, foldl_number]
  rfl

@[simp] theorem number_zeros (k : Nat) : number 10 (List.replicate k '0') = 0 := by
  induction k with
  | zero => rfl
  | succ k ih => rw [List.replicate_succ', number_append, ih]; rfl

/-- A run of digits stays below the next power of ten. -/
theorem number_lt (h : ∀ c ∈ ds, isDigit c = true) : number 10 ds < 10 ^ ds.length := by
  induction ds with
  | nil => simp [number]
  | cons c ds ih =>
      have hrest := ih fun c hc => h c (List.mem_cons_of_mem _ hc)
      have hdigit := h c List.mem_cons_self
      have hle := (isDigit_iff.mp hdigit).2
      have hfirst : number 10 [c] = c.toNat - 48 := by
        simp [number, digitValue?_of_isDigit hdigit]
      have hsplit := number_append [c] ds
      rw [List.singleton_append, hfirst] at hsplit
      rw [hsplit, List.length_cons, pow_succ]
      have : (c.toNat - 48) * 10 ^ ds.length ≤ 9 * 10 ^ ds.length :=
        Nat.mul_le_mul_right _ (by omega)
      omega

/-! ### Numerals -/

theorem numeral_ne_nil (n : Nat) : numeral n ≠ [] :=
  Nat.toDigits_ne_nil

theorem isDigit_of_mem_numeral (h : c ∈ numeral n) : isDigit c = true := by
  have hdigit := Nat.isDigit_of_mem_toDigits (by norm_num) (by norm_num) h
  rw [Char.isDigit, Bool.and_eq_true, decide_eq_true_iff, decide_eq_true_iff] at hdigit
  exact isDigit_iff.mpr hdigit

/-- **The numeral of a number reads back as that number.** -/
theorem number_numeral (n : Nat) : number 10 (numeral n) = n := by
  have hvalues : number 10 (numeral n) = Nat.ofDigitChars 10 (numeral n) 0 := by
    refine List.foldl_ext _ _ _ fun m c hc => ?_
    rw [digitValue?_of_isDigit (isDigit_of_mem_numeral hc)]
    rfl
  rw [hvalues, numeral, Nat.ofDigitChars_toDigits (by norm_num) (by norm_num)]

theorem lt_pow_numeral (n : Nat) : n < 10 ^ (numeral n).length :=
  (Nat.length_toDigits_le_iff (by norm_num) Nat.length_toDigits_pos).mp le_rfl

/-- A number other than zero reaches the power of ten of the first place of its numeral. -/
theorem pow_le_of_numeral (hn : n ≠ 0) : 10 ^ ((numeral n).length - 1) ≤ n := by
  by_cases hone : (numeral n).length - 1 = 0
  · rw [hone]
    omega
  · by_contra hlt
    have := (Nat.length_toDigits_le_iff (by norm_num) (Nat.pos_of_ne_zero hone)).mpr
      (Nat.lt_of_not_le hlt)
    have hpos : 0 < (numeral n).length := Nat.length_toDigits_pos
    rw [numeral] at hpos
    rw [numeral] at this
    omega

/-- **The numeral of a number other than zero does not begin with a zero.** -/
theorem numeral_ne_zero_cons (hn : n ≠ 0) : numeral n ≠ '0' :: ds := by
  intro h
  have hle := pow_le_of_numeral hn
  have hvalue := number_numeral n
  have hdigits : ∀ c ∈ ds, isDigit c = true := fun c hc =>
    isDigit_of_mem_numeral (h ▸ List.mem_cons_of_mem _ hc)
  have hsplit := number_append ['0'] ds
  rw [show number 10 ['0'] = 0 from rfl, List.singleton_append, ← h, hvalue] at hsplit
  rw [h, List.length_cons, Nat.add_sub_cancel] at hle
  have := number_lt hdigits
  omega

end EliminationOrder.Decimal
