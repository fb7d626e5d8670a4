/-
Arithmetic rounds to the nearest number.

The exact result of a product or a quotient is not kept.  What is kept is its whole part in
units of some power of two, and how the rest compares with one half (`Tells`).  Shifting
such a mantissa to a coarser unit keeps it true to the exact result (`Stands.shiftRight`),
so that rounding it takes the nearest whole number of units (`Stands.roundedMantissa_eq`).

Which unit that is depends on the exact result alone.  `Dyadic.Covers` says that a result
lies closer to a number than halfway to its neighbors, and then the unit is the number's
own, or the next finer one, just below a power of two (`Covers.target`).  Either way the
number comes out: `round_of_covers` is all that is needed of rounding.
-/
import EliminationOrder.Decimal.Shortest
import EliminationOrder.Proofs.Ordering.TotalOrder

namespace EliminationOrder.Decimal

open Float.Model Float.Model.UnpackedFloat
open HopDegree (Canonical)

/-! ### Mantissas that stand for more than they hold -/

/-- What an accuracy says of the part of a unit that was cut off. -/
def Tells : Accuracy → ℚ → Prop
  | .exact, f => f = 0
  | .inexact .lt, f => 0 < f ∧ f < 1 / 2
  | .inexact .eq, f => f = 1 / 2
  | .inexact .gt, f => 1 / 2 < f ∧ f < 1

theorem Tells.nonneg {acc : Accuracy} {f : ℚ} (h : Tells acc f) : 0 ≤ f ∧ f < 1 := by
  match acc, h with
  | .exact, h => exact ⟨h.ge, by rw [show f = 0 from h]; norm_num⟩
  | .inexact .lt, h => exact ⟨h.1.le, h.2.trans (by norm_num)⟩
  | .inexact .eq, h => rw [show f = 1 / 2 from h]; norm_num
  | .inexact .gt, h => exact ⟨by linarith [h.1], h.2⟩

/-- The extended mantissa stands for the number `y` of units. -/
def Stands (em : ExtendedMantissa) (y : ℚ) : Prop :=
  Tells em.accuracy (y - em.mantissa)

theorem stands_ofMantissaAndAccuracy {acc : Accuracy} {m : ℕ} {y : ℚ} (h : Tells acc (y - m)) :
    Stands (.ofMantissaAndAccuracy m acc) y := by
  match acc, h with
  | .exact, h => exact h
  | .inexact .lt, h => exact h
  | .inexact .eq, h => exact h
  | .inexact .gt, h => exact h

/-- A unit twice as large halves the number of units; the bit that goes first joins what was cut off. -/
theorem Stands.shiftRightOne {em : ExtendedMantissa} {y : ℚ} (h : Stands em y) :
    Stands em.shiftRightOne (y / 2) := by
  obtain ⟨m, round, sticky⟩ := em
  have hhalf : (m : ℚ) = 2 * (m / 2 : ℕ) + (m % 2 : ℕ) := by exact_mod_cast (Nat.div_add_mod m 2).symm
  obtain ⟨z, rfl⟩ : ∃ z, y = 2 * z := ⟨y / 2, by ring⟩
  rw [mul_div_cancel_left₀ z two_ne_zero]
  unfold Stands ExtendedMantissa.shiftRightOne
  rcases Nat.mod_two_eq_zero_or_one m with hm | hm
  · rw [hm, Nat.cast_zero] at hhalf
    cases round <;> cases sticky <;>
      simp [Stands, Tells, ExtendedMantissa.accuracy, hm] at h ⊢ <;>
      (try constructor) <;> linarith
  · rw [hm, Nat.cast_one] at hhalf
    cases round <;> cases sticky <;>
      simp [Stands, Tells, ExtendedMantissa.accuracy, hm] at h ⊢ <;>
      (try constructor) <;> linarith

theorem Stands.shiftRight {em : ExtendedMantissa} {y : ℚ} (h : Stands em y) (n : ℕ) :
    Stands (em >>> n) (y / 2 ^ n) := by
  show Stands (n.repeat ExtendedMantissa.shiftRightOne em) (y / 2 ^ n)
  induction n with
  | zero => simpa [Nat.repeat] using h
  | succ n ih =>
      rw [Nat.repeat, pow_succ, ← div_div]
      exact ih.shiftRightOne

/-- The whole number nearest to `y` is `n`; a number halfway between two goes to the even one. -/
structure Nearest (n : ℕ) (y : ℚ) : Prop where
  ge : (n : ℚ) - 1 / 2 ≤ y
  le : y ≤ n + 1 / 2
  even : n % 2 = 1 → (n : ℚ) - 1 / 2 < y ∧ y < n + 1 / 2

/-- **Rounding a mantissa gives the nearest whole number of units.** -/
theorem Stands.roundedMantissa_eq {em : ExtendedMantissa} {y : ℚ} {n : ℕ} (h : Stands em y)
    (hn : Nearest n y) : em.roundedMantissa = n := by
  obtain ⟨m, round, sticky⟩ := em
  obtain ⟨hge, hle, heven⟩ := hn
  have hlt : ∀ {a b : ℕ}, (a : ℚ) < b + 1 → a ≤ b := by
    intro a b hab
    have : a < b + 1 := by exact_mod_cast hab
    omega
  cases round with
  | false =>
      -- Less than half a unit was cut off.
      have hbounds : (m : ℚ) ≤ y ∧ y < m + 1 / 2 := by
        cases sticky <;> simp [Stands, Tells, ExtendedMantissa.accuracy] at h <;> grind
      have hnm : n ≤ m := hlt (by linarith [hbounds.2])
      have hmn : m ≤ n := hlt (by linarith [hbounds.1])
      cases sticky <;> exact Nat.le_antisymm hmn hnm
  | true =>
      cases sticky with
      | false =>
          have hy : y = m + 1 / 2 := by
            simp [Stands, Tells, ExtendedMantissa.accuracy] at h
            linarith
          have hnm : n ≤ m + 1 := hlt (by push_cast; linarith)
          have hmn : m ≤ n := hlt (by linarith)
          have hne : n % 2 ≠ 1 := by
            intro hodd
            obtain ⟨hlow, hhigh⟩ := heven hodd
            have : (n : ℚ) < m + 1 := by linarith
            have : (m : ℚ) < n := by linarith
            have : n < m + 1 := by exact_mod_cast ‹(n : ℚ) < m + 1›
            have : m < n := by exact_mod_cast ‹(m : ℚ) < n›
            omega
          show m + m % 2 = n
          omega
      | true =>
          have hbounds : (m : ℚ) + 1 / 2 < y ∧ y < m + 1 := by
            simp [Stands, Tells, ExtendedMantissa.accuracy] at h
            constructor <;> linarith
          have hnm : n ≤ m + 1 := hlt (by push_cast; linarith [hbounds.2])
          have hmn : m + 1 ≤ n := hlt (by push_cast; linarith [hbounds.1])
          exact Nat.le_antisymm hmn hnm

/-! ### Numbers and the results that are closest to them -/

/-- A number as it is stored: in canonical form, with the smaller step below powers of two. -/
structure Dyadic.Stored (x : Dyadic) : Prop where
  canonical : Canonical x.mantissa x.exponent
  closeBelow : x.closeBelow = true ↔ x.mantissa = 2 ^ 52 ∧ -1074 < x.exponent

/-- The value of a number. -/
def Dyadic.value (x : Dyadic) : ℚ :=
  x.mantissa * 2 ^ x.exponent

/-- How far it is halfway to the next smaller number, in quarters of the last place. -/
def Dyadic.room (x : Dyadic) : ℕ :=
  if x.closeBelow then 1 else 2

/-- No number is closer to `v`, and halfway between two the even one is meant. -/
structure Dyadic.Covers (x : Dyadic) (v : ℚ) : Prop where
  ge : (4 * x.mantissa - x.room : ℚ) * 2 ^ (x.exponent - 2) ≤ v
  le : v ≤ (4 * x.mantissa + 2 : ℚ) * 2 ^ (x.exponent - 2)
  even : x.mantissa % 2 = 1 → (4 * x.mantissa - x.room : ℚ) * 2 ^ (x.exponent - 2) < v ∧
    v < (4 * x.mantissa + 2 : ℚ) * 2 ^ (x.exponent - 2)

namespace Dyadic

variable {x : Dyadic} {v : ℚ}

theorem two_zpow_pos (q : ℤ) : (0 : ℚ) < 2 ^ q :=
  zpow_pos (by norm_num) q

theorem two_zpow_add (q : ℤ) (n : ℕ) : (2 : ℚ) ^ (q + n) = 2 ^ n * 2 ^ q := by
  rw [zpow_add₀ (by norm_num), zpow_natCast, mul_comm]

theorem room_eq (x : Dyadic) : x.room = 1 ∨ x.room = 2 := by
  unfold room
  split
  · exact Or.inl rfl
  · exact Or.inr rfl

theorem value_eq (x : Dyadic) : x.value = 4 * x.mantissa * 2 ^ (x.exponent - 2) := by
  have h := two_zpow_add (x.exponent - 2) 2
  rw [show x.exponent - 2 + (2 : ℕ) = x.exponent by omega] at h
  rw [value, h]
  ring

/-- A number is the closest to itself. -/
theorem covers_value (x : Dyadic) : x.Covers x.value := by
  have hunit := two_zpow_pos (x.exponent - 2)
  have hroom : (0 : ℚ) < x.room := by
    rcases x.room_eq with h | h <;> rw [h] <;> norm_num
  have hlow : (4 * x.mantissa - x.room : ℚ) * 2 ^ (x.exponent - 2) < x.value := by
    rw [value_eq]
    nlinarith
  have hhigh : x.value < (4 * x.mantissa + 2 : ℚ) * 2 ^ (x.exponent - 2) := by
    rw [value_eq]
    nlinarith
  exact ⟨hlow.le, hhigh.le, fun _ => ⟨hlow, hhigh⟩⟩

theorem Covers.pos (h : x.Covers v) (hx : x.Stored) : 0 < v := by
  have hmantissa : (1 : ℚ) ≤ x.mantissa := by exact_mod_cast hx.canonical.mantissa_pos
  have hroom : (x.room : ℚ) ≤ 2 := by
    rcases x.room_eq with h | h <;> rw [h] <;> norm_num
  refine lt_of_lt_of_le (mul_pos ?_ (two_zpow_pos _)) h.ge
  linarith

/-- No covered result reaches the next binade. -/
theorem Covers.lt_binade (h : x.Covers v) (hx : x.Stored) : v < 2 ^ (x.exponent + 53) := by
  have hmantissa : (x.mantissa : ℚ) + 1 ≤ 2 ^ 53 := by exact_mod_cast hx.canonical.mantissa_lt
  have hunit := two_zpow_pos (x.exponent - 2)
  rw [show x.exponent + 53 = x.exponent - 2 + (55 : ℕ) by push_cast; ring, two_zpow_add]
  refine lt_of_le_of_lt h.le (mul_lt_mul_of_pos_right ?_ hunit)
  linarith

/-- No covered result is too large for a finite number. -/
theorem Covers.lt_top (h : x.Covers v) (hx : x.Stored) : v < 2 ^ (1024 : ℤ) := by
  have hle := hx.canonical.exponent_le
  exact (h.lt_binade hx).trans_le (zpow_le_zpow_right₀ (by norm_num) (by omega))

/-- None is below half of the smallest number. -/
theorem Covers.bottom_le (h : x.Covers v) (hx : x.Stored) : (2 : ℚ) ^ (-1075 : ℤ) ≤ v := by
  have hmantissa : (1 : ℚ) ≤ x.mantissa := by exact_mod_cast hx.canonical.mantissa_pos
  have hroom : (x.room : ℚ) ≤ 2 := by
    rcases x.room_eq with h | h <;> rw [h] <;> norm_num
  calc (2 : ℚ) ^ (-1075 : ℤ) = 2 * 2 ^ (-1076 : ℤ) := by
        rw [show (-1075 : ℤ) = -1076 + (1 : ℕ) by norm_num, two_zpow_add, pow_one]
    _ ≤ (4 * x.mantissa - x.room) * 2 ^ (x.exponent - 2) := by
      have hge := hx.canonical.exponent_ge
      have hunit : (2 : ℚ) ^ (-1076 : ℤ) ≤ 2 ^ (x.exponent - 2) :=
        zpow_le_zpow_right₀ (by norm_num) (by omega)
      exact mul_le_mul (by linarith) hunit (two_zpow_pos _).le (by linarith)
    _ ≤ v := h.ge

/-- A result below the binade of the number is just below a power of two. -/
theorem Covers.below_binade (h : x.Covers v) (hx : x.Stored) (hq : -1074 < x.exponent)
    (hv : v < 2 ^ (x.exponent + 52)) :
    x.mantissa = 2 ^ 52 ∧ (2 ^ 54 - 1 : ℚ) * 2 ^ (x.exponent - 2) ≤ v := by
  have hunit := two_zpow_pos (x.exponent - 2)
  rw [show x.exponent + 52 = x.exponent - 2 + (54 : ℕ) by push_cast; ring, two_zpow_add] at hv
  have hlow : (4 * x.mantissa - x.room : ℚ) < 2 ^ 54 :=
    lt_of_mul_lt_mul_right (lt_of_le_of_lt h.ge hv) hunit.le
  have hroom : (x.room : ℚ) ≤ 2 := by
    rcases x.room_eq with h | h <;> rw [h] <;> norm_num
  have hle : x.mantissa ≤ 2 ^ 52 := by
    have : (x.mantissa : ℚ) < 2 ^ 52 + 1 := by linarith
    have : x.mantissa < 2 ^ 52 + 1 := by exact_mod_cast this
    omega
  have hmantissa : x.mantissa = 2 ^ 52 := by
    rcases hx.canonical.normal with hge | heq
    · omega
    · omega
  have hroom' : x.room = 1 := by
    rw [room, if_pos (hx.closeBelow.mpr ⟨hmantissa, hq⟩)]
  refine ⟨hmantissa, le_trans (le_of_eq ?_) h.ge⟩
  rw [hmantissa, hroom']
  norm_num

/-- In the unit of the number, the number is the nearest to what it covers. -/
theorem Covers.nearest (h : x.Covers v) : Nearest x.mantissa (v / 2 ^ x.exponent) := by
  have hunit := two_zpow_pos (x.exponent - 2)
  have hquarter : (2 : ℚ) ^ x.exponent = 4 * 2 ^ (x.exponent - 2) := by
    have hsplit := two_zpow_add (x.exponent - 2) 2
    rw [show x.exponent - 2 + (2 : ℕ) = x.exponent by omega] at hsplit
    rw [hsplit]
    norm_num
  have hroom : (x.room : ℚ) ≤ 2 := by
    rcases x.room_eq with h | h <;> rw [h] <;> norm_num
  have hlow : ((x.mantissa : ℚ) - 1 / 2) * 2 ^ x.exponent
      ≤ (4 * x.mantissa - x.room : ℚ) * 2 ^ (x.exponent - 2) := by
    rw [hquarter]
    nlinarith
  have hhigh : (4 * x.mantissa + 2 : ℚ) * 2 ^ (x.exponent - 2)
      = ((x.mantissa : ℚ) + 1 / 2) * 2 ^ x.exponent := by
    rw [hquarter]
    ring
  refine ⟨?_, ?_, fun hodd => ⟨?_, ?_⟩⟩
  · rw [le_div_iff₀ (two_zpow_pos _)]
    exact hlow.trans h.ge
  · rw [div_le_iff₀ (two_zpow_pos _), ← hhigh]
    exact h.le
  · rw [lt_div_iff₀ (two_zpow_pos _)]
    exact hlow.trans_lt (h.even hodd).1
  · rw [div_lt_iff₀ (two_zpow_pos _), ← hhigh]
    exact (h.even hodd).2

/-- Just below a power of two, that power is the nearest in the next finer unit as well. -/
theorem Covers.nearest_finer (h : x.Covers v) (hx : x.Stored) (hq : -1074 < x.exponent)
    (hv : v < 2 ^ (x.exponent + 52)) : Nearest (2 ^ 53) (v / 2 ^ (x.exponent - 1)) := by
  obtain ⟨-, hle⟩ := h.below_binade hx hq hv
  have hdouble : (2 : ℚ) ^ (x.exponent - 1) = 2 * 2 ^ (x.exponent - 2) := by
    rw [show x.exponent - 1 = x.exponent - 2 + (1 : ℕ) by push_cast; ring, two_zpow_add, pow_one]
  rw [show x.exponent + 52 = x.exponent - 1 + (53 : ℕ) by push_cast; ring, two_zpow_add] at hv
  refine ⟨?_, ?_, fun hodd => absurd hodd (by norm_num)⟩
  · rw [le_div_iff₀ (two_zpow_pos _), hdouble]
    refine le_trans (le_of_eq ?_) hle
    push_cast
    ring
  · rw [div_le_iff₀ (two_zpow_pos _)]
    refine le_trans hv.le (mul_le_mul_of_nonneg_right ?_ (two_zpow_pos _).le)
    norm_num

/-- A result below the binade of the number is in the binade before it. -/
theorem Covers.half_le (h : x.Covers v) (hx : x.Stored) (hq : -1074 < x.exponent)
    (hv : v < 2 ^ (x.exponent + 52)) : 2 ^ (x.exponent + 51) ≤ v := by
  obtain ⟨-, hle⟩ := h.below_binade hx hq hv
  rw [show x.exponent + 51 = x.exponent - 2 + (53 : ℕ) by push_cast; ring, two_zpow_add]
  exact le_trans (mul_le_mul_of_nonneg_right (by norm_num) (two_zpow_pos _).le) hle

end Dyadic

/-! ### Units -/

section Units

variable {m : ℕ} {e k : ℤ} {acc : Accuracy} {y v : ℚ}

theorem targetExponent_eq (k : ℤ) : Format.binary64.targetExponent k = max (k - 53) (-1074) :=
  rfl

theorem totalExponent_eq (m : ℕ) (e : ℤ) : totalExponent m e = (m.log2 : ℤ) + 1 + e :=
  rfl

/-- What stands in a mantissa is smaller than the power of two beyond its highest bit. -/
theorem Tells.lt_total (h : Tells acc (y - m)) : y * 2 ^ e < 2 ^ totalExponent m e := by
  have hlog : (m : ℚ) + 1 ≤ 2 ^ (m.log2 + 1) := by exact_mod_cast (Nat.lt_log2_self (n := m))
  rw [totalExponent_eq, show (m.log2 : ℤ) + 1 + e = e + (m.log2 + 1 : ℕ) by push_cast; ring,
    Dyadic.two_zpow_add]
  refine mul_lt_mul_of_pos_right ?_ (Dyadic.two_zpow_pos e)
  linarith [h.nonneg.2]

/-- It is at least the power of two of its highest bit, if it has one. -/
theorem Tells.total_le (h : Tells acc (y - m)) (hm : m ≠ 0) :
    (2 : ℚ) ^ (totalExponent m e - 1) ≤ y * 2 ^ e := by
  have hlog : (2 : ℚ) ^ m.log2 ≤ m := by exact_mod_cast Nat.log2_self_le hm
  rw [totalExponent_eq, show (m.log2 : ℤ) + 1 + e - 1 = e + (m.log2 : ℕ) by ring,
    Dyadic.two_zpow_add]
  refine mul_le_mul_of_nonneg_right ?_ (Dyadic.two_zpow_pos e).le
  linarith [h.nonneg.1]

theorem lt_of_two_zpow_lt {a b : ℤ} (h : (2 : ℚ) ^ a < 2 ^ b) : a < b :=
  (zpow_lt_zpow_iff_right₀ (by norm_num)).mp h

/-- **A covered result is rounded in the unit of the number**, or just below a power of two in the
next finer one. -/
theorem Dyadic.Covers.target {x : Dyadic} (h : x.Covers v) (hx : x.Stored)
    (htells : Tells acc (y - m)) (hv : v = y * 2 ^ e)
    (he : e ≤ Format.binary64.targetExponent (totalExponent m e)) :
    (Format.binary64.targetExponent (totalExponent m e) = x.exponent ∧
      Nearest x.mantissa (v / 2 ^ x.exponent)) ∨
    (Format.binary64.targetExponent (totalExponent m e) = x.exponent - 1 ∧
      x.mantissa = 2 ^ 52 ∧ Nearest (2 ^ 53) (v / 2 ^ (x.exponent - 1))) := by
  have hupper : v < 2 ^ totalExponent m e := hv ▸ htells.lt_total
  have hlower : m ≠ 0 → (2 : ℚ) ^ (totalExponent m e - 1) ≤ v := fun hm => hv ▸ htells.total_le hm
  have hge := hx.canonical.exponent_ge
  -- A mantissa without a bit only occurs in the smallest unit.
  have hempty : m = 0 → totalExponent m e ≤ -1073 := by
    intro hm
    have htotal : totalExponent m e = 1 + e := by rw [totalExponent_eq, hm]; rfl
    rw [targetExponent_eq, htotal] at he
    omega
  rw [targetExponent_eq]
  by_cases hbelow : -1074 < x.exponent ∧ v < 2 ^ (x.exponent + 52)
  · -- The result lies in the binade below the power of two that the number is.
    obtain ⟨hq, hlt⟩ := hbelow
    have hfrom := lt_of_two_zpow_lt ((h.half_le hx hq hlt).trans_lt hupper)
    have hm : m ≠ 0 := fun hm => by
      have := hempty hm
      omega
    have hto := lt_of_two_zpow_lt ((hlower hm).trans_lt hlt)
    exact Or.inr ⟨by omega, (h.below_binade hx hq hlt).1, h.nearest_finer hx hq hlt⟩
  · have htop : totalExponent m e ≤ x.exponent + 53 := by
      by_cases hm : m = 0
      · have := hempty hm
        omega
      · have := lt_of_two_zpow_lt ((hlower hm).trans_lt (h.lt_binade hx))
        omega
    refine Or.inl ⟨?_, h.nearest⟩
    by_cases hq : -1074 < x.exponent
    · have hlow : (2 : ℚ) ^ (x.exponent + 52) ≤ v := not_lt.mp fun hlt => hbelow ⟨hq, hlt⟩
      have := lt_of_two_zpow_lt (hlow.trans_lt hupper)
      omega
    · omega

/-! ### Rounding -/

/-- Shifting to a coarser unit keeps what the mantissa stands for. -/
theorem shiftToTargetExponent_stands (htells : Tells acc (y - m)) (hv : v = y * 2 ^ e)
    (he : e ≤ Format.binary64.targetExponent (totalExponent m e)) :
    let t := Format.binary64.targetExponent (totalExponent m e)
    ∃ em, shiftToTargetExponent .binary64 m e acc = (em, t) ∧ Stands em (v / 2 ^ t) := by
  intro t
  refine ⟨_, Prod.ext rfl ?_, ?_⟩
  · show e + ((t - e).toNat : ℤ) = t
    omega
  · have hshift := (stands_ofMantissaAndAccuracy htells).shiftRight (t - e).toNat
    have hunits : v / 2 ^ t = y / 2 ^ (t - e).toNat := by
      have hsplit := Dyadic.two_zpow_add e (t - e).toNat
      rw [show e + ((t - e).toNat : ℤ) = t by omega] at hsplit
      have hpos := Dyadic.two_zpow_pos e
      rw [hv, hsplit]
      field_simp
    rw [hunits]
    exact hshift

/-- A mantissa in canonical form is in its unit already. -/
theorem shiftToTargetExponent_canonical (h : Canonical m e) :
    shiftToTargetExponent .binary64 m e .exact = (⟨m, false, false⟩, e) := by
  have hlog : m.log2 < 53 := (Nat.log2_lt h.mantissa_pos.ne').mpr h.mantissa_lt
  have hge := h.exponent_ge
  have htarget : Format.binary64.targetExponent (totalExponent m e) = e := by
    rw [targetExponent_eq, totalExponent_eq]
    rcases h.normal with hnormal | hleast
    · have : 52 ≤ m.log2 := (Nat.le_log2 h.mantissa_pos.ne').mpr hnormal
      omega
    · omega
  simp only [shiftToTargetExponent, htarget, shiftToExponent, Int.sub_self, Int.toNat_zero,
    Nat.cast_zero, Int.add_zero]
  rfl

/-- Such a mantissa is kept by rounding. -/
theorem round_canonical (s : Sign) (h : Canonical m e) :
    roundWithAccuracy .binary64 s m e .exact = .finite s m e h.mantissa_pos := by
  have hshift := shiftToTargetExponent_canonical h
  have hrounded : ExtendedMantissa.roundedMantissa ⟨m, false, false⟩ = m := rfl
  simp only [roundWithAccuracy, hshift, hrounded, dif_neg h.mantissa_pos.ne']

/-- A mantissa that was rounded up to the next power of two is shifted once more. -/
theorem shiftToTargetExponent_carry {q : ℤ} (hq : -1074 < q) :
    ∃ em, shiftToTargetExponent .binary64 (2 ^ 53) (q - 1) .exact = (em, q) ∧
      em.mantissa = 2 ^ 52 := by
  have htarget : Format.binary64.targetExponent (totalExponent (2 ^ 53) (q - 1)) = q := by
    rw [targetExponent_eq, totalExponent_eq, Nat.log2_two_pow]
    omega
  refine ⟨_, Prod.ext rfl ?_, ?_⟩
  · show q - 1 + ((Format.binary64.targetExponent (totalExponent (2 ^ 53) (q - 1)) - (q - 1)).toNat : ℤ)
      = q
    rw [htarget]
    omega
  · rw [shiftToTargetExponent, htarget, shiftToExponent, show (q - (q - 1)).toNat = 1 by omega]
    rfl

/-- **A result that a number covers is rounded to that number**, if it comes in a unit that is fine
enough. -/
theorem round_of_covers {x : Dyadic} (s : Sign) (hx : x.Stored) (h : x.Covers v)
    (htells : Tells acc (y - m)) (hv : v = y * 2 ^ e)
    (he : e ≤ Format.binary64.targetExponent (totalExponent m e)) :
    roundWithAccuracy .binary64 s m e acc
      = .finite s x.mantissa x.exponent hx.canonical.mantissa_pos := by
  obtain ⟨em, hshift, hstands⟩ := shiftToTargetExponent_stands htells hv he
  have hpos := hx.canonical.mantissa_pos
  rcases h.target hx htells hv he with ⟨htarget, hnearest⟩ | ⟨htarget, hmantissa, hnearest⟩
  · rw [htarget] at hshift hstands
    have hrounded := hstands.roundedMantissa_eq hnearest
    have hsecond := shiftToTargetExponent_canonical hx.canonical
    simp only [roundWithAccuracy, hshift, hrounded, hsecond, dif_neg hpos.ne']
  · rw [htarget] at hshift hstands
    have hrounded := hstands.roundedMantissa_eq hnearest
    have hq : -1074 < x.exponent := by
      have hmin := htarget
      rw [targetExponent_eq] at hmin
      omega
    obtain ⟨em', hsecond, hem'⟩ := shiftToTargetExponent_carry hq
    simp only [roundWithAccuracy, hshift, hrounded, hsecond, hem', hmantissa]
    exact dif_neg (by norm_num)

/-! ### Products and quotients -/

/-- A mantissa with all its bits comes in a unit that is fine enough. -/
theorem le_target_of_full (hm : 2 ^ 52 ≤ m) (e : ℤ) :
    e ≤ Format.binary64.targetExponent (totalExponent m e) := by
  have hne : m ≠ 0 := by
    have : 0 < 2 ^ 52 := by norm_num
    omega
  have : 52 ≤ m.log2 := (Nat.le_log2 hne).mpr hm
  rw [targetExponent_eq, totalExponent_eq]
  omega

variable {m₁ m₂ : ℕ} {e₁ e₂ : ℤ} {h₁ : 0 < m₁} {h₂ : 0 < m₂}

/-- **A product is rounded to the number that covers it.** -/
theorem mul_of_covers {x : Dyadic} (hx : x.Stored)
    (h : x.Covers ((m₁ * 2 ^ e₁ : ℚ) * (m₂ * 2 ^ e₂))) (hfull : 2 ^ 52 ≤ m₁ * m₂) :
    UnpackedFloat.mul .binary64 (.finite .positive m₁ e₁ h₁) (.finite .positive m₂ e₂ h₂)
      = .finite .positive x.mantissa x.exponent hx.canonical.mantissa_pos := by
  have htells : Tells .exact (((m₁ * m₂ : ℕ) : ℚ) - (m₁ * m₂ : ℕ)) := sub_self _
  refine round_of_covers _ hx h htells ?_ (le_target_of_full hfull _)
  rw [zpow_add₀ (by norm_num)]
  push_cast
  ring

/-- The rest of a division says how it compares with half the divisor. -/
theorem tells_accuracyOfFraction {r d : ℕ} (hr : r < d) : Tells (accuracyOfFraction r d) (r / d) := by
  have hd : (0 : ℚ) < d := by exact_mod_cast Nat.zero_lt_of_lt hr
  unfold accuracyOfFraction
  by_cases hzero : r = 0
  · rw [if_pos hzero, hzero]
    show ((0 : ℕ) : ℚ) / d = 0
    simp
  · rw [if_neg hzero]
    have hpos : (0 : ℚ) < r := by exact_mod_cast Nat.pos_of_ne_zero hzero
    rcases Nat.lt_trichotomy (2 * r) d with hlt | heq | hgt
    · rw [Nat.compare_eq_lt.mpr hlt]
      have hlt : (2 * r : ℚ) < d := by exact_mod_cast hlt
      refine ⟨div_pos hpos hd, ?_⟩
      rw [div_lt_iff₀ hd]
      linarith
    · rw [Nat.compare_eq_eq.mpr heq]
      have heq : (2 * r : ℚ) = d := by exact_mod_cast heq
      show (r : ℚ) / d = 1 / 2
      rw [div_eq_iff hd.ne']
      linarith
    · rw [Nat.compare_eq_gt.mpr hgt]
      have hgt : (d : ℚ) < 2 * r := by exact_mod_cast hgt
      have hr : (r : ℚ) < d := by exact_mod_cast hr
      refine ⟨?_, (div_lt_one hd).mpr hr⟩
      rw [lt_div_iff₀ hd]
      linarith

/-- A division is carried far enough to fill the mantissa, or down to the smallest unit. -/
theorem le_target_of_divCore (h₁ : 0 < m₁) (h₂ : 0 < m₂) (e₁ e₂ : ℤ) :
    let r := divCore .binary64 m₁ e₁ m₂ e₂
    r.2.1 ≤ e₁ - e₂ ∧ r.2.1 ≤ Format.binary64.targetExponent (totalExponent r.1 r.2.1) := by
  intro r
  set t := Format.binary64.targetExponent (totalExponent m₁ e₁ - totalExponent m₂ e₂) with ht
  have hexponent : r.2.1 = min (e₁ - e₂) t := rfl
  have hmantissa : r.1 = m₁ <<< (e₁ - e₂ - min (e₁ - e₂) t).toNat / m₂ := rfl
  refine ⟨by omega, ?_⟩
  by_cases hleast : min (e₁ - e₂) t ≤ -1074
  · rw [targetExponent_eq, hexponent]
    omega
  · refine le_target_of_full ?_ _
    rw [targetExponent_eq, totalExponent_eq, totalExponent_eq] at ht
    set shift := (e₁ - e₂ - min (e₁ - e₂) t).toNat with hshift
    have hfar : m₂.log2 + 53 ≤ m₁.log2 + shift := by omega
    rw [hmantissa, Nat.le_div_iff_mul_le h₂, Nat.shiftLeft_eq]
    calc 2 ^ 52 * m₂ ≤ 2 ^ 52 * 2 ^ (m₂.log2 + 1) :=
          Nat.mul_le_mul_left _ (Nat.lt_log2_self (n := m₂)).le
      _ = 2 ^ (m₂.log2 + 53) := by rw [← Nat.pow_add]; congr 1; omega
      _ ≤ 2 ^ (m₁.log2 + shift) := Nat.pow_le_pow_right (by norm_num) hfar
      _ = 2 ^ m₁.log2 * 2 ^ shift := Nat.pow_add ..
      _ ≤ m₁ * 2 ^ shift := Nat.mul_le_mul_right _ (Nat.log2_self_le h₁.ne')

/-- **A quotient is rounded to the number that covers it.** -/
theorem div_of_covers {x : Dyadic} (hx : x.Stored)
    (h : x.Covers ((m₁ * 2 ^ e₁ : ℚ) / (m₂ * 2 ^ e₂))) :
    UnpackedFloat.div .binary64 (.finite .positive m₁ e₁ h₁) (.finite .positive m₂ e₂ h₂)
      = .finite .positive x.mantissa x.exponent hx.canonical.mantissa_pos := by
  obtain ⟨hcoarse, hfine⟩ := le_target_of_divCore h₁ h₂ e₁ e₂
  set t := (divCore .binary64 m₁ e₁ m₂ e₂).2.1 with ht
  set dividend := m₁ <<< (e₁ - e₂ - t).toNat with hdividend
  have hd : (0 : ℚ) < m₂ := by exact_mod_cast h₂
  have hrest : (dividend / m₂ : ℚ) - (dividend / m₂ : ℕ) = (dividend % m₂ : ℕ) / m₂ := by
    have hdivision : (dividend : ℚ) = m₂ * (dividend / m₂ : ℕ) + (dividend % m₂ : ℕ) := by
      exact_mod_cast (Nat.div_add_mod dividend m₂).symm
    rw [sub_eq_iff_eq_add, div_add' _ _ _ hd.ne', hdivision]
    ring
  have htells : Tells (accuracyOfFraction (dividend % m₂) m₂)
      ((dividend / m₂ : ℚ) - (dividend / m₂ : ℕ)) := by
    rw [hrest]
    exact tells_accuracyOfFraction (Nat.mod_lt _ h₂)
  refine round_of_covers _ hx h htells ?_ hfine
  have hscale := Dyadic.two_zpow_add t (e₁ - e₂ - t).toNat
  rw [show t + ((e₁ - e₂ - t).toNat : ℤ) = e₁ - e₂ by omega, zpow_sub₀ (by norm_num)] at hscale
  have hpos := Dyadic.two_zpow_pos e₂
  rw [hdividend, Nat.shiftLeft_eq, Nat.cast_mul, Nat.cast_pow, Nat.cast_ofNat]
  rw [div_eq_iff (by positivity)] at hscale
  rw [hscale]
  field_simp
  rfl

end Units

end EliminationOrder.Decimal
