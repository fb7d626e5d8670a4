/-
The shortest decimal of a number reads back as that number.

A point of a grid is taken only if it lies between the ends of the number's interval.  The
comparison is in whole numbers on a common scale, and it says that the number covers the
point (`Dyadic.holds_scale_iff`).  The search stops at such a point or falls back on the
number itself, so what it finds is covered (`Dyadic.covers_shortest`), and a decimal reads
back as the number that covers it (`signed_nearest_of_covers`).
-/
import EliminationOrder.Proofs.Decimal.Nearest

namespace EliminationOrder.Decimal

open Float.Model Float.Model.UnpackedFloat
open HopDegree (Canonical Encodes Form form_unpack magnitude negative sign infiniteMagnitude)

/-! ### Points of a grid -/

namespace Dyadic

variable {x : Dyadic} {k : ℤ} {d : ℕ}

/-- What the common scale of a number and a grid is multiplied by. -/
def factor (x : Dyadic) (k : ℤ) : ℚ :=
  2 ^ (2 - x.exponent).toNat * 10 ^ (-k).toNat

theorem factor_pos (x : Dyadic) (k : ℤ) : 0 < x.factor k := by
  unfold factor
  positivity

/-- A power with a whole exponent, taken apart into the two powers that are whole numbers. -/
theorem zpow_mul_pow_neg {b : ℚ} (hb : b ≠ 0) (k : ℤ) : b ^ k * b ^ (-k).toNat = b ^ k.toNat := by
  rw [← zpow_natCast, ← zpow_natCast, ← zpow_add₀ hb]
  congr 1
  omega

/-- The quarter steps of a number on the scale. -/
theorem scale_unit (x : Dyadic) (k : ℤ) (n : ℕ) :
    ((n * (Nat.pow 2 (x.exponent - 2).toNat * Nat.pow 10 (-k).toNat) : ℕ) : ℚ)
      = n * 2 ^ (x.exponent - 2) * x.factor k := by
  have hpower := zpow_mul_pow_neg (b := 2) two_ne_zero (x.exponent - 2)
  rw [show -(x.exponent - 2) = 2 - x.exponent by ring] at hpower
  simp only [Nat.pow_eq]
  push_cast
  rw [factor, ← hpower]
  ring

/-- The points of the grid on the scale. -/
theorem scale_grid (x : Dyadic) (k : ℤ) (d : ℕ) :
    ((d * (x.scale k).grid : ℕ) : ℚ) = d * 10 ^ k * x.factor k := by
  have hpower := zpow_mul_pow_neg (b := 10) (by norm_num) k
  simp only [scale, Nat.pow_eq]
  push_cast
  rw [factor, ← hpower]
  ring

/-- The ends of the interval on the scale. -/
theorem scale_low (hpos : 0 < x.mantissa) :
    ((x.scale k).low : ℚ) = (4 * x.mantissa - x.room) * 2 ^ (x.exponent - 2) * x.factor k := by
  have hroom : x.room ≤ 4 * x.mantissa := by
    rcases x.room_eq with h | h <;> omega
  have hunit := scale_unit x k (4 * x.mantissa - x.room)
  rw [Nat.cast_sub hroom] at hunit
  exact_mod_cast hunit

theorem scale_high : ((x.scale k).high : ℚ)
    = (4 * x.mantissa + 2) * 2 ^ (x.exponent - 2) * x.factor k := by
  have hunit := scale_unit x k (4 * x.mantissa + 2)
  exact_mod_cast hunit

/-- **A point of the grid is taken for the number if and only if the number covers it.** -/
theorem holds_scale_iff (hpos : 0 < x.mantissa) :
    (x.scale k).holds d = true ↔ x.Covers (d * 10 ^ k) := by
  have hfactor := x.factor_pos k
  have hgrid := scale_grid x k d
  have hle : (x.scale k).low ≤ d * (x.scale k).grid
      ↔ (4 * x.mantissa - x.room : ℚ) * 2 ^ (x.exponent - 2) ≤ d * 10 ^ k := by
    rw [← Nat.cast_le (α := ℚ), scale_low hpos, hgrid, mul_le_mul_iff_left₀ hfactor]
  have hlt : (x.scale k).low < d * (x.scale k).grid
      ↔ (4 * x.mantissa - x.room : ℚ) * 2 ^ (x.exponent - 2) < d * 10 ^ k := by
    rw [← Nat.cast_lt (α := ℚ), scale_low hpos, hgrid, mul_lt_mul_iff_left₀ hfactor]
  have hge : d * (x.scale k).grid ≤ (x.scale k).high
      ↔ (d * 10 ^ k : ℚ) ≤ (4 * x.mantissa + 2) * 2 ^ (x.exponent - 2) := by
    rw [← Nat.cast_le (α := ℚ), scale_high, hgrid, mul_le_mul_iff_left₀ hfactor]
  have hgt : d * (x.scale k).grid < (x.scale k).high
      ↔ (d * 10 ^ k : ℚ) < (4 * x.mantissa + 2) * 2 ^ (x.exponent - 2) := by
    rw [← Nat.cast_lt (α := ℚ), scale_high, hgrid, mul_lt_mul_iff_left₀ hfactor]
  have hclosed : (x.scale k).closed = true ↔ x.mantissa % 2 = 0 := beq_iff_eq
  unfold Scale.holds
  by_cases heven : x.mantissa % 2 = 0
  · rw [if_pos (hclosed.mpr heven), Bool.and_eq_true, decide_eq_true_iff, decide_eq_true_iff, hle, hge]
    exact ⟨fun h => ⟨h.1, h.2, fun hodd => by omega⟩, fun h => ⟨h.ge, h.le⟩⟩
  · rw [if_neg (fun h => heven (hclosed.mp h)), Bool.and_eq_true, decide_eq_true_iff,
      decide_eq_true_iff, hlt, hgt]
    exact ⟨fun h => ⟨h.1.le, h.2.le, fun _ => h⟩, fun h => h.even (by omega)⟩

/-! ### The search -/

theorem holds_of_nearest? {s : Scale} (h : s.nearest? = some d) : s.holds d = true := by
  dsimp only [Scale.nearest?] at h
  split at h
  · rename_i hfirst
    split at h
    · rename_i hnext
      rw [Bool.and_eq_true] at hnext
      cases h
      exact hnext.1
    · cases h
      exact hfirst
  · split at h
    · rename_i hnext
      cases h
      exact hnext
    · cases h

/-- The search only finds decimals that the number covers. -/
theorem covers_of_search (hpos : 0 < x.mantissa) {count : ℕ} {r : Scaled}
    (h : x.search k count = some r) : x.Covers (r.digits * 10 ^ r.exponent) := by
  induction count generalizing k with
  | zero => cases h
  | succ count ih =>
      rw [search] at h
      split at h
      · rename_i d hnearest
        cases h
        exact (holds_scale_iff hpos).mp (holds_of_nearest? hnearest)
      · exact ih h

/-- Written out in full, a number is its own value. -/
theorem value_eq_digits (x : Dyadic) :
    ((x.mantissa * Nat.pow 2 (x.exponent - min x.exponent 0).toNat
        * Nat.pow 5 (-min x.exponent 0).toNat : ℕ) : ℚ) * 10 ^ min x.exponent 0 = x.value := by
  simp only [Nat.pow_eq]
  rcases le_total 0 x.exponent with h | h
  · rw [min_eq_right h, value]
    simp only [neg_zero, Int.toNat_zero, pow_zero, mul_one, zpow_zero, sub_zero]
    push_cast
    rw [← zpow_natCast, Int.toNat_of_nonneg h]
  · rw [min_eq_left h, value]
    have hpower : (5 : ℚ) ^ (-x.exponent).toNat * 5 ^ x.exponent = 1 := by
      rw [← zpow_natCast, Int.toNat_of_nonneg (by omega), ← zpow_add₀ (by norm_num)]
      simp
    rw [show (10 : ℚ) = 2 * 5 by norm_num, mul_zpow, sub_self]
    push_cast
    rw [mul_one]
    linear_combination (x.mantissa : ℚ) * 2 ^ x.exponent * hpower

/-- **A number covers its shortest decimal.** -/
theorem covers_shortest (hpos : 0 < x.mantissa) :
    x.Covers (x.shortest.digits * 10 ^ x.shortest.exponent) := by
  simp only [shortest, if_neg hpos.ne']
  cases hsearch : x.search coarsest (coarsest - min x.exponent 0 + 1).toNat with
  | some r => exact covers_of_search hpos hsearch
  | none =>
      have hvalue := value_eq_digits x
      have hcovers := covers_value x
      rw [← hvalue] at hcovers
      exact hcovers

end Dyadic

/-! ### The number in the bits -/

/-- The magnitude of a number other than zero and the infinities. -/
def Finite (n : ℕ) : Prop :=
  0 < n ∧ n < infiniteMagnitude

variable {n : ℕ}

/-- **The bits of a finite number hold its mantissa and exponent.** -/
theorem stored_ofBits (h : Finite n) :
    (Dyadic.ofBits n).Stored ∧ Encodes n (Dyadic.ofBits n).mantissa (Dyadic.ofBits n).exponent := by
  obtain ⟨hpos, hlt⟩ := h
  unfold infiniteMagnitude at hlt
  have hpow : Nat.pow 2 52 = 4503599627370496 := rfl
  have hpow' : Nat.pow 2 11 = 2048 := rfl
  simp only [Dyadic.ofBits, hpow, hpow', Int.ofNat_eq_natCast, Encodes]
  split
  · rename_i hbiased
    refine ⟨⟨⟨?_, ?_, ?_, ?_, Or.inr rfl⟩, by simp⟩, ?_⟩ <;> dsimp only
    all_goals omega
  · rename_i hbiased
    refine ⟨⟨⟨?_, ?_, ?_, ?_, Or.inl ?_⟩, ?_⟩, ?_⟩ <;> dsimp only
    · omega
    · omega
    · omega
    · omega
    · omega
    · rw [Bool.and_eq_true, beq_iff_eq, bne_iff_ne]
      omega
    · omega

/-- A magnitude belongs to one mantissa and exponent. -/
theorem canonical_inj {m m' : ℕ} {e e' : ℤ} (h : Canonical m e) (hn : Encodes n m e)
    (h' : Canonical m' e') (hn' : Encodes n m' e') : m = m' ∧ e = e' := by
  rcases lt_trichotomy e e' with hlt | rfl | hgt
  · exact absurd (h.lt_of_lex hn h' hn' (Or.inl hlt)) (lt_irrefl n)
  · rcases lt_trichotomy m m' with hlt | rfl | hgt
    · exact absurd (h.lt_of_lex hn h' hn' (Or.inr ⟨rfl, hlt⟩)) (lt_irrefl n)
    · exact ⟨rfl, rfl⟩
    · exact absurd (h'.lt_of_lex hn' h hn (Or.inr ⟨rfl, hgt⟩)) (lt_irrefl n)
  · exact absurd (h'.lt_of_lex hn' h hn (Or.inl hgt)) (lt_irrefl n)

/-! ### Reading back -/

variable {f : Float}

/-- What is no number has a magnitude beyond the infinities. -/
theorem lt_magnitude_of_nan (h : f.toModel.unpack = .notANumber) :
    infiniteMagnitude < magnitude f := by
  have hmodel := pack_toModel_unpack f
  rw [h] at hmodel
  obtain rfl : Float.ofModel (.pack .notANumber) = f := congrArg Float.ofModel hmodel
  decide +kernel

/-- **A finite number unpacks to its sign and to the number in its bits.** -/
theorem unpack_eq_ofBits (h : Finite (magnitude f)) :
    f.toModel.unpack = .finite (sign f) (Dyadic.ofBits (magnitude f)).mantissa
      (Dyadic.ofBits (magnitude f)).exponent (stored_ofBits h).1.canonical.mantissa_pos := by
  obtain ⟨hstored, hencodes⟩ := stored_ofBits h
  have hnan : f.toModel.unpack ≠ .notANumber := fun hnan =>
    absurd (lt_magnitude_of_nan hnan) (lt_asymm h.2)
  have hform := form_unpack hnan
  generalize f.toModel.unpack = u at hform
  generalize magnitude f = n at h hstored hencodes hform
  cases hform with
  | infinity => exact absurd h.2 (lt_irrefl _)
  | zero => exact absurd h.1 (lt_irrefl _)
  | finite hcanonical hmagnitude =>
      obtain ⟨rfl, rfl⟩ := canonical_inj hcanonical hmagnitude hstored.canonical hencodes
      rfl

/-- Turning the sign twice gives a finite number back. -/
theorem neg_neg_of_finite (h : Finite (magnitude f)) : -(-f) = f := by
  obtain ⟨hstored, -⟩ := stored_ofBits h
  have hunpack := unpack_eq_ofBits h
  have hturned : (-f).toModel.unpack = UnpackedFloat.neg f.toModel.unpack := by
    show (Float.Model.pack (UnpackedFloat.neg f.toModel.unpack)).unpack = _
    rw [hunpack]
    exact unpack_pack_finite _ hstored.canonical
  have hmodel := pack_toModel_unpack f
  show Float.ofModel (.pack (UnpackedFloat.neg (-f).toModel.unpack)) = f
  rw [hturned, hunpack]
  rw [hunpack] at hmodel
  cases hsign : sign f with
  | positive =>
      rw [hsign] at hmodel
      exact congrArg Float.ofModel hmodel
  | negative =>
      rw [hsign] at hmodel
      exact congrArg Float.ofModel hmodel

/-- **A decimal that a finite number covers reads back as the number**, with its sign in front. -/
theorem signed_nearest_of_covers {m : ℕ} {e : ℤ} (h : Finite (magnitude f))
    (hcovers : (Dyadic.ofBits (magnitude f)).Covers (m * 10 ^ e)) :
    (if negative f then -nearest m e else nearest m e) = f := by
  obtain ⟨hstored, -⟩ := stored_ofBits h
  have hunpack := unpack_eq_ofBits h
  unfold sign at hunpack
  cases hsign : negative f with
  | false =>
      rw [hsign] at hunpack
      exact nearest_of_covers hstored ⟨_, hunpack⟩ hcovers
  | true =>
      rw [hsign] at hunpack
      have hopposite : (Dyadic.ofBits (magnitude f)).Unpacked (-f) := by
        refine ⟨hstored.canonical.mantissa_pos, ?_⟩
        show (Float.Model.pack (UnpackedFloat.neg f.toModel.unpack)).unpack = _
        rw [hunpack]
        exact unpack_pack_finite .positive hstored.canonical
      rw [if_pos rfl, nearest_of_covers hstored hopposite hcovers, neg_neg_of_finite h]

theorem not_isInf_of_finite (h : Finite (magnitude f)) : f.isInf = false := by
  have hunpack := unpack_eq_ofBits h
  show f.toModel.unpack.isInf = false
  rw [hunpack]
  rfl

/-- Sign and magnitude make up a number. -/
theorem eq_of_sign_magnitude {g : Float} (hsign : negative f = negative g)
    (hmagnitude : magnitude f = magnitude g) : f = g := by
  rw [← HopDegree.rank_inj, HopDegree.rank_eq, HopDegree.rank_eq, hsign, hmagnitude]

/-- Every number is a zero, a finite number, an infinity or none. -/
theorem magnitude_le (h : f.isNaN = false) : magnitude f ≤ infiniteMagnitude := by
  have hnan : f.toModel.unpack ≠ .notANumber := by
    intro hnan
    have hnumber : f.toModel.unpack.isNaN = false := h
    rw [hnan] at hnumber
    cases hnumber
  have hform := form_unpack hnan
  generalize magnitude f = n at hform ⊢
  generalize f.toModel.unpack = u at hform
  cases hform with
  | infinity => exact le_rfl
  | zero => exact Nat.zero_le _
  | finite hcanonical hmagnitude => exact (hcanonical.between hmagnitude).2.le

end EliminationOrder.Decimal
