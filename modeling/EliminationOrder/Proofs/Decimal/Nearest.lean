/-
A decimal gives the floating-point number that covers it.

There are two ways to the nearest number.  A short decimal is a whole number times or over
a small power of ten, both without error, so one product or one quotient is rounded
(`unpack_ofNat`, `unpack_powerOfTen`).  Any other is a product or a quotient of whole
numbers, unless its exponent is out of reach.  Either way one exact result is rounded
once, and the number that covers it comes out (`nearest_of_covers`).
-/
import EliminationOrder.Decimal.Nearest
import EliminationOrder.Proofs.Decimal.Digits
import EliminationOrder.Proofs.Decimal.Rounding

namespace EliminationOrder.Decimal

open Float.Model Float.Model.UnpackedFloat
open HopDegree (Canonical toNat_unpackMantissa)

/-! ### Packing and unpacking -/

/-- Packing what a floating-point number unpacks to gives it back. -/
theorem pack_toModel_unpack (f : Float) : Float.Model.pack f.toModel.unpack = f.toModel := by
  have hbits := pack_unpack_of_valid f.toModel.valid
  rw [Float.Model.pack, Float.Model.mk.injEq]
  exact congrArg UInt64.ofBitVec hbits

theorem ofBitVec_toBitVec (s : Sign) : Sign.ofBitVec s.toBitVec = s := by
  cases s <;> rfl

/-- Fields that neither stand for zero nor for an infinity unpack to a number with a leading bit. -/
theorem unpack_packComponents_normal (s : Sign) (exponent : BitVec 11) (mantissa : BitVec 52)
    (hpos : 0 < exponent.toNat) (hlt : exponent.toNat < 2047) :
    UnpackedFloat.unpack .binary64 (packComponents .binary64 s exponent mantissa)
      = .finite s (2 ^ 52 + mantissa.toNat) (exponent.toNat - 1075) (by positivity) := by
  have hones : exponent ≠ -1#11 := by
    rintro rfl
    exact absurd hlt (by decide)
  have hnone : exponent ≠ 0#11 := by
    rintro rfl
    exact absurd hpos (by decide)
  have hleading : (1#1 ++ mantissa).toNat = 2 ^ 52 + mantissa.toNat := by
    rw [BitVec.toNat_append, ← Nat.shiftLeft_add_eq_or_of_lt mantissa.isLt]
    rfl
  simp only [UnpackedFloat.unpack, unpackExponent_packComponents, unpackMantissa_packComponents,
    unpackSign_packComponents, ofBitVec_toBitVec]
  rw [if_neg hones, if_neg hnone, UnpackedFloat.finite.injEq]
  exact ⟨rfl, hleading, rfl⟩

/-- Fields with the least exponent unpack to a number without one. -/
theorem unpack_packComponents_subnormal (s : Sign) (mantissa : BitVec 52) (hpos : 0 < mantissa.toNat) :
    UnpackedFloat.unpack .binary64 (packComponents .binary64 s 0#11 mantissa)
      = .finite s mantissa.toNat (-1074) hpos := by
  have hnone : mantissa ≠ 0#52 := by
    rintro rfl
    exact absurd hpos (by decide)
  simp only [UnpackedFloat.unpack, unpackExponent_packComponents, unpackMantissa_packComponents,
    unpackSign_packComponents, ofBitVec_toBitVec]
  rw [if_neg (by decide), if_pos trivial, dif_neg hnone]
  rfl

/-- **A number in canonical form survives packing.** -/
theorem unpack_pack_finite {m : ℕ} {e : ℤ} (s : Sign) (h : Canonical m e) :
    (Float.Model.pack (.finite s m e h.mantissa_pos)).unpack = .finite s m e h.mantissa_pos := by
  obtain ⟨hpos, hlt, hge, hle, hnormal⟩ := h
  show UnpackedFloat.unpack .binary64 (UnpackedFloat.pack .binary64 (.finite s m e hpos)) = _
  have hbiased : (e + (Format.binary64.exponentBias : ℤ)
      + (Format.binary64.mantissaBitsWithoutImplicit : ℤ)).toNat = (e + 1075).toNat := by
    show (e + 1023 + 52).toNat = _
    omega
  have hfinite : ¬ 2 ^ Format.binary64.exponentBits ≤ (e + 1075).toNat + 1 := by
    show ¬ 2048 ≤ _
    omega
  simp only [UnpackedFloat.pack, hbiased, if_neg hfinite]
  by_cases hm : 2 ^ 52 ≤ m
  · have hlog : m.log2 = 52 := by
      rw [Nat.log2_eq_iff hpos.ne']
      exact ⟨hm, hlt⟩
    have hexponent : (BitVec.ofNat 11 (e + 1075).toNat).toNat = (e + 1075).toNat := by
      rw [BitVec.toNat_ofNat]
      omega
    have hmantissa : (BitVec.ofNat 52 m).toNat = m - 2 ^ 52 := by
      rw [BitVec.toNat_ofNat]
      omega
    rw [if_pos (by rw [hlog]; rfl)]
    refine (unpack_packComponents_normal s _ _ (by omega) (by omega)).trans ?_
    rw [UnpackedFloat.finite.injEq]
    exact ⟨rfl, by omega, by omega⟩
  · have hlog : m.log2 < 52 := (Nat.log2_lt hpos.ne').mpr (Nat.lt_of_not_le hm)
    have hmantissa : (BitVec.ofNat 52 m).toNat = m := by
      rw [BitVec.toNat_ofNat]
      omega
    rw [if_neg (by show ¬ m.log2 + 1 = 53; omega)]
    refine (unpack_packComponents_subnormal s _ (by omega)).trans ?_
    rw [UnpackedFloat.finite.injEq]
    exact ⟨rfl, hmantissa, by omega⟩

/-! ### Numbers without error -/

/-- A whole number of at most 53 bits, with its highest bit moved to the front. -/
theorem canonical_full {n : ℕ} (hpos : 0 < n) (hlt : n < 2 ^ 53) :
    Canonical (n <<< (52 - n.log2)) (n.log2 - 52 : ℤ) ∧ 2 ^ 52 ≤ n <<< (52 - n.log2) := by
  have hlog : n.log2 ≤ 52 := Nat.le_of_lt_succ ((Nat.log2_lt hpos.ne').mpr hlt)
  have hge : 2 ^ 52 ≤ n <<< (52 - n.log2) := by
    rw [Nat.shiftLeft_eq]
    calc 2 ^ 52 = 2 ^ n.log2 * 2 ^ (52 - n.log2) := by rw [← Nat.pow_add]; congr 1; omega
      _ ≤ n * 2 ^ (52 - n.log2) := Nat.mul_le_mul_right _ (Nat.log2_self_le hpos.ne')
  have hlt : n <<< (52 - n.log2) < 2 ^ 53 := by
    rw [Nat.shiftLeft_eq]
    calc n * 2 ^ (52 - n.log2) < 2 ^ (n.log2 + 1) * 2 ^ (52 - n.log2) :=
          Nat.mul_lt_mul_of_pos_right (Nat.lt_log2_self) (by positivity)
      _ = 2 ^ 53 := by rw [← Nat.pow_add]; congr 1; omega
  exact ⟨⟨by omega, hlt, by omega, by omega, Or.inl hge⟩, hge⟩

/-- **A whole number of at most 53 bits is converted without error.** -/
theorem unpack_ofNat {n : ℕ} (hpos : 0 < n) (hlt : n < 2 ^ 53) :
    ∃ m e h, n.toUInt64.toFloat.toModel.unpack = .finite .positive m e h ∧ 2 ^ 52 ≤ m ∧
      (m * 2 ^ e : ℚ) = n := by
  obtain ⟨hcanonical, hfull⟩ := canonical_full hpos hlt
  have hlog : n.log2 ≤ 52 := Nat.le_of_lt_succ ((Nat.log2_lt hpos.ne').mpr hlt)
  refine ⟨n <<< (52 - n.log2), n.log2 - 52, hcanonical.mantissa_pos, ?_, hfull, ?_⟩
  · have hvalue : n.toUInt64.toNat = n := Nat.mod_eq_of_lt (by omega)
    have hcompare : compare (n : ℤ) 0 = .gt := Int.compare_eq_gt.mpr (by omega)
    have hunit : Format.binary64.targetExponent (totalExponent n 0) = (n.log2 - 52 : ℤ) := by
      rw [targetExponent_eq, totalExponent_eq]
      omega
    have hshift : (0 - (n.log2 - 52 : ℤ)).toNat = 52 - n.log2 := by omega
    have hround : UnpackedFloat.ofUInt64 .binary64 n.toUInt64
        = .finite .positive (n <<< (52 - n.log2)) (n.log2 - 52) hcanonical.mantissa_pos := by
      simp only [UnpackedFloat.ofUInt64, UnpackedFloat.ofNat, UnpackedFloat.ofInt,
        UnpackedFloat.normalize, hvalue, hcompare, UnpackedFloat.round, Int.toNat_natCast, hunit,
        decreaseExponent, hshift]
      rw [show (0 - ((52 - n.log2 : ℕ) : ℤ)) = n.log2 - 52 by omega]
      exact round_canonical .positive hcanonical
    show (Float.Model.pack (UnpackedFloat.ofUInt64 .binary64 n.toUInt64)).unpack = _
    rw [hround]
    exact unpack_pack_finite .positive hcanonical
  · rw [Nat.shiftLeft_eq]
    have hsplit := Dyadic.two_zpow_add (n.log2 - 52) (52 - n.log2)
    rw [show (n.log2 - 52 : ℤ) + (52 - n.log2 : ℕ) = 0 by omega, zpow_zero] at hsplit
    push_cast
    rw [mul_assoc, ← hsplit, mul_one]

/-- Whether a floating-point number is the given power of ten, checked in whole numbers. -/
def isPowerOfTen (f : Float) (e : ℕ) : Bool :=
  match f.toModel.unpack with
  | .finite .positive m q _ =>
    decide (-52 ≤ q) && m * Nat.pow 2 (q + 52).toNat == Nat.pow 10 e * Nat.pow 2 52
  | _ => false

/-- **The powers of ten in the table are without error.** -/
theorem unpack_powerOfTen {e : ℕ} (he : e < Float.exactlyRepresentablePowersOfTen.size) :
    ∃ m q h, Float.exactlyRepresentablePowersOfTen[e].toModel.unpack = .finite .positive m q h ∧
      (m * 2 ^ q : ℚ) = 10 ^ e := by
  have htable : ∀ e, (he : e < Float.exactlyRepresentablePowersOfTen.size) →
      isPowerOfTen Float.exactlyRepresentablePowersOfTen[e] e = true := by
    decide +kernel
  have hpower := htable e he
  unfold isPowerOfTen at hpower
  split at hpower
  · rename_i m q h hunpack
    refine ⟨m, q, h, hunpack, ?_⟩
    rw [Bool.and_eq_true, decide_eq_true_iff, beq_iff_eq] at hpower
    obtain ⟨hq, hvalue⟩ := hpower
    have hvalue : (m * 2 ^ (q + 52).toNat : ℚ) = 10 ^ e * 2 ^ 52 := by exact_mod_cast hvalue
    have hsplit := Dyadic.two_zpow_add (-52) (q + 52).toNat
    rw [show (-52 : ℤ) + (q + 52).toNat = q by omega] at hsplit
    rw [hsplit, ← mul_assoc, hvalue, mul_assoc]
    norm_num
  · cases hpower

/-! ### Exponents within reach -/

section Covered

variable {x : Dyadic} {m : ℕ} {e : ℤ}

theorem pow_1075_lt : (2 : ℕ) ^ 1075 < 10 ^ 324 := by decide +kernel

theorem pow_1024_lt : (2 : ℕ) ^ 1024 < 10 ^ 309 := by decide +kernel

/-- A decimal that a number covers has its first digit within reach. -/
theorem places_of_covers (hx : x.Stored) (hm : m ≠ 0) (h : x.Covers (m * 10 ^ e)) :
    -324 ≤ e + (numeral m).length ∧ e + (numeral m).length ≤ 309 := by
  have hbottom := h.bottom_le hx
  have htop := h.lt_top hx
  have hunit : (0 : ℚ) < 10 ^ e := zpow_pos (by norm_num) e
  have hlength : 0 < (numeral m).length := List.length_pos_of_ne_nil (numeral_ne_nil m)
  have hlt : (m : ℚ) < 10 ^ (numeral m).length := by exact_mod_cast lt_pow_numeral m
  have hge : (10 : ℚ) ^ ((numeral m).length - 1) ≤ m := by exact_mod_cast pow_le_of_numeral hm
  constructor
  · have hfirst : (10 : ℚ) ^ (-324 : ℤ) < 10 ^ (e + (numeral m).length) := by
      calc (10 : ℚ) ^ (-324 : ℤ) = ((10 ^ 324 : ℕ) : ℚ)⁻¹ := by rw [zpow_neg, Nat.cast_pow]; rfl
        _ < ((2 ^ 1075 : ℕ) : ℚ)⁻¹ :=
          inv_strictAnti₀ (by positivity) (by exact_mod_cast pow_1075_lt)
        _ = 2 ^ (-1075 : ℤ) := by rw [zpow_neg, Nat.cast_pow]; rfl
        _ ≤ m * 10 ^ e := hbottom
        _ < 10 ^ (numeral m).length * 10 ^ e := mul_lt_mul_of_pos_right hlt hunit
        _ = 10 ^ (e + (numeral m).length) := by
          rw [zpow_add₀ (by norm_num), zpow_natCast, mul_comm]
    exact ((zpow_lt_zpow_iff_right₀ (by norm_num)).mp hfirst).le
  · have hfirst : (10 : ℚ) ^ (e + ((numeral m).length - 1 : ℕ)) < 10 ^ (309 : ℤ) := by
      calc (10 : ℚ) ^ (e + ((numeral m).length - 1 : ℕ))
          = 10 ^ ((numeral m).length - 1) * 10 ^ e := by
            rw [zpow_add₀ (by norm_num), zpow_natCast, mul_comm]
        _ ≤ m * 10 ^ e := mul_le_mul_of_nonneg_right hge hunit.le
        _ < 2 ^ (1024 : ℤ) := htop
        _ < 10 ^ (309 : ℤ) := by exact_mod_cast pow_1024_lt
    have := (zpow_lt_zpow_iff_right₀ (by norm_num)).mp hfirst
    omega

/-- A number has no more digits than bits. -/
theorem length_numeral_le (hm : m ≠ 0) : (numeral m).length ≤ m.log2 + 1 := by
  have hpow : 2 ^ ((numeral m).length - 1) < 2 ^ (m.log2 + 1) :=
    calc 2 ^ ((numeral m).length - 1) ≤ 10 ^ ((numeral m).length - 1) :=
          Nat.pow_le_pow_left (by norm_num) _
      _ ≤ m := pow_le_of_numeral hm
      _ < 2 ^ (m.log2 + 1) := Nat.lt_log2_self
  have := (Nat.pow_lt_pow_iff_right (by norm_num)).mp hpow
  omega

/-! ### Both ways -/

/-- A floating-point number that is a given positive number. -/
def Dyadic.Unpacked (x : Dyadic) (f : Float) : Prop :=
  ∃ h, f.toModel.unpack = .finite .positive x.mantissa x.exponent h

theorem Dyadic.Unpacked.ofModel_eq {f : Float} {u : UnpackedFloat} (hf : x.Unpacked f)
    (hpos : 0 < x.mantissa) (hu : u = .finite .positive x.mantissa x.exponent hpos) :
    Float.ofModel (.pack u) = f := by
  obtain ⟨h, hunpack⟩ := hf
  have hmodel := pack_toModel_unpack f
  rw [hunpack, ← hu] at hmodel
  rw [hmodel]

/-- A long decimal is a product or a quotient of whole numbers. -/
theorem ofScientific_model_of_covers {f : Float} (hx : x.Stored) (hf : x.Unpacked f) (hm : m ≠ 0)
    (h : x.Covers (m * 10 ^ e)) : Float.ofModel (.ofScientific m e) = f := by
  have hpos := hx.canonical.mantissa_pos
  obtain ⟨hlow, hhigh⟩ := places_of_covers hx hm h
  have hlength := length_numeral_le hm
  have hlength' : 0 < (numeral m).length := List.length_pos_of_ne_nil (numeral_ne_nil m)
  refine hf.ofModel_eq hpos ?_
  rw [UnpackedFloat.ofScientific, dif_neg hm,
    if_neg (by show ¬ e > 2048; omega), if_neg (by show ¬ e < -(2048 + (m.log2 : ℤ)); omega)]
  split
  · rename_i he
    refine mul_of_covers hx ?_ ?_
    · rw [Nat.shiftLeft_eq]
      have hpower : ((10 ^ e.toNat : ℕ) : ℚ) = 10 ^ e := by
        rw [Nat.cast_pow, Nat.cast_ofNat, ← zpow_natCast, Int.toNat_of_nonneg he]
      have hshift : (2 : ℚ) ^ 53 * 2 ^ (-53 : ℤ) = 1 := by norm_num
      have hproduct : ((m * 2 ^ 53 : ℕ) * 2 ^ (-53 : ℤ) * ((10 ^ e.toNat : ℕ) * 2 ^ (0 : ℤ)) : ℚ)
          = m * 10 ^ e := by
        rw [hpower, Nat.cast_mul, Nat.cast_pow, Nat.cast_ofNat, mul_assoc (m : ℚ), hshift]
        ring
      exact hproduct ▸ h
    · rw [Nat.shiftLeft_eq]
      calc 2 ^ 52 ≤ 1 * 2 ^ 53 * 1 := by norm_num
        _ ≤ m * 2 ^ 53 * 10 ^ e.toNat :=
          Nat.mul_le_mul (Nat.mul_le_mul_right _ (by omega)) (Nat.pos_of_ne_zero (by positivity))
  · rename_i he
    refine div_of_covers hx ?_
    have hpower : ((10 ^ (-e).toNat : ℕ) : ℚ) = (10 ^ e)⁻¹ := by
      rw [Nat.cast_pow, Nat.cast_ofNat, ← zpow_natCast, Int.toNat_of_nonneg (by omega), zpow_neg]
    rw [hpower, zpow_zero, mul_one, mul_one, div_inv_eq_mul]
    exact h

/-- A short one is a product or a quotient of numbers without error. -/
theorem ofScientific_of_covers {f : Float} (hx : x.Stored) (hf : x.Unpacked f) (hm : m ≠ 0)
    (h : x.Covers (m * 10 ^ e)) : Float.ofScientific m (decide (e < 0)) e.natAbs = f := by
  have hpos := hx.canonical.mantissa_pos
  unfold Float.ofScientific
  split
  · rename_i hshort
    have hsize : e.natAbs < Float.exactlyRepresentablePowersOfTen.size :=
      Nat.lt_of_le_of_lt hshort.2 (by decide)
    obtain ⟨m₁, e₁, h₁, hunpack₁, hfull, hvalue₁⟩ := unpack_ofNat (Nat.pos_of_ne_zero hm) hshort.1
    obtain ⟨m₂, e₂, h₂, hunpack₂, hvalue₂⟩ := unpack_powerOfTen hsize
    simp only [decide_eq_true_eq]
    split
    · rename_i he
      refine hf.ofModel_eq hpos ?_
      rw [hunpack₁, hunpack₂]
      refine div_of_covers hx ?_
      rw [hvalue₁, hvalue₂, ← zpow_natCast, show (e.natAbs : ℤ) = -e by omega, zpow_neg,
        div_inv_eq_mul]
      exact h
    · rename_i he
      refine hf.ofModel_eq hpos ?_
      rw [hunpack₁, hunpack₂]
      refine mul_of_covers hx ?_ (hfull.trans (Nat.le_mul_of_pos_right _ h₂))
      rw [hvalue₁, hvalue₂, ← zpow_natCast, show (e.natAbs : ℤ) = e by omega]
      exact h
  · have hexponent : (if decide (e < 0) = true then Int.negOfNat e.natAbs else Int.ofNat e.natAbs)
        = e := by
      split
      · rename_i he
        rw [decide_eq_true_iff] at he
        rw [Int.negOfNat_eq]
        show -(e.natAbs : ℤ) = e
        omega
      · rename_i he
        rw [decide_eq_true_iff] at he
        show (e.natAbs : ℤ) = e
        omega
    rw [hexponent]
    exact ofScientific_model_of_covers hx hf hm h

/-- **A decimal gives the floating-point number that covers it.** -/
theorem nearest_of_covers {f : Float} (hx : x.Stored) (hf : x.Unpacked f)
    (h : x.Covers (m * 10 ^ e)) : nearest m e = f := by
  have hm : m ≠ 0 := by
    rintro rfl
    have := h.pos hx
    simp at this
  obtain ⟨hlow, hhigh⟩ := places_of_covers hx hm h
  unfold nearest
  rw [if_neg hm, if_neg (by omega), if_neg (by omega)]
  exact ofScientific_of_covers hx hf hm h

end Covered

end EliminationOrder.Decimal
