/-
The total order of floating-point numbers.

Scores are compared in an order that has a place for every number: the two zeros are
apart, and a number that is none stands beyond the infinity of its sign.  `Precedes` says
this order on sign and magnitude, where the magnitude is the number with its sign bit
cleared, read as a word.  `rank_lt_iff` and `rank_inj` show that ranks compare in it, and
that numbers of one rank are one number.

It is no arbitrary order of words: of two numbers that compare by value, the smaller comes
first (`precedes_of_lt`).  A word holds the exponent above the mantissa, and both are in
canonical form, so the magnitude of a finite number grows with its value
(`Canonical.lt_of_lex`) and stays below that of an infinity (`Canonical.between`).
-/
import EliminationOrder.Ordering.HopDegree
import Mathlib

namespace EliminationOrder.HopDegree

variable {x y : Float}

/-- Whether the sign bit of a number is set. -/
def negative (x : Float) : Bool :=
  UInt64.size / 2 ≤ x.toBits.toNat

/-- The bits of a number, but for its sign. -/
def magnitude (x : Float) : Nat :=
  x.toBits.toNat % (UInt64.size / 2)

/-- The total order: negative numbers first, and those by falling magnitude. -/
def Precedes (x y : Float) : Prop :=
  match negative x, negative y with
  | true, false => True
  | false, true => False
  | false, false => magnitude x < magnitude y
  | true, true => magnitude y < magnitude x

/-! ### Ranks -/

theorem rank_eq (x : Float) :
    rank x = if negative x then -1 - (magnitude x : Int) else (magnitude x : Int) := by
  have hlt : x.toBits.toNat < UInt64.size := x.toBits.toNat_lt_size
  unfold rank negative magnitude
  generalize x.toBits.toNat = bits at hlt
  simp only [UInt64.size, decide_eq_true_eq, Int.ofNat_eq_natCast] at hlt ⊢
  split <;> split <;> omega

theorem rank_lt_iff : rank x < rank y ↔ Precedes x y := by
  rw [rank_eq, rank_eq, Precedes]
  cases negative x <;> cases negative y <;> simp <;> omega

/-- A number is its bits. -/
theorem toBits_inj : x.toBits = y.toBits ↔ x = y := by
  constructor
  · intro h
    obtain ⟨⟨bits, hx⟩⟩ := x
    obtain ⟨⟨bits', hy⟩⟩ := y
    obtain rfl : bits = bits' := h
    rfl
  · rintro rfl
    rfl

/-- **Different numbers have different ranks.** -/
theorem rank_inj : rank x = rank y ↔ x = y := by
  rw [← toBits_inj, ← UInt64.toNat_inj]
  have hx : x.toBits.toNat < UInt64.size := x.toBits.toNat_lt_size
  have hy : y.toBits.toNat < UInt64.size := y.toBits.toNat_lt_size
  unfold rank
  generalize x.toBits.toNat = bits at hx
  generalize y.toBits.toNat = bits' at hy
  simp only [UInt64.size, Int.ofNat_eq_natCast] at hx hy ⊢
  split <;> split <;> omega

/-! ### Values

Numbers are compared by value after they are unpacked to sign, mantissa and exponent.  The
numerals are `2 ^ 52`, `2 ^ 53` and `2 ^ 63`, and `-1074` is the smallest exponent.
-/

section Values

open Float.Model Float.Model.UnpackedFloat

variable {m m' n n' : Nat} {e e' : Int} {u v : UnpackedFloat} {s s' : Sign}

/-- Mantissa and exponent of a finite number in canonical form. -/
structure Canonical (m : Nat) (e : Int) : Prop where
  mantissa_pos : 0 < m
  mantissa_lt : m < 9007199254740992
  exponent_ge : -1074 ≤ e
  exponent_le : e ≤ 971
  /-- The mantissa has no bit to spare, unless the exponent is the smallest. -/
  normal : 4503599627370496 ≤ m ∨ e = -1074

/-- The magnitude `n` has exponent `e` above mantissa `m`. -/
def Encodes (n m : Nat) (e : Int) : Prop :=
  (n : Int) = (e + 1074) * 4503599627370496 + m

/-- The magnitude of the infinities. -/
def infiniteMagnitude : Nat :=
  9218868437227405312

/-- What sign and magnitude unpack to, if that is a number. -/
inductive Form : UnpackedFloat → Sign → Nat → Prop
  | infinity (s : Sign) : Form (.infinity s) s infiniteMagnitude
  | zero (s : Sign) : Form (.zero s) s 0
  | finite {s : Sign} {n m : Nat} {e : Int} {h : 0 < m} (hcanonical : Canonical m e)
      (hn : Encodes n m e) : Form (.finite s m e h) s n

/-- **A finite number has a magnitude between those of zero and of infinity.** -/
theorem Canonical.between (h : Canonical m e) (hn : Encodes n m e) :
    0 < n ∧ n < infiniteMagnitude := by
  obtain ⟨hpos, hlt, hge, hle, -⟩ := h
  unfold Encodes at hn
  unfold infiniteMagnitude
  omega

/-- **The magnitude grows** with the exponent, and with the mantissa where that is one. -/
theorem Canonical.lt_of_lex (h : Canonical m e) (hn : Encodes n m e) (h' : Canonical m' e')
    (hn' : Encodes n' m' e') (hlex : e < e' ∨ e = e' ∧ m < m') : n < n' := by
  have hlt := h.mantissa_lt
  have hge := h.exponent_ge
  have hnormal := h'.normal
  unfold Encodes at hn hn'
  omega

/-- Below the least exponent that is written, the magnitude is the mantissa. -/
theorem Form.subnormal {hm : 0 < m} (hlt : n < 4503599627370496) (hmn : m = n)
    (he : e = -1074) : Form (.finite s m e hm) s n := by
  subst hmn he
  have hencodes : Encodes m m (-1074) := by
    unfold Encodes
    omega
  exact Form.finite ⟨hm, by omega, by omega, by omega, Or.inr rfl⟩ hencodes

/-- Above it, the exponent stands for one more bit of the mantissa. -/
theorem Form.normal {hm : 0 < m} (hge : 4503599627370496 ≤ n) (hlt : n < infiniteMagnitude)
    (hmn : m = 4503599627370496 + n % 4503599627370496)
    (he : e = n / 4503599627370496 - 1075) : Form (.finite s m e hm) s n := by
  subst hmn he
  have hencodes : Encodes n (4503599627370496 + n % 4503599627370496)
      (n / 4503599627370496 - 1075) := by
    unfold Encodes
    omega
  unfold infiniteMagnitude at hlt
  exact Form.finite ⟨hm, by omega, by omega, by omega, Or.inl (by omega)⟩ hencodes

/-- The integer that a sign makes of a magnitude. -/
def signed : Sign → Nat → Int
  | .positive, n => n
  | .negative, n => -n

@[simp] theorem signed_positive (n : Nat) : signed .positive n = n :=
  rfl

@[simp] theorem signed_negative (n : Nat) : signed .negative n = -n :=
  rfl

@[simp] theorem signed_zero (s : Sign) : signed s 0 = 0 := by
  cases s <;> rfl

/-- Finite numbers that compare have magnitudes that compare, the other way if negative. -/
theorem signed_lt_of_finite {hm : 0 < m} {hm' : 0 < m'} (hc : Canonical m e)
    (hn : Encodes n m e) (hc' : Canonical m' e') (hn' : Encodes n' m' e')
    (h : (UnpackedFloat.finite s m e hm).compare (.finite s' m' e' hm') = some .lt) :
    signed s n < signed s' n' := by
  have hpos := (hc.between hn).1
  have hpos' := (hc'.between hn').1
  cases s with
  | positive =>
      cases s' with
      | positive =>
          have hlex : e < e' ∨ e = e' ∧ m < m' := by
            simpa [UnpackedFloat.compare, Ordering.then_eq_lt, Int.compare_eq_lt,
              Nat.compare_eq_lt] using h
          have := hc.lt_of_lex hn hc' hn' hlex
          rw [signed_positive, signed_positive]
          omega
      | negative => simp [UnpackedFloat.compare] at h
  | negative =>
      rw [signed_negative]
      cases s' with
      | positive =>
          rw [signed_positive]
          omega
      | negative =>
          have hlex : e' < e ∨ e = e' ∧ m' < m := by
            simpa [UnpackedFloat.compare, Ordering.then_eq_gt, Int.compare_eq_gt,
              Nat.compare_eq_gt] using h
          have := hc'.lt_of_lex hn' hc hn (by omega)
          rw [signed_negative]
          omega

/-- **What is smaller by value has the smaller magnitude**, taken with its sign. -/
theorem Form.signed_lt (hu : Form u s n) (hv : Form v s' n') (h : u.compare v = some .lt) :
    signed s n < signed s' n' := by
  have hinfinite : 0 < infiniteMagnitude := by decide
  cases hu with
  | infinity =>
      -- Only a negative infinity is smaller than anything.
      cases hv with
      | infinity => cases s <;> cases s' <;> simp [UnpackedFloat.compare, compare] at h ⊢; omega
      | zero => cases s <;> simp [UnpackedFloat.compare] at h ⊢; omega
      | finite hc' hn' =>
          have := hc'.between hn'
          cases s <;> cases s' <;> simp [UnpackedFloat.compare] at h ⊢ <;> omega
  | zero =>
      cases hv with
      | infinity => cases s' <;> simp [UnpackedFloat.compare] at h ⊢; omega
      | zero => simp [UnpackedFloat.compare] at h
      | finite hc' hn' =>
          have := hc'.between hn'
          cases s' <;> simp [UnpackedFloat.compare] at h ⊢; omega
  | finite hc hn =>
      cases hv with
      | infinity =>
          have := hc.between hn
          cases s <;> cases s' <;> simp [UnpackedFloat.compare] at h ⊢ <;> omega
      | zero =>
          have := hc.between hn
          cases s <;> simp [UnpackedFloat.compare] at h ⊢; omega
      | finite hc' hn' => exact signed_lt_of_finite hc hn hc' hn' h

/-! ### Unpacking -/

theorem toNat_unpackMantissa (b : BitVec 64) :
    (@unpackMantissa Format.binary64 b).toNat = b.toNat % 4503599627370496 := by
  simp [unpackMantissa_def]

theorem toNat_unpackExponent (b : BitVec 64) :
    (@unpackExponent Format.binary64 b).toNat = b.toNat / 4503599627370496 % 2048 := by
  simp [unpackExponent_def, Nat.shiftRight_eq_div_pow]

/-- The sign that a number is unpacked to. -/
def sign (x : Float) : Sign :=
  if negative x then .negative else .positive

theorem ofBitVec_unpackSign (x : Float) :
    Sign.ofBitVec (@unpackSign Format.binary64 x.toBits.toBitVec) = sign x := by
  have hlt : x.toBits.toNat < UInt64.size := x.toBits.toNat_lt_size
  have hbit : @unpackSign Format.binary64 x.toBits.toBitVec = 0#1
      ↔ x.toBits.toNat / 9223372036854775808 % 2 = 0 := by
    rw [← BitVec.toNat_inj]
    simp [unpackSign_def, Nat.shiftRight_eq_div_pow]
  unfold Sign.ofBitVec sign negative
  simp only [UInt64.size, decide_eq_true_eq, hbit] at hlt ⊢
  split <;> split <;> first | rfl | omega

/-- **Every number unpacks to its sign and magnitude.** -/
theorem form_unpack (hnan : x.toModel.unpack ≠ .notANumber) :
    Form x.toModel.unpack (sign x) (magnitude x) := by
  revert hnan
  show UnpackedFloat.unpack Format.binary64 x.toBits.toBitVec ≠ .notANumber →
    Form (UnpackedFloat.unpack Format.binary64 x.toBits.toBitVec) (sign x) (magnitude x)
  set bits := x.toBits.toBitVec with hbits
  have hmagnitude : magnitude x = bits.toNat % 9223372036854775808 := rfl
  have hmantissa := toNat_unpackMantissa bits
  have hexponent := toNat_unpackExponent bits
  have hones : @unpackExponent Format.binary64 bits = -1#11
      ↔ bits.toNat / 4503599627370496 % 2048 = 2047 := by
    rw [← BitVec.toNat_inj, hexponent]
    rfl
  have hnone : @unpackExponent Format.binary64 bits = 0#11
      ↔ bits.toNat / 4503599627370496 % 2048 = 0 := by
    rw [← BitVec.toNat_inj, hexponent]
    rfl
  have hzero : @unpackMantissa Format.binary64 bits = 0#52
      ↔ bits.toNat % 4503599627370496 = 0 := by
    rw [← BitVec.toNat_inj, hmantissa]
    rfl
  have hbias : Format.binary64.exponentBias = 1023 := rfl
  have hinfinite : infiniteMagnitude = 2047 * 4503599627370496 := rfl
  unfold UnpackedFloat.unpack
  dsimp only
  rw [hbits, ofBitVec_unpackSign, ← hbits]
  split
  · -- The largest exponent is that of the infinities, and of what is no number.
    rename_i he
    rw [hones] at he
    split
    · rename_i hm
      rw [hzero] at hm
      intro _
      rw [show magnitude x = infiniteMagnitude by omega]
      exact Form.infinity _
    · exact fun hnan => absurd rfl hnan
  · rename_i he
    rw [hones] at he
    split
    · -- The smallest is that of zero, and of the numbers without a leading bit.
      rename_i he'
      rw [hnone] at he'
      split
      · rename_i hm
        rw [hzero] at hm
        intro _
        rw [show magnitude x = 0 by omega]
        exact Form.zero _
      · intro _
        exact Form.subnormal (by omega) (by omega) (by rw [hbias]; omega)
    · rename_i he'
      rw [hnone] at he'
      intro _
      have hleading : (1#1 ++ @unpackMantissa Format.binary64 bits).toNat
          = 4503599627370496 + bits.toNat % 4503599627370496 := by
        rw [BitVec.toNat_append, ← Nat.shiftLeft_add_eq_or_of_lt (BitVec.isLt _), hmantissa]
        rfl
      exact Form.normal (by omega) (by omega) (by omega) (by rw [hbias]; omega)

/-- **The order is that of values**, where values compare. -/
theorem precedes_of_lt (h : x < y) : Precedes x y := by
  have hmodel : x.toModel < y.toModel := of_decide_eq_true h
  have hcompare : x.toModel.unpack.compare y.toModel.unpack = some .lt := eq_of_beq hmodel
  have hx : x.toModel.unpack ≠ .notANumber := by
    intro hc
    simp [hc, UnpackedFloat.compare] at hcompare
  have hy : y.toModel.unpack ≠ .notANumber := by
    intro hc
    cases hu : x.toModel.unpack <;> simp [hu, hc, UnpackedFloat.compare] at hcompare
  have hlt := (form_unpack hx).signed_lt (form_unpack hy) hcompare
  unfold sign at hlt
  unfold Precedes
  cases hnx : negative x <;> cases hny : negative y <;> simp [hnx, hny] at hlt ⊢ <;> omega

end Values

end EliminationOrder.HopDegree
