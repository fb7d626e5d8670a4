/-
The text of a number in a document.

A decimal is written as digits, a point and digits, with something on either side and no
zero in front that is not needed (`Pointed`), whether the point falls among the digits,
before them or after them.  Zeros are put where they do not change the value, so the text
still stands for the decimal (`write_scaled`), and with the sign in front it is a text that
the number covers (`write_document_cases`).
-/
import EliminationOrder.Decimal.Text
import EliminationOrder.Proofs.Decimal.Shortest

namespace EliminationOrder.Decimal

open HopDegree (magnitude negative infiniteMagnitude)

/-! ### Digits around a point -/

/-- Digits before and after a point, as a document has them. -/
structure Pointed (whole fraction : List Char) : Prop where
  whole_digits : ∀ c ∈ whole, isDigit c = true
  fraction_digits : ∀ c ∈ fraction, isDigit c = true
  whole_ne_nil : whole ≠ []
  fraction_ne_nil : fraction ≠ []
  /-- A zero in front stands alone. -/
  no_needless_zero : ∀ c ds, whole ≠ '0' :: c :: ds

/-- The value of digits around a point. -/
def pointedValue (whole fraction : List Char) : ℚ :=
  number 10 (whole ++ fraction) * 10 ^ (0 - fraction.length : ℤ)

variable {d : Scaled} {n k : ℕ}

theorem isDigit_of_mem_zeros {c : Char} {k : ℕ} (h : c ∈ List.replicate k '0') : isDigit c = true := by
  rw [List.eq_of_mem_replicate h]
  rfl

/-- The numeral of a number begins with a zero that is followed by something for no number. -/
theorem numeral_ne_zero_cons_cons (n : ℕ) (c : Char) (ds : List Char) : numeral n ≠ '0' :: c :: ds := by
  by_cases hn : n = 0
  · rw [hn]
    exact fun h => by cases h
  · exact numeral_ne_zero_cons hn

/-- Zeros go in front of a numeral until one digit is left for the whole part. -/
theorem withPoint_numeral (n places : ℕ) (hplaces : 0 < places) :
    ∃ whole fraction, withPoint (numeral n) places = whole ++ '.' :: fraction ∧
      Pointed whole fraction ∧ number 10 (whole ++ fraction) = n ∧ fraction.length = places := by
  have hdigits : ∀ c ∈ List.replicate (places + 1 - (numeral n).length) '0' ++ numeral n,
      isDigit c = true := by
    intro c hc
    rcases List.mem_append.mp hc with hc | hc
    · exact isDigit_of_mem_zeros hc
    · exact isDigit_of_mem_numeral hc
  have hlength : places + 1 ≤ (List.replicate (places + 1 - (numeral n).length) '0' ++ numeral n).length := by
    rw [List.length_append, List.length_replicate]
    omega
  have hzeros : places + 1 < (List.replicate (places + 1 - (numeral n).length) '0' ++ numeral n).length →
      List.replicate (places + 1 - (numeral n).length) '0' ++ numeral n = numeral n := by
    rw [List.length_append, List.length_replicate]
    intro hlong
    rw [show places + 1 - (numeral n).length = 0 by omega]
    rfl
  have hnumber : number 10 (List.replicate (places + 1 - (numeral n).length) '0' ++ numeral n) = n := by
    rw [number_append, number_zeros, number_numeral, Nat.zero_mul, Nat.zero_add]
  unfold withPoint
  generalize List.replicate (places + 1 - (numeral n).length) '0' ++ numeral n = padded
    at hdigits hlength hzeros hnumber
  refine ⟨padded.take (padded.length - places), padded.drop (padded.length - places), rfl,
    ⟨?_, ?_, ?_, ?_, ?_⟩, ?_, ?_⟩
  · exact fun c hc => hdigits c (List.mem_of_mem_take hc)
  · exact fun c hc => hdigits c (List.mem_of_mem_drop hc)
  · rw [← List.length_pos_iff, List.length_take]
    omega
  · rw [← List.length_pos_iff, List.length_drop]
    omega
  · -- Two digits before the point are the first two of the numeral.
    intro c ds hwhole
    have htwo := congrArg List.length hwhole
    rw [List.length_take, List.length_cons, List.length_cons] at htwo
    have hsplit := List.take_append_drop (padded.length - places) padded
    rw [hwhole, hzeros (by omega)] at hsplit
    exact numeral_ne_zero_cons_cons n _ _ hsplit.symm
  · rw [List.take_append_drop]
    exact hnumber
  · rw [List.length_drop]
    omega

/-- Zeros go behind a numeral as far as the point. -/
theorem numeral_zeros (hn : n ≠ 0 ∨ k = 0) :
    Pointed (numeral n ++ List.replicate k '0') ['0'] ∧
      pointedValue (numeral n ++ List.replicate k '0') ['0'] = n * 10 ^ k := by
  refine ⟨⟨?_, ?_, ?_, by simp, ?_⟩, ?_⟩
  · intro c hc
    rcases List.mem_append.mp hc with hc | hc
    · exact isDigit_of_mem_numeral hc
    · exact isDigit_of_mem_zeros hc
  · intro c hc
    rw [List.mem_singleton.mp hc]
    rfl
  · simp [numeral_ne_nil]
  · intro c ds h
    rcases hn with hn | hn
    · obtain ⟨e, es, hnumeral⟩ := List.exists_cons_of_ne_nil (numeral_ne_nil n)
      rw [hnumeral, List.cons_append, List.cons.injEq] at h
      exact numeral_ne_zero_cons hn (h.1 ▸ hnumeral)
    · rw [hn, List.replicate_zero, List.append_nil] at h
      exact numeral_ne_zero_cons_cons n c ds h
  · rw [pointedValue, number_append, number_append, number_zeros, number_numeral,
      List.length_replicate]
    simp [number, digitValue?]

/-- **A decimal is written as digits around a point that have its value.** -/
theorem write_scaled (hd : d.digits ≠ 0 ∨ d.exponent = 0) :
    ∃ whole fraction, d.write .document = whole ++ '.' :: fraction ∧ Pointed whole fraction ∧
      pointedValue whole fraction = d.digits * 10 ^ d.exponent := by
  unfold Scaled.write
  split
  · rename_i hneg
    obtain ⟨whole, fraction, htext, hpointed, hnumber, hlength⟩ :=
      withPoint_numeral d.digits (-d.exponent).toNat (by omega)
    refine ⟨whole, fraction, htext, hpointed, ?_⟩
    rw [pointedValue, hnumber, hlength]
    congr 2
    omega
  · rename_i hneg
    obtain ⟨hpointed, hvalue⟩ :=
      numeral_zeros (n := d.digits) (k := d.exponent.toNat) (hd.imp_right fun h => by omega)
    refine ⟨numeral d.digits ++ List.replicate d.exponent.toNat '0', ['0'], ?_, hpointed, ?_⟩
    · rw [show Form.document.whole.toList = ['.', '0'] from rfl]
    rw [hvalue, ← zpow_natCast, Int.toNat_of_nonneg (by omega)]

/-! ### Signs, infinities and numbers -/

/-- The sign in front of a number. -/
def signText (f : Float) : List Char :=
  if negative f then ['-'] else []

variable {f : Float}

theorem write_eq (form : Form) (f : Float) :
    write form f =
      if infiniteMagnitude < magnitude f then form.nan.toList
      else if magnitude f = infiniteMagnitude then signText f ++ ['i', 'n', 'f']
      else signText f ++ (Dyadic.ofBits (magnitude f)).shortest.write form := by
  have hlt : f.toBits.toNat < UInt64.size := f.toBits.toNat_lt_size
  have hpow : Nat.pow 2 63 = 9223372036854775808 := rfl
  have hinfinite : 2047 * Nat.pow 2 52 = infiniteMagnitude := rfl
  have hsign : (if f.toBits.toNat % 9223372036854775808 < f.toBits.toNat then ['-'] else [])
      = signText f := by
    unfold signText negative
    simp only [UInt64.size, decide_eq_true_eq] at hlt ⊢
    split <;> split <;> first | rfl | omega
  simp only [write, hpow, hinfinite, hsign]
  rfl

/-- The infinity of a sign. -/
theorem eq_infinity (h : magnitude f = infiniteMagnitude) :
    f = if negative f then -1.0 / 0.0 else 1.0 / 0.0 := by
  cases hsign : negative f with
  | false => exact eq_of_sign_magnitude (hsign.trans (by decide +kernel)) (h.trans (by decide +kernel))
  | true => exact eq_of_sign_magnitude (hsign.trans (by decide +kernel)) (h.trans (by decide +kernel))

/-- The zero of a sign. -/
theorem eq_zero (h : magnitude f = 0) : f = if negative f then -0 else 0 := by
  cases hsign : negative f with
  | false => exact eq_of_sign_magnitude (hsign.trans (by decide +kernel)) (h.trans (by decide +kernel))
  | true => exact eq_of_sign_magnitude (hsign.trans (by decide +kernel)) (h.trans (by decide +kernel))

/-- Digits around a point that read back as the number. -/
structure ReadsBack (f : Float) (whole fraction : List Char) : Prop where
  pointed : Pointed whole fraction
  nearest : (if negative f then -nearest (number 10 (whole ++ fraction)) (0 - fraction.length)
    else Decimal.nearest (number 10 (whole ++ fraction)) (0 - fraction.length)) = f
  finite : f.isInf = false

/-- A zero is written as digits that stand for zero. -/
theorem readsBack_zero (h : magnitude f = 0) : ∃ whole fraction,
    (Dyadic.ofBits (magnitude f)).shortest.write .document = whole ++ '.' :: fraction ∧
      ReadsBack f whole fraction := by
  have hshortest : (Dyadic.ofBits 0).shortest = ⟨0, 0⟩ := rfl
  obtain ⟨whole, fraction, htext, hpointed, hvalue⟩ := write_scaled (d := ⟨0, 0⟩) (Or.inr rfl)
  have hnumber : number 10 (whole ++ fraction) = 0 := by
    rw [pointedValue, Nat.cast_zero, zero_mul, mul_eq_zero] at hvalue
    exact_mod_cast hvalue.resolve_right (zpow_pos (by norm_num) _).ne'
  have hnearest : Decimal.nearest 0 (0 - fraction.length) = 0 := by simp [Decimal.nearest]
  have hzero := eq_zero h
  refine ⟨whole, fraction, by rw [h, hshortest, htext], hpointed, ?_, ?_⟩
  · rw [hnumber, hnearest]
    exact hzero.symm
  · rw [hzero]
    split <;> decide +kernel

/-- Any other number is written as digits that it covers. -/
theorem readsBack_finite (h : Finite (magnitude f)) : ∃ whole fraction,
    (Dyadic.ofBits (magnitude f)).shortest.write .document = whole ++ '.' :: fraction ∧
      ReadsBack f whole fraction := by
  obtain ⟨hstored, -⟩ := stored_ofBits h
  have hcovers := Dyadic.covers_shortest hstored.canonical.mantissa_pos
  have hdigits : (Dyadic.ofBits (magnitude f)).shortest.digits ≠ 0 := by
    intro hnone
    rw [hnone] at hcovers
    have := hcovers.pos hstored
    simp at this
  obtain ⟨whole, fraction, htext, hpointed, hvalue⟩ := write_scaled (Or.inl hdigits)
  rw [← hvalue] at hcovers
  exact ⟨whole, fraction, htext, hpointed, signed_nearest_of_covers h hcovers, not_isInf_of_finite h⟩

/-- **A number is written as an infinity, or as digits around a point that read back as it.** -/
theorem write_document_cases (h : f.isNaN = false) :
    (write .document f = signText f ++ ['i', 'n', 'f'] ∧
      f = if negative f then -1.0 / 0.0 else 1.0 / 0.0) ∨
    ∃ whole fraction, write .document f = signText f ++ (whole ++ '.' :: fraction) ∧
      ReadsBack f whole fraction := by
  have hle := magnitude_le h
  rw [write_eq, if_neg (by omega)]
  split
  · rename_i hinfinite
    exact Or.inl ⟨rfl, eq_infinity hinfinite⟩
  · rename_i hfinite
    have hreads : ∃ whole fraction,
        (Dyadic.ofBits (magnitude f)).shortest.write .document = whole ++ '.' :: fraction ∧
          ReadsBack f whole fraction := by
      by_cases hzero : magnitude f = 0
      · exact readsBack_zero hzero
      · exact readsBack_finite ⟨by omega, by omega⟩
    obtain ⟨whole, fraction, htext, hreads⟩ := hreads
    exact Or.inr ⟨whole, fraction, by rw [htext], hreads⟩

end EliminationOrder.Decimal
