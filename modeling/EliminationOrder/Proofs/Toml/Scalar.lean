/-
Numbers in a document read back as what they were written for.

A scalar is the longest run of certain characters, tried as a truth value, a moment, a
number with a point and a whole number, in this order.  Digits around a point are not taken
for any of the earlier kinds: a moment has a colon or a minus sign after its first
character (`mem_of_isMoment`), and a number has neither.  So a floating-point number comes
back as itself (`scalar?_write`), and a whole number in range does (`scalar?_numeral`).
-/
import EliminationOrder.Proofs.Decimal.Text
import EliminationOrder.Toml.Scalar

namespace EliminationOrder.Toml

open Decimal (isDigit ne_of_class not_mem_of_class number numeral signText ReadsBack Pointed)

variable {p : Char → Bool} {c d : Char} {s ds whole fraction rest : List Char}

/-! ### Runs -/

theorem takeWhile_run (hs : ∀ c ∈ s, p c = true) (hd : p d = false) :
    (s ++ d :: rest).takeWhile p = s := by
  rw [List.takeWhile_append_of_pos hs, List.takeWhile_cons_of_neg (by rw [hd]; exact Bool.false_ne_true),
    List.append_nil]

theorem dropWhile_run (hs : ∀ c ∈ s, p c = true) (hd : p d = false) :
    (s ++ d :: rest).dropWhile p = d :: rest := by
  rw [List.dropWhile_append_of_pos hs, List.dropWhile_cons_of_neg (by rw [hd]; exact Bool.false_ne_true)]

/-! ### Digits -/

/-- Digits without underscores are one group. -/
theorem ungroup_digits (h : ∀ c ∈ ds, isDigit c = true) (hne : ds ≠ []) :
    ungroup isDigit ds = some ds := by
  induction ds with
  | nil => exact absurd rfl hne
  | cons c ds ih =>
      have hc := h c List.mem_cons_self
      have hds : ∀ c ∈ ds, isDigit c = true := fun c hc => h c (List.mem_cons_of_mem _ hc)
      cases ds with
      | nil => rw [ungroup, if_pos hc]
      | cons d ds =>
          have hd : d ≠ '_' := ne_of_class (hds d List.mem_cons_self) rfl
          rw [ungroup, if_pos hc, ih hds (List.cons_ne_nil _ _)]
          · rfl
          · exact List.cons_ne_nil _ _
          · exact fun _ h => hd (List.cons.inj h).1

theorem readWhole_digits (h : ∀ c ∈ ds, isDigit c = true) (hne : ds ≠ [])
    (hzero : ∀ c es, ds ≠ '0' :: c :: es) : readWhole ds = some ds := by
  -- Only a zero with something behind it is turned down, and `hzero` excludes that.
  simp only [readWhole, ungroup_digits h hne, Option.bind_eq_bind, Option.bind_some]

/-- A sign is only split off where there is one. -/
theorem splitSign_digits (hc : isDigit c = true) : splitSign (c :: ds) = (false, c :: ds) := by
  unfold splitSign
  split
  · rename_i h
    exact absurd (List.cons.inj h).1 (ne_of_class hc rfl)
  · rename_i h
    exact absurd (List.cons.inj h).1 (ne_of_class hc rfl)
  · rfl

/-! ### Numbers with a point -/

/-- **Digits around a point are read as the parts of a number.** -/
theorem readParts_pointed (h : Pointed whole fraction) :
    readParts (whole ++ '.' :: fraction) = some ⟨whole, fraction, 0⟩ := by
  have hgroup : ∀ {ds : List Char}, (∀ c ∈ ds, isDigit c = true) →
      ∀ c ∈ ds, (isDigit c || c == '_') = true := fun h c hc => by rw [h c hc]; rfl
  have hpoint : (isDigit '.' || '.' == '_') = false := rfl
  unfold readParts
  dsimp only
  rw [takeWhile_run (hgroup h.whole_digits) hpoint, dropWhile_run (hgroup h.whole_digits) hpoint,
    readWhole_digits h.whole_digits h.whole_ne_nil h.no_needless_zero]
  show (do
    let fraction' ← ungroup isDigit (fraction.takeWhile fun c => isDigit c || c == '_')
    let exponent ← readExponent (fraction.dropWhile fun c => isDigit c || c == '_')
    return DecimalParts.mk whole fraction' exponent) = _
  rw [List.takeWhile_eq_self_iff.mpr (hgroup h.fraction_digits),
    List.dropWhile_eq_nil_iff.mpr (hgroup h.fraction_digits),
    ungroup_digits h.fraction_digits h.fraction_ne_nil]
  rfl

/-- Digits around a point, with a sign in front if there is one, are read as the number. -/
theorem readDecimal_readsBack {f : Float} (h : ReadsBack f whole fraction) :
    readDecimal (signText f ++ (whole ++ '.' :: fraction)) = some f := by
  have hnearest := h.nearest
  obtain ⟨c, ds, hwhole⟩ := List.exists_cons_of_ne_nil h.pointed.whole_ne_nil
  have hc : isDigit c = true := h.pointed.whole_digits c (by rw [hwhole]; exact List.mem_cons_self)
  have hsign : splitSign (signText f ++ (whole ++ '.' :: fraction))
      = (HopDegree.negative f, whole ++ '.' :: fraction) := by
    unfold signText
    cases HopDegree.negative f with
    | true => rfl
    | false =>
        rw [if_neg Bool.false_ne_true, List.nil_append, hwhole, List.cons_append]
        exact splitSign_digits hc
  unfold readDecimal
  simp only [hsign, readParts_pointed h.pointed, Option.bind_eq_bind, Option.bind_some]
  cases hnegative : HopDegree.negative f with
  | true =>
      rw [hnegative, if_pos rfl] at hnearest
      rw [if_pos rfl, hnearest]
  | false =>
      rw [hnegative, if_neg Bool.false_ne_true] at hnearest
      rw [if_neg Bool.false_ne_true, hnearest, h.finite]
      rfl

/-- **A floating-point number is read as it was written.** -/
theorem readFloat_write {f : Float} (h : f.isNaN = false) :
    readFloat (Decimal.write .document f) = some f := by
  rcases Decimal.write_document_cases h with ⟨htext, hf⟩ | ⟨whole, fraction, htext, hreads⟩
  · rw [htext]
    conv_rhs => rw [hf]
    unfold signText
    cases HopDegree.negative f <;> rfl
  · have hdecimal := readDecimal_readsBack hreads
    obtain ⟨c, ds, hwhole⟩ := List.exists_cons_of_ne_nil hreads.pointed.whole_ne_nil
    have hc : isDigit c = true :=
      hreads.pointed.whole_digits c (by rw [hwhole]; exact List.mem_cons_self)
    have hsplit : ∃ negative, splitSign (signText f ++ (whole ++ '.' :: fraction))
        = (negative, c :: (ds ++ '.' :: fraction)) := by
      unfold signText
      cases HopDegree.negative f with
      | true => exact ⟨true, by rw [hwhole]; rfl⟩
      | false => exact ⟨false, by rw [hwhole]; exact splitSign_digits hc⟩
    obtain ⟨negative, hsplit⟩ := hsplit
    rw [htext]
    unfold readFloat
    rw [hsplit]
    split
    · rename_i hname
      exact absurd (List.cons.inj (Prod.mk.inj hname).2).1 (ne_of_class hc rfl)
    · rename_i hname
      exact absurd (List.cons.inj (Prod.mk.inj hname).2).1 (ne_of_class hc rfl)
    · exact hdecimal

/-! ### Whole numbers -/

/-- Digits alone are no number with a point. -/
theorem readFloat_digits (hc : isDigit c = true) (h : ∀ c ∈ ds, isDigit c = true) :
    readFloat (c :: ds) = none := by
  have hgroup : ∀ d ∈ c :: ds, (isDigit d || d == '_') = true := by
    intro d hd
    rcases List.mem_cons.mp hd with rfl | hd
    · rw [hc]; rfl
    · rw [h d hd]; rfl
  have hparts : readParts (c :: ds) = none := by
    unfold readParts
    dsimp only
    rw [List.takeWhile_eq_self_iff.mpr hgroup, List.dropWhile_eq_nil_iff.mpr hgroup]
    cases readWhole (c :: ds) <;> rfl
  unfold readFloat
  rw [splitSign_digits hc]
  split
  · rename_i hname
    exact absurd (List.cons.inj (Prod.mk.inj hname).2).1 (ne_of_class hc rfl)
  · rename_i hname
    exact absurd (List.cons.inj (Prod.mk.inj hname).2).1 (ne_of_class hc rfl)
  · simp only [readDecimal, splitSign_digits hc, hparts, Option.bind_eq_bind, Option.bind_none]

/-- **A numeral is read as its number**, if that is in the range of integers. -/
theorem readInteger_numeral {n : ℕ} (hn : (n : ℤ) ≤ Int64.maxValue.toInt) :
    readInteger (numeral n) = some (n : ℤ) := by
  have hdigits : ∀ c ∈ numeral n, isDigit c = true := fun c => Decimal.isDigit_of_mem_numeral
  have hzero := Decimal.numeral_ne_zero_cons_cons n
  have hvalue := Decimal.number_numeral n
  have hne := Decimal.numeral_ne_nil n
  have hmin : Int64.minValue.toInt ≤ 0 := by decide
  generalize numeral n = ds at hdigits hzero hvalue hne
  obtain ⟨c, es, rfl⟩ := List.exists_cons_of_ne_nil hne
  have hwhole := readWhole_digits hdigits hne hzero
  unfold readInteger
  split
  · rename_i hmark
    exact absurd hmark (hzero _ _)
  · rename_i hmark
    exact absurd hmark (hzero _ _)
  · rename_i hmark
    exact absurd hmark (hzero _ _)
  · simp only [splitSign_digits (hdigits c List.mem_cons_self), hwhole, hvalue,
      Option.bind_eq_bind, Option.bind_some, Bool.false_eq_true, if_false]
    exact if_pos ⟨by omega, hn⟩

/-! ### Moments -/

theorem mem_of_isDate (h : isDate s = true) : '-' ∈ s.drop 1 := by
  unfold isDate at h
  split at h
  · simp
  · cases h

theorem mem_of_isTime {zoned : Bool} (h : isTime zoned s = true) : ':' ∈ s.drop 1 := by
  unfold isTime at h
  split at h
  · simp
  · cases h

/-- **A moment has a minus sign or a colon after its first character.** -/
theorem mem_of_isMoment (h : isMoment s = true) : '-' ∈ s.drop 1 ∨ ':' ∈ s.drop 1 := by
  unfold isMoment at h
  rw [Bool.or_eq_true, Bool.or_eq_true] at h
  rcases h with (h | h) | h
  · exact Or.inl (mem_of_isDate h)
  · exact Or.inr (mem_of_isTime h)
  · split at h
    · rw [Bool.and_eq_true, Bool.and_eq_true] at h
      have hdate := mem_of_isDate h.1.2
      rw [List.drop_take] at hdate
      exact Or.inl (List.mem_of_mem_take hdate)
    · cases h

/-! ### Scalars -/

/-- What a number is written with, but for its sign. -/
def isNumberChar (c : Char) : Bool :=
  isDigit c || c == '.' || c == 'i' || c == 'n' || c == 'f'

theorem isNumberChar_of_isDigit (hc : isDigit c = true) : isNumberChar c = true := by
  rw [isNumberChar, hc]
  rfl

/-- A text is written like a number, with or without a minus sign in front. -/
structure Numeric (s : List Char) : Prop where
  ne_nil : s ≠ []
  chars : ∀ c ∈ s, (c == '-' || isNumberChar c) = true
  tail : ∀ c ∈ s.drop 1, isNumberChar c = true

theorem numeric_signed (f : Float) (hne : s ≠ []) (hs : ∀ c ∈ s, isNumberChar c = true) :
    Numeric (signText f ++ s) := by
  have hchars : ∀ c ∈ s, (c == '-' || isNumberChar c) = true := fun c hc => by
    rw [hs c hc, Bool.or_true]
  unfold signText
  cases HopDegree.negative f with
  | true => exact ⟨List.cons_ne_nil _ _, List.forall_mem_cons.mpr ⟨rfl, hchars⟩, hs⟩
  | false => exact ⟨hne, hchars, fun c hc => hs c (List.mem_of_mem_drop hc)⟩

/-- A floating-point number is written with digits and a point, or the letters of infinity. -/
theorem numeric_write {f : Float} (h : f.isNaN = false) : Numeric (Decimal.write .document f) := by
  rcases Decimal.write_document_cases h with ⟨htext, -⟩ | ⟨whole, fraction, htext, hreads⟩
  · rw [htext]
    exact numeric_signed f (List.cons_ne_nil _ _) (List.all_eq_true.mp rfl)
  · rw [htext]
    refine numeric_signed f (List.append_ne_nil_of_left_ne_nil hreads.pointed.whole_ne_nil _) ?_
    intro c hc
    rcases List.mem_append.mp hc with hc | hc
    · exact isNumberChar_of_isDigit (hreads.pointed.whole_digits c hc)
    · rcases List.mem_cons.mp hc with rfl | hc
      · rfl
      · exact isNumberChar_of_isDigit (hreads.pointed.fraction_digits c hc)

theorem numeric_numeral (n : ℕ) : Numeric (numeral n) := by
  have hchars : ∀ c ∈ numeral n, isNumberChar c = true := fun c hc =>
    isNumberChar_of_isDigit (Decimal.isDigit_of_mem_numeral hc)
  refine ⟨Decimal.numeral_ne_nil n, fun c hc => ?_, fun c hc => hchars c (List.mem_of_mem_drop hc)⟩
  rw [hchars c hc, Bool.or_true]

/-- **What is written like a number is tried as a number only.** -/
theorem Numeric.scalar?_eq (h : Numeric s) :
    scalar? s = ((readFloat s).map .float).or ((readInteger s).map .integer) := by
  have htrue : s ≠ ['t', 'r', 'u', 'e'] := by
    rintro rfl
    cases h.chars 't' (by simp)
  have hfalse : s ≠ ['f', 'a', 'l', 's', 'e'] := by
    rintro rfl
    cases h.chars 'a' (by simp)
  have hmoment : ¬ isMoment s = true := fun hmoment =>
    (mem_of_isMoment hmoment).elim (not_mem_of_class h.tail rfl) (not_mem_of_class h.tail rfl)
  unfold scalar?
  rw [if_neg htrue, if_neg hfalse, if_neg hmoment]
  cases readFloat s <;> rfl

/-- **The text of a floating-point number is a scalar, that number.** -/
theorem scalar?_write {f : Float} (h : f.isNaN = false) :
    scalar? (Decimal.write .document f) = some (.float f) := by
  rw [(numeric_write h).scalar?_eq, readFloat_write h, Option.map_some, Option.some_or]

/-- **A numeral in range is a scalar, its number.** -/
theorem scalar?_numeral {n : ℕ} (hn : (n : ℤ) ≤ Int64.maxValue.toInt) :
    scalar? (numeral n) = some (.integer n) := by
  have hdigits : ∀ c ∈ numeral n, isDigit c = true := fun c => Decimal.isDigit_of_mem_numeral
  obtain ⟨c, ds, hcons⟩ := List.exists_cons_of_ne_nil (Decimal.numeral_ne_nil n)
  have hfloat : readFloat (numeral n) = none := by
    rw [hcons] at hdigits ⊢
    exact readFloat_digits (hdigits c List.mem_cons_self)
      fun d hd => hdigits d (List.mem_cons_of_mem _ hd)
  rw [(numeric_numeral n).scalar?_eq, hfloat, readInteger_numeral hn, Option.map_none,
    Option.none_or, Option.map_some]

/-- **A scalar that a line break ends is read as far as that.** -/
theorem readScalar_line (hs : ∀ c ∈ s, isScalarChar c = true) :
    readScalar (s ++ '\n' :: rest) = (scalar? s).map fun v => (v, '\n' :: rest) := by
  have hbreak : isScalarChar '\n' = false := rfl
  unfold readScalar
  simp only [takeWhile_run hs hbreak, dropWhile_run hs hbreak]
  rfl

end EliminationOrder.Toml
