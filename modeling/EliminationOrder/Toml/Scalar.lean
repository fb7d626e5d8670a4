/-
Numbers, truth values, dates and times of TOML.

All of them are made of letters, digits and a few signs, so a scalar is the longest run
of such characters, read as a whole. Digits may be grouped by single underscores.
-/
import EliminationOrder.Decimal.Nearest
import EliminationOrder.Toml.Text
import EliminationOrder.Toml.Value

namespace EliminationOrder.Toml

open Decimal (isDigit digitValue? number nearest)

/-! ### Digits -/

/-- The digits of a group of digits, without the single underscores between them. -/
def ungroup (ok : Char → Bool) : List Char → Option (List Char)
  | [] => none
  | [c] => if ok c then some [c] else none
  | c :: '_' :: cs =>
    if ok c then do
      let rest ← ungroup ok cs
      return c :: rest
    else none
  | c :: cs =>
    if ok c then do
      let rest ← ungroup ok cs
      return c :: rest
    else none

/-- Digits of a number that does not begin with a needless zero. -/
def readWhole (s : List Char) : Option (List Char) := do
  let ds ← ungroup isDigit s
  match ds with
  | '0' :: _ :: _ => none
  | ds => some ds

/-- The sign in front of a number, and the rest. -/
def splitSign : List Char → Bool × List Char
  | '-' :: cs => (true, cs)
  | '+' :: cs => (false, cs)
  | cs => (false, cs)

/-! ### Integers -/

/-- An integer that fits into 64 bits with a sign. -/
def inWord (n : Int) : Option Int :=
  if Int64.minValue.toInt ≤ n ∧ n ≤ Int64.maxValue.toInt then some n else none

/-- A number in a base other than ten, which has no sign. -/
def readBase (base : Nat) (ok : Char → Bool) (s : List Char) : Option Int := do
  let ds ← ungroup ok s
  inWord (number base ds)

/-- An integer in decimal, or in base sixteen, eight or two after its mark. -/
def readInteger (s : List Char) : Option Int :=
  match s with
  | '0' :: 'x' :: cs => readBase 16 (fun c => (digitValue? c).isSome) cs
  | '0' :: 'o' :: cs => readBase 8 (fun c => '0' ≤ c && c ≤ '7') cs
  | '0' :: 'b' :: cs => readBase 2 (fun c => c == '0' || c == '1') cs
  | s => do
    let (negative, s) := splitSign s
    let ds ← readWhole s
    let n : Int := number 10 ds
    inWord (if negative then -n else n)

/-! ### Numbers with a point or an exponent -/

/-- The parts of a number: digits before and after the point, and the exponent. -/
structure DecimalParts where
  whole : List Char
  fraction : List Char
  exponent : Int

/-- The exponent at the end of a number: zero where there is none. -/
def readExponent : List Char → Option Int
  | [] => some 0
  | c :: cs =>
    if c = 'e' ∨ c = 'E' then do
      let (negative, cs) := splitSign cs
      let ds ← ungroup isDigit cs
      let n : Int := number 10 ds
      return if negative then -n else n
    else none

/-- The parts of a number without a sign that has a fraction, an exponent or both. -/
def readParts (s : List Char) : Option DecimalParts := do
  let inGroup := fun c => isDigit c || c == '_'
  let whole ← readWhole (s.takeWhile inGroup)
  match s.dropWhile inGroup with
  | [] => none
  | '.' :: cs =>
    let fraction ← ungroup isDigit (cs.takeWhile inGroup)
    let exponent ← readExponent (cs.dropWhile inGroup)
    return { whole, fraction, exponent }
  | cs =>
    let exponent ← readExponent cs
    return { whole, fraction := [], exponent }

/-- A number with a point or an exponent; what rounds to infinity is no number unless it is negative. -/
def readDecimal (s : List Char) : Option Float := do
  let (negative, s) := splitSign s
  let parts ← readParts s
  let x := nearest (number 10 (parts.whole ++ parts.fraction))
    (parts.exponent - parts.fraction.length)
  if negative then some (-x)
  else if x.isInf then none
  else some x

/-- A number with a point or an exponent, an infinity, or a number that is none. -/
def readFloat (s : List Char) : Option Float :=
  match splitSign s with
  | (negative, ['i', 'n', 'f']) => some (if negative then -1.0 / 0.0 else 1.0 / 0.0)
  | (_, ['n', 'a', 'n']) => some (0.0 / 0.0)
  | _ => readDecimal s

/-! ### Dates and times -/

/-- The number that exactly two digits write, if it is at most `top`. -/
def twoDigits (top : Nat) (s : List Char) : Option Nat :=
  match s with
  | [a, b] =>
    let n := number 10 [a, b]
    if isDigit a && isDigit b && n ≤ top then some n else none
  | _ => none

/-- The number of days of a month. -/
def daysIn (year month : Nat) : Nat :=
  if month = 2 then
    if year % 4 = 0 ∧ (year % 100 ≠ 0 ∨ year % 400 = 0) then 29 else 28
  else if month = 4 ∨ month = 6 ∨ month = 9 ∨ month = 11 then 30
  else 31

/-- Whether the text is a date: year, month and day. -/
def isDate (s : List Char) : Bool :=
  match s with
  | [y₁, y₂, y₃, y₄, '-', m₁, m₂, '-', d₁, d₂] =>
    let year := number 10 [y₁, y₂, y₃, y₄]
    match twoDigits 12 [m₁, m₂], twoDigits 31 [d₁, d₂] with
    | some month, some day =>
      [y₁, y₂, y₃, y₄].all isDigit && 1 ≤ month && 1 ≤ day && day ≤ daysIn year month
    | _, _ => false
  | _ => false

/-- Whether the text is a difference from universal time, or nothing. -/
def isOffset (s : List Char) : Bool :=
  match s with
  | [] => true
  | [c] => c == 'Z' || c == 'z'
  | [sign, h₁, h₂, ':', m₁, m₂] =>
    (sign == '+' || sign == '-') && (twoDigits 23 [h₁, h₂]).isSome && (twoDigits 59 [m₁, m₂]).isSome
  | _ => false

/-- Whether the text is a time of day, with the difference from universal time if `zoned`. -/
def isTime (zoned : Bool) (s : List Char) : Bool :=
  match s with
  | h₁ :: h₂ :: ':' :: m₁ :: m₂ :: ':' :: s₁ :: s₂ :: rest =>
    let rest? := match rest with
      | '.' :: cs => if (cs.takeWhile isDigit).isEmpty then none else some (cs.dropWhile isDigit)
      | rest => some rest
    (twoDigits 23 [h₁, h₂]).isSome && (twoDigits 59 [m₁, m₂]).isSome &&
      (twoDigits 60 [s₁, s₂]).isSome &&
      match rest? with
      | some rest => if zoned then isOffset rest else rest.isEmpty
      | none => false
  | _ => false

/-- Whether the text is a date, a time, or a date and a time with a letter between them. -/
def isMoment (s : List Char) : Bool :=
  isDate s || isTime false s ||
    match s.drop 10 with
    | c :: time => (c == 'T' || c == 't') && isDate (s.take 10) && isTime true time
    | [] => false

/-! ### Any scalar -/

/-- What scalars are made of. -/
def isScalarChar (c : Char) : Bool :=
  c.isAlphanum || c == '+' || c == '-' || c == '_' || c == '.' || c == ':'

/-- The scalar with the given text. -/
def scalar? (s : List Char) : Option Value :=
  if s = ['t', 'r', 'u', 'e'] then some (.boolean true)
  else if s = ['f', 'a', 'l', 's', 'e'] then some (.boolean false)
  else if isMoment s then some (.moment (String.ofList s))
  else
    match readFloat s with
    | some x => some (.float x)
    | none => (readInteger s).map .integer

/-- Reads a scalar. A date may be followed by a blank and a time. -/
def readScalar (s : List Char) : Option (Value × List Char) :=
  let run := s.takeWhile isScalarChar
  let rest := s.dropWhile isScalarChar
  let timed := match rest with
    | ' ' :: cs =>
      let time := cs.takeWhile isScalarChar
      if isDate run && isTime true time then
        some (Value.moment (String.ofList (run ++ ' ' :: time)), cs.dropWhile isScalarChar)
      else none
    | _ => none
  match timed with
  | some reading => some reading
  | none => (scalar? run).map fun v => (v, rest)

end EliminationOrder.Toml
