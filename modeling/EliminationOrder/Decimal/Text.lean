/-
Floating-point numbers as text, without an exponent.

The digits are the shortest that read back. They are written out in full, with zeros
before or after them as far as the point. Two forms differ in how they write numbers
without a fraction and numbers that are not finite: messages for people, and documents
that are read back.
-/
import EliminationOrder.Decimal.Digits
import EliminationOrder.Decimal.Shortest

namespace EliminationOrder.Decimal

/-- What a form of writing numbers decides. -/
structure Form where
  /-- What follows the digits of a number without a fraction. -/
  whole : String
  nan : String

/-- For messages: `1`, `0.5`, `NaN`. -/
def Form.message : Form :=
  { whole := "", nan := "NaN" }

/-- For documents, where the point tells numbers from whole numbers: `1.0`, `0.5`, `nan`. -/
def Form.document : Form :=
  { whole := ".0", nan := "nan" }

/-- Puts a point before the last `places` digits, with zeros in front where there are too few. -/
def withPoint (ds : List Char) (places : Nat) : List Char :=
  let padded := List.replicate (places + 1 - ds.length) '0' ++ ds
  padded.take (padded.length - places) ++ '.' :: padded.drop (padded.length - places)

/-- A decimal written out in full. -/
def Scaled.write (form : Form) (d : Scaled) : List Char :=
  if d.exponent < 0 then withPoint (numeral d.digits) (-d.exponent).toNat
  else numeral d.digits ++ List.replicate d.exponent.toNat '0' ++ form.whole.toList

/-- A number in the given form. -/
def write (form : Form) (x : Float) : List Char :=
  let bits := x.toBits.toNat
  let magnitude := bits % Nat.pow 2 63
  let sign := if magnitude < bits then ['-'] else []
  let infinite := 2047 * Nat.pow 2 52
  if infinite < magnitude then form.nan.toList
  else if magnitude = infinite then sign ++ ['i', 'n', 'f']
  else sign ++ (Dyadic.ofBits magnitude).shortest.write form

end EliminationOrder.Decimal
