/-
The numbers a matrix can hold.

An entry type has a zero, a one, an addition and a test for equality, and says which
integers it can represent. Nothing is asked of the addition: floating-point addition is
not associative, and assembling a matrix uses it exactly as given, from left to right.
The one law is that zero passes the test for being zero.
-/

namespace EliminationOrder

/-- A type of matrix entries. -/
class Entry (α : Type) extends Zero α, One α, Add α, BEq α where
  /-- The integer as an entry, if the type has it. -/
  ofInt? : Int → Option α
  /-- Zero is equal to zero. -/
  zero_beq_zero : ((0 : α) == 0) = true

namespace Entry

/-- Whether an entry counts as an empty position: it equals zero. -/
def isZero {α : Type} [Entry α] (x : α) : Bool :=
  x == 0

end Entry

/-! ### Instances -/

/-- Floating-point entries: negative zero is zero, and a NaN is not. -/
instance : Entry Float where
  zero := 0.0
  one := 1.0
  add x y := x + y
  beq x y := x == y
  ofInt? n := some (Float.ofInt n)
  zero_beq_zero := by decide

/-- Signed words of 64 bits. -/
instance : Entry Int64 where
  zero := 0
  one := 1
  add x y := x + y
  beq x y := x == y
  ofInt? n := if Int64.minValue.toInt ≤ n ∧ n ≤ Int64.maxValue.toInt then some (Int64.ofInt n) else none
  zero_beq_zero := by decide

/-- Unsigned bytes. -/
instance : Entry UInt8 where
  zero := 0
  one := 1
  add x y := x + y
  beq x y := x == y
  ofInt? n := if 0 ≤ n ∧ n < 256 then some (UInt8.ofNat n.toNat) else none
  zero_beq_zero := by decide

/-- A complex number with floating-point parts. -/
structure ComplexFloat where
  re : Float
  im : Float

/-- Complex entries, added and compared part by part. -/
instance : Entry ComplexFloat where
  zero := ⟨0.0, 0.0⟩
  one := ⟨1.0, 0.0⟩
  add z w := ⟨z.re + w.re, z.im + w.im⟩
  beq z w := z.re == w.re && z.im == w.im
  ofInt? n := some ⟨Float.ofInt n, 0.0⟩
  zero_beq_zero := by decide

end EliminationOrder
