/-
The floating-point number nearest to a decimal.
-/
import EliminationOrder.Decimal.Digits

namespace EliminationOrder.Decimal

/--
The floating-point number nearest to `m * 10 ^ e`. Exponents that are out of reach for
`m` are decided before the power is computed: no finite number has more than 309 digits
before the point, and none but zero begins past the 324th digit after it.
-/
def nearest (m : Nat) (e : Int) : Float :=
  let places : Int := e + (numeral m).length
  if m = 0 then 0
  else if 400 < places then 1.0 / 0.0
  else if places < -400 then 0
  else Float.ofScientific m (e < 0) e.natAbs

end EliminationOrder.Decimal
