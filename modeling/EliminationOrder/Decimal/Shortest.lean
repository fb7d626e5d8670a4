/-
The shortest decimal that reads back as a given floating-point number.

A finite number is `m * 2 ^ q`. The reals that round to it reach halfway to its two
neighbors, the ends included when `m` is even. Of the grids of multiples of a power of
ten the coarsest that has a point in this interval gives the fewest digits; on it the
point nearest to the number is taken, and the upper one of two equally near. All of it
is done in whole numbers, on a common scale for the number and the grid.
-/

namespace EliminationOrder.Decimal

/-! ### Numbers as they are stored -/

/-- The number `mantissa * 2 ^ exponent`. -/
structure Dyadic where
  mantissa : Nat
  exponent : Int
  /-- The next smaller number is half as far away as the next larger one. -/
  closeBelow : Bool

/-- The magnitude of a finite number, from its bits. -/
def Dyadic.ofBits (bits : Nat) : Dyadic :=
  let fraction : Nat := bits % Nat.pow 2 52
  let biased : Nat := bits / Nat.pow 2 52 % Nat.pow 2 11
  if biased = 0 then
    { mantissa := fraction, exponent := -1074, closeBelow := false }
  else
    { mantissa := Nat.pow 2 52 + fraction, exponent := Int.ofNat biased - 1075,
      closeBelow := fraction == 0 && biased != 1 }

/-- The number `digits * 10 ^ exponent`. -/
structure Scaled where
  digits : Nat
  exponent : Int
deriving DecidableEq, Repr

/-! ### One number and one grid -/

/--
A number and its interval on a common scale with a grid: quarter steps of the number's
last place, and the distance between two points of the grid.
-/
structure Scale where
  low : Nat
  middle : Nat
  high : Nat
  grid : Nat
  /-- The ends of the interval round to the number. -/
  closed : Bool

/-- The scale of a number and the grid of multiples of `10 ^ k`. -/
def Dyadic.scale (x : Dyadic) (k : Int) : Scale :=
  let unit := Nat.pow 2 (x.exponent - 2).toNat * Nat.pow 10 (-k).toNat
  { low := (4 * x.mantissa - if x.closeBelow then 1 else 2) * unit
    middle := 4 * x.mantissa * unit
    high := (4 * x.mantissa + 2) * unit
    grid := Nat.pow 10 k.toNat * Nat.pow 2 (2 - x.exponent).toNat
    closed := x.mantissa % 2 == 0 }

namespace Scale

/-- Whether point `d` of the grid rounds to the number. -/
def holds (s : Scale) (d : Nat) : Bool :=
  let p := d * s.grid
  if s.closed then s.low ≤ p && p ≤ s.high else s.low < p && p < s.high

/-- The point of the grid that rounds to the number and is nearest to it, the upper one of two. -/
def nearest? (s : Scale) : Option Nat :=
  let d := s.middle / s.grid
  if s.holds d then
    if s.holds (d + 1) && (2 * d + 1) * s.grid ≤ 2 * s.middle then some (d + 1) else some d
  else if s.holds (d + 1) then some (d + 1)
  else none

end Scale

/-! ### The search -/

/-- Tries the grids of `10 ^ k`, `10 ^ (k - 1)` and so on, `count` of them. -/
def Dyadic.search (x : Dyadic) (k : Int) : Nat → Option Scaled
  | 0 => none
  | count + 1 =>
    match (x.scale k).nearest? with
    | some d => some ⟨d, k⟩
    | none => x.search (k - 1) count

/-- The power of ten of the coarsest grid: all finite numbers are smaller. -/
def coarsest : Int :=
  309

/--
The shortest decimal of a number. Its own last place is on the grid of `10 ^ exponent`,
so a grid as fine as that ends the search.
-/
def Dyadic.shortest (x : Dyadic) : Scaled :=
  if x.mantissa = 0 then ⟨0, 0⟩
  else
    let finest := min x.exponent 0
    (x.search coarsest (coarsest - finest + 1).toNat).getD
      ⟨x.mantissa * Nat.pow 2 (x.exponent - finest).toNat * Nat.pow 5 (-finest).toNat, finest⟩

end EliminationOrder.Decimal
