/-!
# The shortest decimal that reads back

A binary floating-point number stands for every real number that rounds to it. Among the decimals in
that interval, `shortest` finds one with the fewest digits: it lies on the coarsest grid of powers
of ten that has a point in the interval, and among the points of that grid it is the one nearest to
the number.

All comparisons are between natural numbers, so nothing is rounded on the way.
-/

namespace Trisort

/-- The number `digits · 10 ^ exponent`. -/
structure Decimal where
  digits : Nat
  exponent : Int
deriving DecidableEq

/-- A positive binary floating-point number `mantissa · 2 ^ exponent`, together with what is needed
to know which reals round to it. -/
structure Binary where
  mantissa : Nat
  exponent : Int
  /-- Whether the next smaller number is only half as far away as the next larger one, as it is
  below a power of two. -/
  closeBelow : Bool
deriving DecidableEq

namespace Binary

/-- Numbers are counted in quarters of a unit of the last place, so that the ends of the interval
are natural numbers too. -/
def quarters (x : Binary) : Nat := 4 * x.mantissa

/-- The lower end of the interval, in quarters. -/
def lower (x : Binary) : Nat := x.quarters - if x.closeBelow then 1 else 2

/-- The upper end of the interval, in quarters. -/
def upper (x : Binary) : Nat := x.quarters + 2

/-- The ends belong to the interval exactly if the mantissa is even: halfway cases round to even. -/
def closed (x : Binary) : Bool := x.mantissa % 2 = 0

/-- A quarter of a unit of the last place, measured in units of the grid `10 ^ k`, is
`(x.gridRatio k).1 / (x.gridRatio k).2`. -/
def gridRatio (x : Binary) (k : Int) : Nat × Nat :=
  (Nat.pow 2 (x.exponent - 2).toNat * Nat.pow 10 (-k).toNat,
    Nat.pow 2 (2 - x.exponent).toNat * Nat.pow 10 k.toNat)

/-- Whether `d · 10 ^ k` rounds to `x`. -/
def contains (x : Binary) (d : Nat) (k : Int) : Bool :=
  let (num, den) := x.gridRatio k
  if x.closed then x.lower * num ≤ d * den && d * den ≤ x.upper * num
  else x.lower * num < d * den && d * den < x.upper * num

/-- The point of the grid `10 ^ k` that is nearest to `x` among those that round to `x`. Only the
two neighbours of `x` on the grid need to be looked at; halfway between them the larger is taken. -/
def onGrid? (x : Binary) (k : Int) : Option Decimal :=
  let (num, den) := x.gridRatio k
  let d := x.quarters * num / den
  let r := x.quarters * num % den
  match x.contains d k, x.contains (d + 1) k with
  | true, true => some ⟨if 2 * r < den then d else d + 1, k⟩
  | true, false => some ⟨d, k⟩
  | false, true => some ⟨d + 1, k⟩
  | false, false => none

/-- The first of the `n + 1` grids `10 ^ k`, `10 ^ (k - 1)`, … with a point that rounds to `x`. -/
def shortestFrom (x : Binary) (k : Int) : Nat → Option Decimal
  | 0 => x.onGrid? k
  | n + 1 =>
    match x.onGrid? k with
    | some d => some d
    | none => shortestFrom x (k - 1) n

/-- The shortest decimal that rounds to `x`, for the magnitudes of double precision: all of them are
below `10 ^ 309`, and the smallest has a decimal on the grid `10 ^ (-324)`. -/
def shortest? (x : Binary) : Option Decimal := x.shortestFrom 309 (309 + 324)

end Binary

end Trisort
