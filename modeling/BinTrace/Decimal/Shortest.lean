import BinTrace.Decimal.Double

/-!
The shortest decimal number that reads back as a given floating point number. A decimal number
reads back if it is not further away than half the distance to the neighbours; of the shortest ones
the nearest is taken.
-/

namespace BinTrace.Decimal

/-- The number `digits * 10 ^ exponent`. -/
structure Scaled where
  digits : Nat
  exponent : Int
  deriving DecidableEq

/-- A number with the numbers that are rounded to it, all as multiples of one unit. -/
structure Interval where
  least : Nat
  value : Nat
  greatest : Nat
  /-- The ends belong to it. -/
  isClosed : Bool

namespace Interval

def contains (i : Interval) (n : Nat) : Bool :=
  if i.isClosed then i.least ≤ n && n ≤ i.greatest else i.least < n && n < i.greatest

/-- The multiple of `step` in the interval that is nearest to its value. -/
def multiple? (i : Interval) (step : Nat) : Option Nat :=
  let nearest := roundHalfEven i.value step
  let other := if nearest = i.value / step then nearest + 1 else i.value / step
  [nearest, other].find? fun k => i.contains (k * step)

end Interval

namespace Binary

/-- Numerator and denominator of a power. -/
def power (base : Nat) (exponent : Int) : Nat × Nat :=
  (base ^ exponent.toNat, base ^ (-exponent).toNat)

/-- The interval of a number in quarters of its last place, times `scale`. Below a power of two the
neighbour is only half as far away, except where the numbers lie densest. -/
def interval (b : Binary) (scale : Nat) : Interval where
  least := (4 * b.mantissa - if b.mantissa = 2 ^ 52 ∧ -1074 < b.exponent then 1 else 2) * scale
  value := 4 * b.mantissa * scale
  greatest := (4 * b.mantissa + 2) * scale
  isClosed := b.mantissa % 2 = 0

/-- The multiple of `10 ^ exponent` that reads back as the number, if there is one. -/
def atExponent? (b : Binary) (exponent : Int) : Option Scaled :=
  let (num, den) := power 2 (b.exponent - 2)
  let (step, inverse) := power 10 exponent
  ((b.interval (num * inverse)).multiple? (den * step)).map fun k => ⟨k, exponent⟩

/-- The number as a multiple of the greatest power of ten, from `exponent` down, that allows it. -/
def shortestFrom (b : Binary) (exponent : Int) : Nat → Option Scaled
  | 0 => none
  | fuel + 1 => (b.atExponent? exponent).or (b.shortestFrom (exponent - 1) fuel)

def highestExponent : Nat := 309

def shortest (b : Binary) : Scaled :=
  let (num, den) := b.ratio
  let start := (Nat.toDigits 10 (num / den)).length
  if b.mantissa = 0 then ⟨0, 0⟩
  else (b.shortestFrom start (3 * highestExponent)).getD ⟨0, 0⟩

end Binary

end BinTrace.Decimal
