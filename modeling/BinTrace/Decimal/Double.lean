import BinTrace.Arithmetic

/-!
The exact value of a floating point number, rounding of exact quotients, and numbers with a fixed
number of decimal places.
-/

namespace BinTrace.Decimal

/-- The number `mantissa * 2 ^ exponent`, with a sign. -/
structure Binary where
  isNegative : Bool
  mantissa : Nat
  exponent : Int
  deriving DecidableEq

namespace Binary

/-- The number with the given bits, unless that is infinite or no number. -/
def ofBits? (bits : Nat) : Option Binary :=
  let isNegative := bits.testBit 63
  let fraction := bits % 2 ^ 52
  let scale : Nat := bits / 2 ^ 52 % 2 ^ 11
  if scale = 2 ^ 11 - 1 then none
  else if scale = 0 then some ⟨isNegative, fraction, -1074⟩
  else some ⟨isNegative, 2 ^ 52 + fraction, (scale : Int) - 1075⟩

def ofFloat? (x : Float) : Option Binary := ofBits? x.toBits.toNat

/-- Numerator and denominator of the number's size. -/
def ratio (b : Binary) : Nat × Nat :=
  if 0 ≤ b.exponent then (b.mantissa * 2 ^ b.exponent.toNat, 1)
  else (b.mantissa, 2 ^ (-b.exponent).toNat)

end Binary

/-- The whole number nearest to a quotient; of two that are equally near, the even one. -/
def roundHalfEven (num den : Nat) : Nat :=
  let q := num / den
  let r := num % den
  if 2 * r < den ∨ (2 * r = den ∧ q % 2 = 0) then q else q + 1

/-- The result is not further from the quotient than half of one. -/
theorem roundHalfEven_near {num den : Nat} (h : 0 < den) :
    2 * num ≤ 2 * (roundHalfEven num den * den) + den ∧
      2 * (roundHalfEven num den * den) ≤ 2 * num + den := by
  have hd := Nat.div_add_mod num den
  have hm := Nat.mod_lt num h
  have hc : den * (num / den) = num / den * den := Nat.mul_comm _ _
  simp only [roundHalfEven]
  split
  · omega
  · rw [Nat.add_mul, Nat.one_mul]
    omega

/-- A whole number of units of the last place, with a point in front of the places. -/
def placeText (places units : Nat) : String :=
  let digits := toString (units % 10 ^ places)
  toString (units / 10 ^ places) ++ "." ++
    "".pushn '0' (places - digits.length) ++ digits

/-- The number rounded to the places, a half to the even neighbour. -/
def Binary.fixed (places : Nat) (b : Binary) : String :=
  let (num, den) := b.ratio
  (if b.isNegative then "-" else "") ++ placeText places (roundHalfEven (num * 10 ^ places) den)

/-- The text of a finite number; what is no finite number has none. -/
def fixed (places : Nat) (x : Float) : String :=
  ((Binary.ofFloat? x).map (Binary.fixed places)).getD ""

end BinTrace.Decimal
