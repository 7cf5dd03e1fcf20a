import BinTrace.Decimal.Shortest
import BinTrace.Text.Number

/-!
Numbers of JSON documents, as the digits that are written. A number that stands for a floating
point number is read in one pass: the digits that fit into 64 bits are taken as a whole number,
which is then multiplied with or divided by a power of ten.
-/

namespace BinTrace

structure JsonNumber where
  isNegative : Bool := false
  whole : List Char
  /-- The digits after the point; a number without a point has none. -/
  fraction : List Char := []
  exponent : Option Int := none
  deriving DecidableEq

namespace JsonNumber

def text (n : JsonNumber) : String :=
  (if n.isNegative then "-" else "") ++ String.ofList n.whole ++
    (if n.fraction.isEmpty then "" else "." ++ String.ofList n.fraction) ++
    ((n.exponent.map fun e => "e" ++ toString e).getD "")

def ofNat (n : Nat) : JsonNumber := { whole := Nat.toDigits 10 n }

/-- The number if it is a natural number below `bound`, written as one. -/
def natural? (bound : Nat) (n : JsonNumber) : Option Nat :=
  if n.isNegative || !n.fraction.isEmpty || n.exponent.isSome then none
  else (Text.ofDigits? n.whole).filter fun k => k < bound

/-- A significand with one more digit, if that has 64 bits. -/
def extend? (significand : Nat) (c : Char) : Option Nat :=
  (some (10 * significand + Text.digitValue c)).filter fun n => n < 2 ^ 64

/-- Digits before the point. From the first one that does not fit they only count. -/
def takeWhole (significand : Nat) : List Char → Decimal.Scaled
  | [] => ⟨significand, 0⟩
  | c :: rest =>
    match extend? significand c with
    | some significand => takeWhole significand rest
    | none => ⟨significand, rest.length + 1⟩

/-- Digits after the point. From the first one that does not fit they are ignored. -/
def takeFraction (s : Decimal.Scaled) : List Char → Decimal.Scaled
  | [] => s
  | c :: rest =>
    match extend? s.digits c with
    | some digits => takeFraction ⟨digits, s.exponent - 1⟩ rest
    | none => s

def scaled (n : JsonNumber) : Decimal.Scaled :=
  let s := takeFraction (takeWhole 0 n.whole) n.fraction
  { s with exponent := s.exponent + n.exponent.getD 0 }

/-- The greatest power of ten that is a floating point number. -/
def greatestPower : Nat := 308

def powerOfTen (n : Nat) : Float := Float.ofScientific 1 false n

/-- Divides by a power of ten, in several steps if it is too great for one. -/
def scaleDown (x : Float) (places : Nat) : Float :=
  if places ≤ greatestPower then x / powerOfTen places
  else if x == 0 then x
  else scaleDown (x / powerOfTen greatestPower) (places - greatestPower)
termination_by places
decreasing_by
  simp only [greatestPower] at *
  omega

/-- Multiplies with a power of ten, unless the product is too great. -/
def scaleUp? (x : Float) (places : Nat) : Option Float :=
  if places ≤ greatestPower then (some (x * powerOfTen places)).filter fun y => !y.isInf
  else if x == 0 then some x
  else none

/-- The floating point number that is meant, unless it is too great. -/
def double? (n : JsonNumber) : Option Float :=
  let s := n.scaled
  let size := s.digits.toUInt64.toFloat
  let scaled? :=
    if 0 ≤ s.exponent then scaleUp? size s.exponent.toNat
    else some (scaleDown size s.exponent.natAbs)
  scaled?.map fun x => if n.isNegative then -x else x

/-- A decimal number with its point, and with an exponent only if it is very great or small. -/
def ofScaled (isNegative : Bool) (s : Decimal.Scaled) : JsonNumber :=
  let digits := Nat.toDigits 10 s.digits
  let point : Int := digits.length + s.exponent
  if 0 ≤ s.exponent ∧ point ≤ 16 then
    { isNegative, whole := digits ++ List.replicate s.exponent.toNat '0', fraction := ['0'] }
  else if 0 < point ∧ point ≤ 16 then
    { isNegative, whole := digits.take point.toNat, fraction := digits.drop point.toNat }
  else if -5 < point ∧ point ≤ 0 then
    { isNegative, whole := ['0'], fraction := List.replicate (-point).toNat '0' ++ digits }
  else
    { isNegative, whole := digits.take 1, fraction := digits.drop 1, exponent := some (point - 1) }

/-- The shortest text that reads back as the number; what is no finite number has none. -/
def ofDouble? (x : Float) : Option JsonNumber :=
  (Decimal.Binary.ofFloat? x).map fun b => ofScaled b.isNegative b.shortest

end JsonNumber

end BinTrace
