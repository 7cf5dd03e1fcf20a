/-!
Numbers in text: whole numbers in decimal digits, and hexadecimal text, which is numbers in the
fewest lowercase digits and bytes in two digits each.
-/

namespace BinTrace.Text

def digitValue (c : Char) : Nat := c.toNat - '0'.toNat

/-- The number that digits stand for, if there are some and nothing else. -/
def ofDigits? (s : List Char) : Option Nat :=
  if s.isEmpty || !s.all Char.isDigit then none
  else some (s.foldl (fun n c => 10 * n + digitValue c) 0)

/-- A number below `bound`; a plus sign may stand in front of it. -/
def natural? (bound : Nat) (s : List Char) : Option Nat :=
  let digits := match s with
    | '+' :: rest => rest
    | _ => s
  (ofDigits? digits).filter fun n => n < bound

/-- The digits of `n` in base sixteen, without a mark in front. -/
def hexDigits (n : Nat) : String :=
  String.ofList (Nat.toDigits 16 n)

/-- `n` with the mark `0x`. -/
def hex (n : Nat) : String :=
  "0x" ++ hexDigits n

/-- A signed number: the sign stands in front of the mark. -/
def signedHex (n : Int) : String :=
  if n < 0 then "-" ++ hex n.natAbs else hex n.natAbs

/-- `n` in digits of base sixteen, filled with zeros in front up to `width`. -/
def paddedHexDigits (width n : Nat) : String :=
  let digits := Nat.toDigits 16 n
  String.ofList (List.replicate (width - digits.length) '0' ++ digits)

def hexDigit (n : Nat) : Char :=
  Nat.digitChar (n % 16)

/-- Two digits a byte, nothing between the bytes. -/
def hexBytes (bytes : List UInt8) : String :=
  String.ofList (bytes.flatMap fun b => [hexDigit (b.toNat / 16), hexDigit b.toNat])

def hexDigitValue? (c : Char) : Option Nat :=
  if '0' ≤ c ∧ c ≤ '9' then some (c.toNat - '0'.toNat)
  else if 'a' ≤ c ∧ c ≤ 'f' then some (c.toNat - 'a'.toNat + 10)
  else if 'A' ≤ c ∧ c ≤ 'F' then some (c.toNat - 'A'.toNat + 10)
  else none

/-- The number written in hexadecimal digits of either case; there must be at least one. -/
def ofHexDigits? : List Char → Option Nat
  | [] => none
  | cs => cs.foldlM (fun n c => (hexDigitValue? c).map (16 * n + ·)) 0

/-- Reads pairs of digits, and refuses a digit that is left over. -/
def bytesOfHex? : List Char → Option (List UInt8)
  | [] => some []
  | h :: l :: rest => do
    let high ← hexDigitValue? h
    let low ← hexDigitValue? l
    let bytes ← bytesOfHex? rest
    return UInt8.ofNat (16 * high + low) :: bytes
  | [_] => none

end BinTrace.Text
