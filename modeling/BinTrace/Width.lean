import BinTrace.Arithmetic

/-!
The two kinds of code that are analysed, told apart by the width of a machine word.
-/

namespace BinTrace

/-- One more than the greatest address. Addresses are natural numbers below it, and distances
between them wrap around. -/
def addressSpace : Nat := 2 ^ 64

inductive Width
  | bits32
  | bits64
  deriving DecidableEq

namespace Width

/-- Bytes of a pointer or a stack slot. -/
def wordSize : Width → Nat
  | bits32 => 4
  | bits64 => 8

def name : Width → String
  | bits32 => "32-bit"
  | bits64 => "64-bit"

def is64 : Width → Bool
  | bits32 => false
  | bits64 => true

end Width

end BinTrace
