import BinTrace.Opcode.VectorName
import BinTrace.Width

/-!
The bytes that may stand in front of an opcode: legacy prefixes in any number and order, then in
64-bit code one REX byte.
-/

namespace BinTrace.Decode

/-- The two repeat prefixes, `f3` and `f2`. -/
inductive Repeat
  | whileEqual
  | whileNotEqual
  deriving DecidableEq

structure Prefixes where
  operandSize : Bool := false
  addressSize : Bool := false
  lock : Bool := false
  /-- The last repeat prefix that was read. -/
  repetition : Option Repeat := none

namespace Prefixes

/-- The state after one more byte, or `none` if the byte is no legacy prefix. Segment prefixes are
read and forgotten. -/
def next? (p : Prefixes) (b : UInt8) : Option Prefixes :=
  match b.toNat with
  | 0x66 => some { p with operandSize := true }
  | 0x67 => some { p with addressSize := true }
  | 0xf0 => some { p with lock := true }
  | 0xf2 => some { p with repetition := some .whileNotEqual }
  | 0xf3 => some { p with repetition := some .whileEqual }
  | 0x26 | 0x2e | 0x36 | 0x3e | 0x64 | 0x65 => some p
  | _ => none

/-- Takes the legacy prefixes from the front and returns the bytes that follow them. -/
def scan (p : Prefixes) : List UInt8 → Prefixes × List UInt8
  | [] => (p, [])
  | b :: rest =>
    match p.next? b with
    | some q => scan q rest
    | none => (p, b :: rest)

/-- The prefix that chooses the form of a vector operation: a repeat prefix wins. -/
def mandatory (p : Prefixes) : Opcode.MandatoryPrefix :=
  match p.repetition with
  | some .whileEqual => .repeat
  | some .whileNotEqual => .repeatNotEqual
  | none => if p.operandSize then .operandSize else .absent

/-- None of the prefixes that vector extension encodings exclude was read. -/
def allowVectorExtension (p : Prefixes) : Bool :=
  !p.operandSize && !p.lock && p.repetition.isNone

end Prefixes

/-- The bits of a REX byte, or the bits of a vector extension encoding that do the same work. -/
structure Rex where
  isPresent : Bool := false
  w : Bool := false
  r : Bool := false
  x : Bool := false
  b : Bool := false

namespace Rex

def ofByte (n : Nat) : Rex := ⟨true, n.testBit 3, n.testBit 2, n.testBit 1, n.testBit 0⟩

/-- What a bit adds to a register number. -/
def extension (bit : Bool) : Nat := if bit then 8 else 0

end Rex

end BinTrace.Decode
