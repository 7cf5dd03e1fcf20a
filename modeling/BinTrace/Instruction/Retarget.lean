import BinTrace.Bytes
import BinTrace.Instruction.Basic
import BinTrace.LittleEndian

/-!
Moving an instruction and changing what its relative operand refers to. A step that fails leaves
the instruction in the state that it had reached: a move that cannot be completed has already
changed the address.
-/

namespace BinTrace

/-- Why an encoding cannot be built or changed. -/
inductive EncodeError
  | overflow (value : Int) (width : Nat)
  | noRelativeOperand (address : Nat)
  | unwidenable (address : Nat) (mnemonic : String)
  | unsupportedRegister (mnemonic : String) (register : Register)
  deriving DecidableEq

namespace EncodeError

def kind : EncodeError → String
  | overflow .. => "Overflow"
  | noRelativeOperand _ => "NoRelativeOperand"
  | unwidenable .. => "Unwidenable"
  | unsupportedRegister .. => "UnsupportedRegister"

/-- The number that does not fit is shown in two's complement. -/
def message : EncodeError → String
  | overflow value width =>
    "value " ++ Text.hex (value.emod addressSpace).toNat ++ " does not fit in " ++
      toString width ++ " bytes"
  | noRelativeOperand address =>
    "instruction at " ++ Text.hex address ++ " has no relative operand"
  | unwidenable address mnemonic =>
    "cannot widen " ++ mnemonic ++ " at " ++ Text.hex address ++ " to a 32-bit displacement"
  | unsupportedRegister mnemonic register =>
    "cannot encode " ++ mnemonic ++ " with register " ++ register.name

end EncodeError

namespace Instruction

/-- The distance from `origin` to `target` as a signed number, around the end of the space. -/
def displacement (origin target : Nat) : Int :=
  ((target : Int) - origin).bmod addressSpace

/-- A change of an instruction that may stop with an error. -/
abbrev Edit := EStateM EncodeError Instruction

def fitsField (width : Nat) (value : Int) : Bool :=
  width ∉ [1, 2, 4] || LittleEndian.FitsSigned width value

/-- Makes the relative operand refer to `target` from where the instruction lies. -/
def setRelativeTarget (target : Nat) : Edit Unit := do
  let i ← get
  match i.relativeIndex?, i.relativeOperand? with
  | some index, some o =>
    let value := displacement i.stop target
    if fitsField o.width value then
      set { i with
        bytes := Bytes.overwrite i.bytes o.offset (LittleEndian.bytesOfInt o.width value)
        operands := i.operands.set index { o with value := value } }
    else throw (.overflow value o.width)
  | _, _ => throw (.noRelativeOperand i.address)

/-- Moves the instruction and keeps what its relative operand refers to. -/
def relocate (address : Nat) : Edit Unit := do
  let i ← get
  set { i with address := address }
  match i.relativeTarget? with
  | some target => setRelativeTarget target
  | none => pure ()

/-- The opcode bytes of the wide form of a short jump. -/
def wideOpcode? (opcode : UInt8) : Option (List UInt8) :=
  if opcode = 0xeb then some [0xe9]
  else if isWidenable opcode then some [0x0f, opcode + 0x10]
  else none

/-- Gives a short branch a displacement of four bytes and keeps its target. Anything that is not a
short branch stays as it is. -/
def widenTarget : Edit Unit := do
  let i ← get
  match i.relativeIndex?, i.relativeOperand? with
  | some index, some o =>
    if 4 ≤ o.width ∨ o.kind ≠ .relative then pure ()
    else
      match i.bytes[o.offset - 1]?.bind wideOpcode? with
      | some opcode =>
        let head := i.bytes.take (o.offset - 1) ++ opcode
        set { i with
          bytes := head ++ List.replicate 4 0
          operands := i.operands.set index (Operand.relative 0 head.length 4) }
        setRelativeTarget (offsetAddress i.stop o.value)
      | none => throw (.unwidenable i.address i.mnemonic)
  | _, _ => pure ()

end Instruction

end BinTrace
