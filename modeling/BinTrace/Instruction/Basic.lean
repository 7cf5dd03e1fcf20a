import BinTrace.Instruction.Operand
import BinTrace.Width

/-!
One instruction: where it lies, its bytes, what kind of step it is, and which registers and flags
it reads and writes. `size` is the number of its bytes, and relative operands count from `stop`.
-/

namespace BinTrace

/-- What an instruction does to the flow of control, or which unit executes it. -/
inductive OpcodeClass
  | int
  | float
  | simd
  | condBranch
  | uncondBranch
  | call
  | return
  | syscall
  | trap
  | halt
  | nop
  | invalid
  | unknown
  deriving DecidableEq

namespace OpcodeClass

def name : OpcodeClass → String
  | int => "int"
  | float => "float"
  | simd => "simd"
  | condBranch => "cond_branch"
  | uncondBranch => "uncond_branch"
  | call => "call"
  | .return => "return"
  | syscall => "syscall"
  | trap => "trap"
  | halt => "halt"
  | nop => "nop"
  | invalid => "invalid"
  | unknown => "unknown"

end OpcodeClass

/-- Where the bytes of an instruction come from: decoded program text, program bytes that were not
decoded as code, or the encoder. -/
inductive ByteSource
  | application
  | freeText
  | instrumentation
  deriving DecidableEq

structure Instruction where
  address : Nat
  bytes : List UInt8
  opcodeClass : OpcodeClass
  mnemonic : String
  operands : List Operand := []
  source : ByteSource := .application
  uses : RegSet := ∅
  defs : RegSet := ∅
  deriving DecidableEq

namespace Instruction

def size (i : Instruction) : Nat := i.bytes.length

/-- The address behind the last byte. -/
def stop (i : Instruction) : Nat := i.address + i.size

def contains (i : Instruction) (a : Nat) : Bool := i.address ≤ a && a < i.stop

def isBranch (i : Instruction) : Bool :=
  i.opcodeClass = .condBranch || i.opcodeClass = .uncondBranch

def isCall (i : Instruction) : Bool := i.opcodeClass = .call

def isReturn (i : Instruction) : Bool := i.opcodeClass = .return

def isNop (i : Instruction) : Bool := i.opcodeClass = .nop

def isInvalid (i : Instruction) : Bool := i.opcodeClass = .invalid

/-- Branches, calls, returns and system calls. -/
def isControl (i : Instruction) : Bool :=
  match i.opcodeClass with
  | .condBranch | .uncondBranch | .call | .return | .syscall => true
  | _ => false

/-- Execution may go on at `stop`. -/
def fallsThrough (i : Instruction) : Bool :=
  match i.opcodeClass with
  | .uncondBranch | .return | .halt | .invalid => false
  | _ => i.mnemonic ≠ "ud2"

def relativeIndex? (i : Instruction) : Option Nat :=
  i.operands.findIdx? Operand.isRelative

def relativeOperand? (i : Instruction) : Option Operand :=
  i.operands.find? Operand.isRelative

def usesRelativeAddress (i : Instruction) : Bool := i.relativeOperand?.isSome

/-- Width of the relative displacement, zero if there is none. -/
def targetWidth (i : Instruction) : Nat := (i.relativeOperand?.map Operand.width).getD 0

/-- The address that lies `displacement` bytes behind `origin`, around the end of the space. -/
def offsetAddress (origin : Nat) (displacement : Int) : Nat :=
  ((origin + displacement).emod addressSpace).toNat

def relativeTarget? (i : Instruction) : Option Nat :=
  i.relativeOperand?.map fun o => offsetAddress i.stop o.value

def controlTarget? (i : Instruction) : Option Nat :=
  if i.isBranch || i.isCall then
    (i.operands.find? (·.kind = .relative)).map fun o => offsetAddress i.stop o.value
  else none

def isIndirectBranch (i : Instruction) : Bool :=
  i.isBranch && i.operands.any fun o => o.register?.isSome || o.memory?.isSome

/-- The opcodes of the short jumps that have a form with a wider displacement. -/
def isWidenable (opcode : UInt8) : Bool :=
  opcode = 0xeb || (0x70 ≤ opcode && opcode ≤ 0x7f)

/-- Can be moved to another address: undecodable bytes cannot, nor can the short branches that have
no wide form. -/
def isRelocatable (i : Instruction) : Bool :=
  if i.isInvalid then false
  else match i.relativeOperand? with
    | some o =>
      if o.kind = .relative ∧ o.width < 4 then
        if o.offset = 0 then false
        else match i.bytes[o.offset - 1]? with
          | some opcode => isWidenable opcode
          | none => false
      else true
    | none => true

def isTableJump (i : Instruction) : Bool :=
  i.opcodeClass = .uncondBranch && i.isIndirectBranch

def operandText (i : Instruction) (o : Operand) : String :=
  match o.kind with
  | .relative => Text.hex (offsetAddress i.stop o.value)
  | _ => o.text

/-- The mnemonic and its operands; branch displacements are shown as the addresses they reach. -/
def text (i : Instruction) : String :=
  match i.operands with
  | [] => i.mnemonic
  | os => i.mnemonic ++ " " ++ ", ".intercalate (os.map i.operandText)

end Instruction

end BinTrace
