import BinTrace.Instruction.CallingConvention
import BinTrace.Instruction.Retarget
import BinTrace.Opcode.Condition

/-!
Encoding the instructions that patches and trampolines are made of. An encoded instruction carries
operands and reads and writes as if it had been decoded, so that it can be moved and analysed like
the program's own code.
-/

namespace BinTrace.Encode

open RegSet (ofGprs allFlags lowFlags statusFlags)

/-- Bytes of a jump or call with a displacement of four bytes. -/
def jumpSize : Nat := 5

def generated (bytes : List UInt8) (c : OpcodeClass) (mnemonic : String)
    (operands : List Operand := []) (uses : RegSet := ∅) (defs : RegSet := ∅) : Instruction :=
  { address := 0, bytes, opcodeClass := c, mnemonic, operands, source := .instrumentation,
    uses, defs }

/-- The recommended no-op of each size from one to nine bytes. -/
def nopForms : List (List UInt8) :=
  [ [0x90],
    [0x66, 0x90],
    [0x0f, 0x1f, 0x00],
    [0x0f, 0x1f, 0x40, 0x00],
    [0x0f, 0x1f, 0x44, 0x00, 0x00],
    [0x66, 0x0f, 0x1f, 0x44, 0x00, 0x00],
    [0x0f, 0x1f, 0x80, 0x00, 0x00, 0x00, 0x00],
    [0x0f, 0x1f, 0x84, 0x00, 0x00, 0x00, 0x00, 0x00],
    [0x66, 0x0f, 0x1f, 0x84, 0x00, 0x00, 0x00, 0x00, 0x00] ]

def maxNop : Nat := 9

/-- A no-op of `size` bytes, for sizes from one to nine. -/
def nopOfSize (size : Nat) : Instruction :=
  generated (nopForms[size - 1]?.getD []) .nop "nop"

def nop : Instruction := nopOfSize 1

/-- No-ops of `size` bytes in all: as many of the greatest size as fit, then one for the rest. -/
def nops (size : Nat) : List Instruction :=
  List.replicate (size / maxNop) (nopOfSize maxNop) ++
    if size % maxNop = 0 then [] else [nopOfSize (size % maxNop)]

def pushf : Instruction :=
  generated [0x9c] .int "pushf" [] (ofGprs [.sp] ∪ allFlags) (ofGprs [.sp])

def popf : Instruction :=
  generated [0x9d] .int "popf" [] (ofGprs [.sp]) (ofGprs [.sp] ∪ allFlags)

/-- Copies the low flags to the register `ah`. -/
def lahf : Instruction :=
  generated [0x9f] .int "lahf" [] (ofGprs [.ax] ∪ lowFlags) (ofGprs [.ax])

/-- Copies the register `ah` to the low flags. -/
def sahf : Instruction := generated [0x9e] .int "sahf" [] (ofGprs [.ax]) lowFlags

def ret : Instruction := generated [0xc3] .return "ret" [] (ofGprs [.sp]) (ofGprs [.sp])

def int3 : Instruction := generated [0xcc] .trap "int3"

def FitsUnsigned32 (n : Int) : Prop := 0 ≤ n ∧ n < 2 ^ 32

instance (n : Int) : Decidable (FitsUnsigned32 n) := inferInstanceAs (Decidable (_ ∧ _))

/-- Registers that need an extension bit exist in 64-bit code only. -/
def requireGpr (w : Width) (mnemonic : String) (r : Gpr) : Except EncodeError Unit :=
  if r.isExtended && !w.is64 then .error (.unsupportedRegister mnemonic (Register.qword r))
  else .ok ()

def wordRegister (w : Width) (r : Gpr) : Register := Register.ofGpr r w.wordSize

def wordOperand (w : Width) (r : Gpr) : Operand := Operand.ofRegister (wordRegister w r)

/-- The REX byte for a wide operation on the numbered registers in the reg and r/m fields; none in
32-bit code, and none if it would carry no bit. -/
def rexBytes (w : Width) (isWide : Bool) (reg rm : Nat) : List UInt8 :=
  let bits := (if isWide then 8 else 0) + (if 8 ≤ reg then 4 else 0) + (if 8 ≤ rm then 1 else 0)
  if w.is64 && bits ≠ 0 then [UInt8.ofNat (0x40 + bits)] else []

/-- The REX byte that names an extended register in the opcode. -/
def opcodeRex (r : Gpr) : List UInt8 := if r.isExtended then [0x41] else []

def push (w : Width) (r : Gpr) : Except EncodeError Instruction := do
  requireGpr w "push" r
  return generated (opcodeRex r ++ [UInt8.ofNat (0x50 + r.low3)]) .int "push" [wordOperand w r]
    (ofGprs [r, .sp]) (ofGprs [.sp])

def pop (w : Width) (r : Gpr) : Except EncodeError Instruction := do
  requireGpr w "pop" r
  return generated (opcodeRex r ++ [UInt8.ofNat (0x58 + r.low3)]) .int "pop" [wordOperand w r]
    (ofGprs [.sp]) (ofGprs [r, .sp])

/-- Opcode bytes and immediate width of the shortest form that loads a value. -/
def loadForm (w : Width) (r : Gpr) (value : Int) : Except EncodeError (List UInt8 × Nat) :=
  let wideRex : UInt8 := if r.isExtended then 0x49 else 0x48
  if FitsUnsigned32 value then .ok (opcodeRex r ++ [UInt8.ofNat (0xb8 + r.low3)], 4)
  else if LittleEndian.FitsSigned 4 value then
    if w.is64 then .ok ([wideRex, 0xc7, UInt8.ofNat (0xc0 + r.low3)], 4)
    else .ok (opcodeRex r ++ [UInt8.ofNat (0xb8 + r.low3)], 4)
  else if w.is64 then .ok ([wideRex, UInt8.ofNat (0xb8 + r.low3)], 8)
  else .error (.overflow value 4)

/-- Loads a value into a register of the width of the code. -/
def movImmediate (w : Width) (r : Gpr) (value : Int) : Except EncodeError Instruction := do
  requireGpr w "mov" r
  let (opcode, width) ← loadForm w r value
  return generated (opcode ++ LittleEndian.bytesOfInt width value) .int "mov"
    [wordOperand w r, Operand.immediate value opcode.length width] ∅ (ofGprs [r])

def registerModRm (reg rm : Nat) : UInt8 := UInt8.ofNat (0xc0 + reg % 8 * 8 + rm % 8)

/-- A move between general purpose registers of one size. Without a REX byte the byte registers
from four on would name the high halves, so an empty one is added. -/
def movGpr (w : Width) (dst src : Register) (d s : Gpr) : Except EncodeError Instruction :=
  let size := dst.size
  if size ≠ src.size ∨ dst.kind = .highByte ∨ src.kind = .highByte then
    .error (.unsupportedRegister "mov" src)
  else
    let rex := rexBytes w (size = 8) src.number dst.number
    let needsRex := size = 1 ∧ (4 ≤ dst.number ∨ 4 ≤ src.number)
    if rex.isEmpty ∧ needsRex ∧ ¬ w.is64 then .error (.unsupportedRegister "mov" src)
    else
      let rex := if rex.isEmpty ∧ needsRex then [0x40] else rex
      let sizePrefix : List UInt8 := if size = 2 then [0x66] else []
      let opcode : UInt8 := if size = 1 then 0x88 else 0x89
      .ok (generated (sizePrefix ++ rex ++ [opcode, registerModRm src.number dst.number]) .int "mov"
        [Operand.ofRegister dst, Operand.ofRegister src]
        (ofGprs (if dst.isPartial then [s, d] else [s])) (ofGprs [d]))

/-- A move between two registers: of equal size and general purpose, between a segment register and
a general purpose register, or within the vector registers of one kind. -/
def movRegister (w : Width) (dst src : Register) : Except EncodeError Instruction :=
  let operands := [Operand.ofRegister dst, Operand.ofRegister src]
  if ¬ w.is64 ∧ 8 ≤ dst.number then .error (.unsupportedRegister "mov" dst)
  else if ¬ w.is64 ∧ 8 ≤ src.number then .error (.unsupportedRegister "mov" src)
  else
    match dst.gpr?, src.gpr?, dst.kind, src.kind with
    | some d, some s, _, _ => movGpr w dst src d s
    | none, some s, .segment, _ =>
      .ok (generated (rexBytes w false 0 src.number ++ [0x8e, registerModRm dst.number src.number])
        .int "mov" operands (ofGprs [s]) ∅)
    | some d, none, _, .segment =>
      .ok (generated (rexBytes w false 0 dst.number ++ [0x8c, registerModRm src.number dst.number])
        .int "mov" operands ∅ (ofGprs [d]))
    | none, none, .xmm, .xmm =>
      .ok (generated (rexBytes w false dst.number src.number ++
        [0x0f, 0x28, registerModRm dst.number src.number]) .simd "movaps" operands)
    | none, none, .mmx, .mmx =>
      .ok (generated [0x0f, 0x6f, registerModRm dst.number src.number] .simd "movq" operands)
    | _, _, _, _ => .error (.unsupportedRegister "mov" dst)

/-- ModRM and what follows it for a register in the reg field and memory at `base + displacement`,
with the width of the displacement. The stack pointer as a base needs a scale-index-base byte, and
the frame pointer a displacement. -/
def baseForm (reg base : Gpr) (displacement : Int) :
    Except EncodeError (List UInt8 × Nat) :=
  if ¬ LittleEndian.FitsSigned 4 displacement then .error (.overflow displacement 4)
  else
    let (mode, width) :=
      if displacement = 0 ∧ base.low3 ≠ 5 then (0, 0)
      else if LittleEndian.FitsSigned 1 displacement then (1, 1)
      else (2, 4)
    let modRm := UInt8.ofNat (mode * 64 + reg.low3 * 8 + base.low3)
    .ok (if base.low3 = 4 then [modRm, 0x24] else [modRm], width)

/-- An operation on a register and memory at `base + displacement`, without its operands and
effects, and the memory operand. -/
def baseBytes (w : Width) (mnemonic : String) (opcode : UInt8) (reg base : Gpr)
    (displacement : Int) : Except EncodeError (List UInt8 × Operand) := do
  requireGpr w mnemonic reg
  requireGpr w mnemonic base
  let (form, width) ← baseForm reg base displacement
  let head := rexBytes w w.is64 reg.index base.index ++ [opcode] ++ form
  let memory := Operand.memory { base := some (wordRegister w base) } displacement
    (if width = 0 then 0 else head.length) width
  return (head ++ LittleEndian.bytesOfInt width displacement, memory)

/-- ModRM for memory at an address: in 64-bit code a scale-index-base byte without registers. -/
def absoluteForm (w : Width) (reg : Nat) (address : Nat) :
    Except EncodeError (List UInt8) :=
  let value := (address : Int).bmod addressSpace
  match w with
  | .bits64 =>
    if LittleEndian.FitsSigned 4 value then .ok [UInt8.ofNat (0x04 + reg * 8), 0x25]
    else .error (.overflow value 4)
  | .bits32 =>
    if address < 2 ^ 32 then .ok [UInt8.ofNat (0x05 + reg * 8)] else .error (.overflow value 4)

/-- The head of an operation on memory at an address, completed by the address in four bytes, and
the memory operand. -/
def absoluteBytes (w : Width) (head : List UInt8) (reg : Nat) (address : Nat) :
    Except EncodeError (List UInt8 × Operand) := do
  let form ← absoluteForm w reg address
  let head := head ++ form
  return (head ++ LittleEndian.bytesOf 4 address,
    Operand.memory {} ((address : Int).bmod addressSpace) head.length 4)

def movToAddress (w : Width) (src : Gpr) (address : Nat) : Except EncodeError Instruction := do
  requireGpr w "mov" src
  let (bytes, memory) ←
    absoluteBytes w (rexBytes w w.is64 src.index 0 ++ [0x89]) src.low3 address
  return generated bytes .int "mov" [memory, wordOperand w src] (ofGprs [src]) ∅

def movFromAddress (w : Width) (dst : Gpr) (address : Nat) : Except EncodeError Instruction := do
  requireGpr w "mov" dst
  let (bytes, memory) ←
    absoluteBytes w (rexBytes w w.is64 dst.index 0 ++ [0x8b]) dst.low3 address
  return generated bytes .int "mov" [wordOperand w dst, memory] ∅ (ofGprs [dst])

def movToMemory (w : Width) (src base : Gpr) (displacement : Int) :
    Except EncodeError Instruction := do
  let (bytes, memory) ← baseBytes w "mov" 0x89 src base displacement
  return generated bytes .int "mov" [memory, wordOperand w src] (ofGprs [src, base]) ∅

def movFromMemory (w : Width) (dst base : Gpr) (displacement : Int) :
    Except EncodeError Instruction := do
  let (bytes, memory) ← baseBytes w "mov" 0x8b dst base displacement
  return generated bytes .int "mov" [wordOperand w dst, memory] (ofGprs [base]) (ofGprs [dst])

/-- Sets a register to `base + displacement` and leaves the flags alone. -/
def lea (w : Width) (dst base : Gpr) (displacement : Int) : Except EncodeError Instruction := do
  let (bytes, memory) ← baseBytes w "lea" 0x8d dst base displacement
  return generated bytes .int "lea" [wordOperand w dst, memory] (ofGprs [base]) (ofGprs [dst])

def adjustStack (w : Width) (delta : Int) : Except EncodeError Instruction := lea w .sp .sp delta

/-- The outcome of a change, without the state that a failure leaves. -/
def edited (change : Instruction.Edit Unit) (i : Instruction) : Except EncodeError Instruction :=
  match change.run i with
  | .ok _ j => .ok j
  | .error e _ => .error e

/-- Adds a signed byte to the word at an address. In 64-bit code the address is reached from `place`,
where the instruction will lie. -/
def addToAddress (w : Width) (place address : Nat) (value : Int) :
    Except EncodeError Instruction :=
  let finish (bytes : List UInt8) (memory : Operand) : Instruction :=
    { generated (bytes ++ LittleEndian.bytesOfInt 1 value) .int "add"
        [memory, Operand.immediate value bytes.length 1] ∅ statusFlags with address := place }
  match w with
  | .bits64 =>
    edited (Instruction.setRelativeTarget address)
      (finish [0x48, 0x83, 0x05, 0, 0, 0, 0] (Operand.memory { relativeToEnd := true } 0 3 4))
  | .bits32 => do
    let (bytes, memory) ← absoluteBytes w [0x83] 0 address
    return finish bytes memory

def relative (opcode : List UInt8) (width : Nat) (place target : Nat) (c : OpcodeClass)
    (mnemonic : String) (uses defs : RegSet) : Except EncodeError Instruction :=
  edited (Instruction.setRelativeTarget target)
    { generated (opcode ++ List.replicate width 0) c mnemonic
        [Operand.relative 0 opcode.length width] uses defs with address := place }

/-- A jump with a displacement of four bytes. -/
def jumpNear (place target : Nat) : Except EncodeError Instruction :=
  relative [0xe9] 4 place target .uncondBranch "jmp" ∅ ∅

/-- A short branch from `place` reaches the target. -/
def reachesShort (place target : Nat) : Bool :=
  LittleEndian.FitsSigned 1 (Instruction.displacement (place + 2) target)

def jump (place target : Nat) : Except EncodeError Instruction :=
  if reachesShort place target then relative [0xeb] 1 place target .uncondBranch "jmp" ∅ ∅
  else jumpNear place target

def call (w : Width) (place target : Nat) : Except EncodeError Instruction :=
  relative [0xe8] 4 place target .call "call" (CallingConvention.callUses w)
    (CallingConvention.callDefs w)

def jumpIf (code : Nat) (place target : Nat) : Except EncodeError Instruction :=
  let code := code % 16
  let uses := Condition.flags code
  if reachesShort place target then
    relative [UInt8.ofNat (0x70 + code)] 1 place target .condBranch (Condition.jumpMnemonic code)
      uses ∅
  else
    relative [0x0f, UInt8.ofNat (0x80 + code)] 4 place target .condBranch
      (Condition.jumpMnemonic code) uses ∅

end BinTrace.Encode
