import BinTrace.Decode.ModRm
import BinTrace.Opcode.Spec

/-!
Building the explicit operands of an instruction from the templates of its opcode.
-/

namespace BinTrace.Decode

/-- What the sizes and registers of operands depend on. -/
structure Layout where
  width : Width
  rex : Rex
  operandSize : Nat
  addressSize : Nat
  hasOperandSizePrefix : Bool
  /-- Operands have 64 bits in 64-bit code. -/
  isWide : Bool
  vectorClass : RegisterClass
  opcode : Nat

namespace Layout

/-- The general purpose register of a number. Without a REX byte the byte registers four to seven
are the high halves of the first four words. -/
def gpr (l : Layout) (number size : Nat) : Register :=
  if size = 1 ∧ ¬ l.rex.isPresent ∧ 4 ≤ number ∧ number < 8 then ⟨.highByte, number - 4⟩
  else ⟨Register.classOfSize size, number⟩

def doubleOrQuad (l : Layout) : Nat :=
  if l.width.is64 && (l.rex.w || l.isWide) then 8 else 4

def gprOperand (l : Layout) (number size : Nat) : Operand :=
  Operand.ofRegister (l.gpr number size)

def rmOperand (l : Layout) (m : ModRm) (size : Nat) : Operand :=
  m.memory.getD (l.gprOperand m.rm size)

def immediateSize (l : Layout) : Nat := if l.operandSize = 2 then 2 else 4

def branchSize (l : Layout) : Nat :=
  if !l.width.is64 && l.hasOperandSizePrefix then 2 else 4

def opcodeRegister (l : Layout) (size : Nat) : Operand :=
  l.gprOperand (l.opcode % 8 + Rex.extension l.rex.b) size

def accumulator (l : Layout) (size : Nat) : Operand :=
  l.gprOperand Gpr.ax.index size

end Layout

namespace ByteReader

def signedImmediate (width : Nat) : ByteReader Operand := do
  let (value, offset) ← signed width
  return Operand.immediate value offset width

def unsignedImmediate (width : Nat) : ByteReader Operand := do
  let (value, offset) ← unsigned width
  return Operand.immediate value offset width

def branch (width : Nat) : ByteReader Operand := do
  let (value, offset) ← signed width
  return Operand.relative value offset width

def directMemory (width : Nat) : ByteReader Operand := do
  let (value, offset) ← unsigned width
  return Operand.memory {} value offset width

/-- The offset of a far pointer; its selector is taken and dropped. -/
def farPointer (width : Nat) : ByteReader Operand := do
  let (value, offset) ← unsigned width
  let _ ← field 2
  return Operand.immediate value offset width

/-- One operand. A template for memory alone rejects the register form. -/
def operand (l : Layout) (modRm? : Option ModRm) (t : Template) : ByteReader Operand := do
  match t with
  | .ib => signedImmediate 1
  | .iw => unsignedImmediate 2
  | .iz => signedImmediate l.immediateSize
  | .iv => signedImmediate l.operandSize
  | .jb => branch 1
  | .jz => branch l.branchSize
  | .zb => return l.opcodeRegister 1
  | .zv => return l.opcodeRegister l.operandSize
  | .al => return l.accumulator 1
  | .ax => return l.accumulator l.operandSize
  | .cl => return Operand.ofRegister (Register.ofGpr .cx 1)
  | .dx => return Operand.ofRegister (Register.ofGpr .dx 2)
  | .one => return Operand.immediate 1 0 0
  | .ob | .ov => directMemory l.addressSize
  | .ap => farPointer l.immediateSize
  | .eb | .ev | .ew | .ed | .ey | .gb | .gv | .gw | .gy | .m | .sw | .vx | .wx =>
    match modRm? with
    | none => reject
    | some m =>
      match t with
      | .eb => return l.rmOperand m 1
      | .ev => return l.rmOperand m l.operandSize
      | .ew => return l.rmOperand m 2
      | .ed => return l.rmOperand m 4
      | .ey => return l.rmOperand m l.doubleOrQuad
      | .gb => return l.gprOperand m.reg 1
      | .gv => return l.gprOperand m.reg l.operandSize
      | .gw => return l.gprOperand m.reg 2
      | .gy => return l.gprOperand m.reg l.doubleOrQuad
      | .sw => return Operand.ofRegister ⟨.segment, m.reg % 8⟩
      | .vx => return Operand.ofRegister ⟨l.vectorClass, m.reg⟩
      | .wx => return m.memory.getD (Operand.ofRegister ⟨l.vectorClass, m.rm⟩)
      | _ =>
        match m.memory with
        | some memory => return memory
        | none => reject

end ByteReader

end BinTrace.Decode
