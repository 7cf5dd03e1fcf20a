import BinTrace.Decode.Prefixes
import BinTrace.Instruction.CallingConvention
import BinTrace.Opcode.Spec

/-!
Registers and flags that an instruction reads and writes: those of its opcode, and those that its
explicit operands add.
-/

namespace BinTrace.Decode

/-- The operand at a position is read, and it is written. -/
def accesses (a : Access) (position : Nat) : Bool × Bool :=
  match a with
  | .read => (true, false)
  | .write => (position > 0, position = 0)
  | .update => (true, position = 0)
  | .exchange => (true, position < 2)
  | .untouched => (false, false)

/-- What a register operand adds to the reads. A partial write keeps, and so reads, the rest. -/
def operandUses (a : Access) (position : Nat) (o : Operand) : RegSet :=
  match o.kind with
  | .memory m => m.addressRegs
  | .register r =>
    match r.gpr? with
    | some g =>
      let (isRead, isWritten) := accesses a position
      if isRead || (isWritten && r.isPartial) then RegSet.singleton (.gpr g) else ∅
    | none => ∅
  | _ => ∅

def operandDefs (a : Access) (position : Nat) (o : Operand) : RegSet :=
  match o.register?.bind Register.gpr? with
  | some g => if (accesses a position).2 then RegSet.singleton (.gpr g) else ∅
  | none => ∅

/-- Union of what each operand contributes at its position. -/
def unionOf (f : Nat → Operand → RegSet) : Nat → List Operand → RegSet
  | _, [] => ∅
  | n, o :: rest => f n o ∪ unionOf f (n + 1) rest

/-- The register that a difference or exclusive or with itself clears without reading it. -/
def clearedRegister? (mnemonic : String) (operands : List Operand) : Option Gpr :=
  match operands with
  | [a, b] =>
    if mnemonic = "xor" ∨ mnemonic = "sub" then
      match a.register?, b.register? with
      | some r, some s => if r = s ∧ ¬ r.isPartial then r.gpr? else none
      | _, _ => none
    else none
  | _ => none

def usesOf (s : OpcodeSpec) (operands : List Operand) : RegSet :=
  let all := s.uses ∪ unionOf (operandUses s.access) 0 operands
  match clearedRegister? s.mnemonic operands with
  | some g => all.erase (.gpr g)
  | none => all

def defsOf (s : OpcodeSpec) (operands : List Operand) : RegSet :=
  s.defs ∪ unionOf (operandDefs s.access) 0 operands

end BinTrace.Decode
