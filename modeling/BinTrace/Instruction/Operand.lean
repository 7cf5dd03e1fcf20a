import BinTrace.Register.RegSet
import BinTrace.Text.Number

/-!
Explicit operands. An operand that is written in the instruction's bytes says where: `offset` and
`width` give its field, and a width of zero means that no field holds it.
-/

namespace BinTrace

/-- How a memory operand forms its address, the displacement apart. -/
structure MemoryRef where
  base : Option Register := none
  index : Option Register := none
  scale : Nat := 1
  /-- The displacement counts from the end of the instruction. -/
  relativeToEnd : Bool := false
  deriving DecidableEq

namespace MemoryRef

/-- The registers that are read to form the address. -/
def addressRegs (m : MemoryRef) : RegSet :=
  RegSet.ofGprs (m.base.bind Register.gpr?).toList ∪
    RegSet.ofGprs (m.index.bind Register.gpr?).toList

end MemoryRef

inductive OperandKind
  | register (r : Register)
  | immediate
  | memory (m : MemoryRef)
  /-- A branch displacement, which counts from the end of the instruction. -/
  | relative
  deriving DecidableEq

structure Operand where
  kind : OperandKind
  value : Int := 0
  offset : Nat := 0
  width : Nat := 0
  deriving DecidableEq

namespace Operand

def ofRegister (r : Register) : Operand := { kind := .register r }

def immediate (value : Int) (offset width : Nat) : Operand := ⟨.immediate, value, offset, width⟩

def memory (m : MemoryRef) (displacement : Int) (offset width : Nat) : Operand :=
  ⟨.memory m, displacement, offset, width⟩

def relative (displacement : Int) (offset width : Nat) : Operand :=
  ⟨.relative, displacement, offset, width⟩

/-- The operand's displacement counts from the end of the instruction. -/
def isRelative (o : Operand) : Bool :=
  match o.kind with
  | .relative => true
  | .memory m => m.relativeToEnd
  | _ => false

def register? (o : Operand) : Option Register :=
  match o.kind with
  | .register r => some r
  | _ => none

def memory? (o : Operand) : Option MemoryRef :=
  match o.kind with
  | .memory m => some m
  | _ => none

/-- The parts of an address in square brackets: base, scaled index, displacement. A displacement
of zero is left out unless it is the only part. -/
def memoryText (m : MemoryRef) (displacement : Int) : String :=
  let origin := (if m.relativeToEnd then "rip" else "") ++ (m.base.map Register.name).getD ""
  let scaled := match m.index with
    | some i => (if origin.isEmpty then "" else "+") ++ i.name ++ "*" ++ toString m.scale
    | none => ""
  let parts := origin ++ scaled
  let offset :=
    if displacement = 0 ∧ ¬ parts.isEmpty then ""
    else if ¬ parts.isEmpty ∧ 0 ≤ displacement then "+" ++ Text.signedHex displacement
    else Text.signedHex displacement
  "[" ++ parts ++ offset ++ "]"

def text (o : Operand) : String :=
  match o.kind with
  | .register r => r.name
  | .immediate | .relative => Text.signedHex o.value
  | .memory m => memoryText m o.value

end Operand

end BinTrace
