import BinTrace.Instruction.Basic

/-!
What an entry of an opcode map says about the instructions that it stands for. Operand templates
carry the letters of the manufacturers' opcode maps: the first letter gives the place of the
operand, the second its size.
-/

namespace BinTrace

inductive Template
  /-- The r/m field names a register or a memory operand: byte, operand size, word, double word,
  or double word that a W bit makes a quad word. -/
  | eb | ev | ew | ed | ey
  /-- The reg field names a general purpose register of these sizes. -/
  | gb | gv | gw | gy
  /-- The r/m field, which has to name a memory operand. -/
  | m
  /-- Immediates: byte, word, at most a double word, and full operand size. -/
  | ib | iw | iz | iv
  | jb | jz
  /-- The low bits of the opcode name a register: byte or operand size. -/
  | zb | zv
  /-- Registers that the opcode fixes, and the count one of the short shift forms. -/
  | al | ax | cl | dx | one
  /-- Memory at an offset that the instruction holds in full: byte or operand size. -/
  | ob | ov
  /-- A segment register in the reg field, and a far pointer. -/
  | sw | ap
  /-- A vector register in the reg field, and one or memory in the r/m field. -/
  | vx | wx
  deriving DecidableEq

def Template.needsModRm : Template → Bool
  | .eb | .ev | .ew | .ed | .ey | .gb | .gv | .gw | .gy | .m | .sw | .vx | .wx => true
  | _ => false

/-- How the explicit operands are accessed. -/
inductive Access
  /-- All are read. -/
  | read
  /-- The first is written, the others are read. -/
  | write
  /-- All are read, the first is also written. -/
  | update
  /-- All are read, the first two are also written. -/
  | exchange
  /-- None is touched. -/
  | untouched
  deriving DecidableEq

/-- Opcodes whose meaning the reg field of ModRM completes. -/
inductive Group
  | g1 | g1a | g2 | g3b | g3v | g4 | g5 | g6 | g7 | g8 | g9 | g11 | g12 | g15 | g16
  deriving DecidableEq

inductive Trait
  /-- Not valid in 64-bit code. -/
  | only32
  /-- Operands have 64 bits in 64-bit code unless an operand size prefix stands in front. -/
  | wideDefault
  /-- Operands have 64 bits in 64-bit code. -/
  | wideAlways
  /-- The r/m field names a register whatever the mod field says. -/
  | registerForm
  /-- The mandatory prefix chooses the mnemonic. -/
  | namedByPrefix
  deriving DecidableEq

structure OpcodeSpec where
  mnemonic : String
  opcodeClass : OpcodeClass
  operands : List Template
  access : Access
  uses : RegSet := ∅
  defs : RegSet := ∅
  traits : List Trait := []
  group : Option Group := none
  deriving DecidableEq

namespace OpcodeSpec

def undefined : OpcodeSpec := ⟨"(bad)", .invalid, [], .untouched, ∅, ∅, [], none⟩

instance : Inhabited OpcodeSpec := ⟨undefined⟩

def reading (s : OpcodeSpec) (rs : List Gpr) : OpcodeSpec :=
  { s with uses := s.uses ∪ RegSet.ofGprs rs }

def writing (s : OpcodeSpec) (rs : List Gpr) : OpcodeSpec :=
  { s with defs := s.defs ∪ RegSet.ofGprs rs }

def testing (s : OpcodeSpec) (flags : RegSet) : OpcodeSpec :=
  { s with uses := s.uses ∪ flags }

def setting (s : OpcodeSpec) (flags : RegSet) : OpcodeSpec :=
  { s with defs := s.defs ∪ flags }

def marked (s : OpcodeSpec) (t : Trait) : OpcodeSpec := { s with traits := t :: s.traits }

def grouped (s : OpcodeSpec) (g : Group) : OpcodeSpec := { s with group := some g }

def has (s : OpcodeSpec) (t : Trait) : Bool := s.traits.contains t

def needsModRm (s : OpcodeSpec) : Bool :=
  s.group.isSome || s.operands.any Template.needsModRm

/-- The meaning of a group's opcode once its member is known. A member without operands of its own
takes those of the opcode. -/
def complete (s member : OpcodeSpec) : OpcodeSpec :=
  { mnemonic := member.mnemonic
    opcodeClass := member.opcodeClass
    operands := if member.operands.isEmpty then s.operands else member.operands
    access := member.access
    uses := s.uses ∪ member.uses
    defs := s.defs ∪ member.defs
    traits := s.traits ++ member.traits }

end OpcodeSpec

end BinTrace
