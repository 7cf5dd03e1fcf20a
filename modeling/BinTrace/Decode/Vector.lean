import BinTrace.Decode.Dataflow
import BinTrace.Decode.Operand

/-!
Vector extension encodings, which pack prefixes and opcode map into two to four bytes. Only their
length, their operands in general purpose registers and memory, and their class are recorded.
-/

namespace BinTrace.Decode

/-- What an instruction means, its place and bytes apart. -/
structure Meaning where
  opcodeClass : OpcodeClass
  mnemonic : String
  operands : List Operand := []
  uses : RegSet := ∅
  defs : RegSet := ∅

/-- The fields of a vector extension encoding up to the opcode. -/
structure VectorHead where
  rex : Rex
  map : Nat
  opcode : Nat
  /-- The register in the extra operand field. -/
  extra : Nat
  /-- The number of the mandatory prefix that the encoding stands for. -/
  embeddedPrefix : Nat
  mnemonic : String

namespace VectorHead

def isBitManipulation (h : VectorHead) : Bool :=
  (h.map = 2 && 0xf0 ≤ h.opcode && h.opcode ≤ 0xf7) || (h.map = 3 && h.opcode = 0xf0)

def hasImmediate (h : VectorHead) : Bool :=
  h.map = 3 || (h.map = 1 &&
    ((0x70 ≤ h.opcode && h.opcode ≤ 0x73) || h.opcode = 0xc2 ||
      (0xc4 ≤ h.opcode && h.opcode ≤ 0xc6)))

/-- The r/m field names a general purpose register, not a vector. -/
def readsGpr (h : VectorHead) : Bool :=
  (h.map = 1 && (h.opcode = 0x6e || h.opcode = 0x2a || h.opcode = 0xc4)) ||
    (h.map = 3 && (h.opcode = 0x20 || h.opcode = 0x22))

/-- Instructions that write the extra register, not the one in the reg field. -/
def writesExtra (h : VectorHead) : Bool := h.map = 2 && h.opcode = 0xf3

/-- The long multiplication, which reads `dx` and writes two registers. -/
def isLongProduct (h : VectorHead) : Bool := h.opcode = 0xf6 && h.embeddedPrefix = 3

def gprSize (h : VectorHead) (w : Width) : Nat := if h.rex.w && w.is64 then 8 else 4

def gprSet (number : Nat) : RegSet := RegSet.ofGprs (Gpr.ofIndex? number).toList

def bitManipulation (h : VectorHead) (w : Width) (m : ModRm) : Meaning :=
  let size := h.gprSize w
  let gpr (number : Nat) : Operand := Operand.ofRegister ⟨Register.classOfSize size, number⟩
  let target := if h.writesExtra then gprSet h.extra else gprSet m.reg
  { opcodeClass := .int
    mnemonic := "bmi"
    operands := [gpr m.reg, m.memory.getD (gpr m.rm)]
    uses := gprSet h.extra ∪ (if h.isLongProduct then RegSet.ofGprs [.dx] else ∅) ∪
      (if m.isRegister then gprSet m.rm else ∅)
    defs := target ∪ (if h.isLongProduct then gprSet h.extra else ∅) }

def vectorOperation (h : VectorHead) (w : Width) (m : ModRm) : Meaning :=
  let vector (number : Nat) : Operand := Operand.ofRegister ⟨.xmm, number⟩
  let source :=
    if h.readsGpr then Operand.ofRegister ⟨Register.classOfSize (h.gprSize w), m.rm⟩
    else vector m.rm
  { opcodeClass := .simd
    mnemonic := h.mnemonic
    operands := [vector m.reg, m.memory.getD source]
    uses := if m.isRegister && h.readsGpr then gprSet m.rm else ∅
    defs := if h.map = 1 && (h.opcode = 0x2e || h.opcode = 0x2f) then RegSet.statusFlags else ∅ }

/-- What the encoding means, its immediate apart. -/
def meaning (h : VectorHead) (w : Width) (m : ModRm) : Meaning :=
  let base := if h.isBitManipulation then h.bitManipulation w m else h.vectorOperation w m
  match m.memory.bind Operand.memory? with
  | some r => { base with uses := base.uses ∪ r.addressRegs }
  | none => base

end VectorHead

namespace ByteReader

def vectorTail (w : Width) (h : VectorHead) : ByteReader Meaning := do
  if h.map = 1 ∧ h.opcode = 0x77 then
    return { opcodeClass := .simd, mnemonic := "vzeroupper" }
  let m ← modRm h.rex (if w.is64 then 8 else 4) w.is64 false
  let meaning := h.meaning w m
  if h.hasImmediate then
    let immediate ← signedImmediate 1
    return { meaning with operands := meaning.operands ++ [immediate] }
  return meaning

/-- A field of four bits that is stored with its bits turned round. -/
def invertedNibble (n : Nat) : Nat := 15 - n / 8 % 16

def vex (w : Width) (lead : Nat) : ByteReader Meaning := do
  let first ← byte
  let (rex, map, last) ←
    if lead = 0xc5 then
      pure (({ isPresent := true, r := !first.testBit 7 } : Rex), 1, first)
    else do
      let second ← byte
      pure (⟨true, second.testBit 7, !first.testBit 7, !first.testBit 6, !first.testBit 5⟩,
        first % 32, second)
  let rex := if w.is64 then rex else { w := rex.w }
  if map < 1 ∨ 3 < map then reject
  let opcode ← byte
  vectorTail w ⟨rex, map, opcode, invertedNibble last, last % 4, "vex"⟩

def evex (w : Width) : ByteReader Meaning := do
  let first ← byte
  let second ← byte
  let _ ← byte
  if !second.testBit 2 then reject
  let map := first % 8
  if map = 0 ∨ map = 4 ∨ map = 7 then reject
  let rex : Rex :=
    if w.is64 then
      ⟨true, second.testBit 7, !first.testBit 7, !first.testBit 6, !first.testBit 5⟩
    else {}
  let opcode ← byte
  vectorTail w ⟨rex, map, opcode, invertedNibble second, second % 4, "evex"⟩

end ByteReader

end BinTrace.Decode
