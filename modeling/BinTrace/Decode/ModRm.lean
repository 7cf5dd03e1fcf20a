import BinTrace.Decode.Prefixes
import BinTrace.Decode.Reader
import BinTrace.Instruction.Operand
import BinTrace.LittleEndian

/-!
The ModRM byte with what may follow it: a scale-index-base byte and a displacement.
-/

namespace BinTrace.Decode

/-- The r/m field names a register exactly if `memory` is `none`. -/
structure ModRm where
  byte : Nat
  /-- The reg field with its extension bit. -/
  reg : Nat
  rm : Nat
  memory : Option Operand

namespace ModRm

def isRegister (m : ModRm) : Bool := m.memory.isNone

def regField (m : ModRm) : Nat := m.byte / 8 % 8

def rmField (m : ModRm) : Nat := m.byte % 8

end ModRm

namespace ByteReader

/-- A field in two's complement, with its place. -/
def signed (width : Nat) : ByteReader (Int × Nat) := do
  let (bytes, offset) ← field width
  return (LittleEndian.signedValue bytes, offset)

/-- A field without a sign, with its place. Fields of eight bytes are read as signed words. -/
def unsigned (width : Nat) : ByteReader (Int × Nat) := do
  let (bytes, offset) ← field width
  return ((LittleEndian.value bytes : Int).bmod addressSpace, offset)

/-- A memory operand whose displacement has `width` bytes; it is zero if there are none. -/
def displaced (m : MemoryRef) (width : Nat) : ByteReader Operand := do
  if width = 0 then return Operand.memory m 0 0 0
  let (value, offset) ← signed width
  return Operand.memory m value offset width

/-- The base and index of the 16-bit address forms. -/
def pairOf (mode rm : Nat) : MemoryRef :=
  let word (r : Gpr) : Option Register := some (Register.ofGpr r 2)
  match rm with
  | 0 => { base := word .bx, index := word .si }
  | 1 => { base := word .bx, index := word .di }
  | 2 => { base := word .bp, index := word .si }
  | 3 => { base := word .bp, index := word .di }
  | 4 => { base := word .si }
  | 5 => { base := word .di }
  | 6 => if mode = 0 then {} else { base := word .bp }
  | _ => { base := word .bx }

/-- Width of the displacement in the 16-bit address forms. -/
def pairDisplacement (mode rm : Nat) : Nat :=
  match mode with
  | 0 => if rm = 6 then 2 else 0
  | 1 => 1
  | 2 => 2
  | _ => 0

/-- A memory operand of the 32-bit and 64-bit address forms. `mode` and `rm` are the fields of
ModRM; the r/m value four asks for a scale-index-base byte. -/
def address (rex : Rex) (addressSize : Nat) (relativeToEnd : Bool) (mode rm : Nat) :
    ByteReader Operand := do
  let kind := if addressSize = 8 then RegisterClass.qword else .dword
  let width := if mode = 1 then 1 else if mode = 2 then 4 else 0
  if rm = 4 then
    let sib ← byte
    let index := sib / 8 % 8 + Rex.extension rex.x
    let scaled : MemoryRef :=
      if index = 4 then {} else { index := some ⟨kind, index⟩, scale := 2 ^ (sib / 64) }
    if sib % 8 = 5 ∧ mode = 0 then displaced scaled 4
    else
      displaced { scaled with base := some ⟨kind, sib % 8 + Rex.extension rex.b⟩ } width
  else if rm = 5 ∧ mode = 0 then
    displaced { relativeToEnd := relativeToEnd } 4
  else
    displaced { base := some ⟨kind, rm + Rex.extension rex.b⟩ } width

/-- Reads ModRM and what belongs to it. `addressSize` is 2, 4 or 8; with `forceRegister` the r/m
field names a register whatever the mod field says. -/
def modRm (rex : Rex) (addressSize : Nat) (relativeToEnd forceRegister : Bool) :
    ByteReader ModRm := do
  let b ← byte
  let mode := b / 64
  let rm := b % 8
  let reg := b / 8 % 8 + Rex.extension rex.r
  if mode = 3 ∨ forceRegister then
    return ⟨b, reg, rm + Rex.extension rex.b, none⟩
  else if addressSize = 2 then
    let memory ← displaced (pairOf mode rm) (pairDisplacement mode rm)
    return ⟨b, reg, rm, some memory⟩
  else
    let memory ← address rex addressSize relativeToEnd mode rm
    return ⟨b, reg, rm + Rex.extension rex.b, some memory⟩

end ByteReader

end BinTrace.Decode
