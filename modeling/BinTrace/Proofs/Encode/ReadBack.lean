import BinTrace.Proofs.Decode.Shapes
import BinTrace.Proofs.Patch.Preservation

/-!
What it means that the decoder reads back what was encoded. The encoder says what its instructions
do, and the decoder finds it out from their bytes; they agree if class, mnemonic, reads, writes and
target are the same and the operands match one by one.
-/

namespace BinTrace

namespace RegSet

@[simp] theorem union_empty (s : RegSet) : s ∪ ∅ = s :=
  eq_of_mem_iff fun c => by rw [mem_union, or_iff_left (not_mem_empty c)]

@[simp] theorem empty_union (s : RegSet) : ∅ ∪ s = s :=
  eq_of_mem_iff fun c => by rw [mem_union, or_iff_right (not_mem_empty c)]

theorem union_comm (s t : RegSet) : s ∪ t = t ∪ s :=
  eq_of_mem_iff fun c => by rw [mem_union, mem_union, or_comm]

@[simp] theorem ofGprs_nil : ofGprs [] = ∅ := rfl

theorem ofGprs_cons (r : Gpr) (rs : List Gpr) : ofGprs (r :: rs) = singleton (.gpr r) ∪ ofGprs rs :=
  eq_of_mem_iff fun c => by
    rw [mem_union, mem_singleton, mem_ofGprs, mem_ofGprs, List.exists_mem_cons_iff, eq_comm]

end RegSet

/-- The operand `p` says in code of width `w` what `o` says. A register may be read at another
size, an immediate counts modulo what its field holds, and in 32-bit code an address without
registers counts modulo 2^32. -/
inductive Operand.ReadsAs (w : Width) : Operand → Operand → Prop
  | register {r s : Register} (hnumber : s.number = r.number) (hgpr : s.gpr? = r.gpr?) :
      ReadsAs w (.ofRegister r) (.ofRegister s)
  | immediate {u v : Int} (offset : Nat) {width : Nat}
      (h : u % 256 ^ width = v % 256 ^ width) :
      ReadsAs w (.immediate u offset width) (.immediate v offset width)
  | memory (m : MemoryRef) (v : Int) (offset width : Nat) :
      ReadsAs w (.memory m v offset width) (.memory m v offset width)
  | address {u v : Int} (offset width : Nat) (hw : w = .bits32)
      (h : u % 2 ^ (32 : Nat) = v % 2 ^ (32 : Nat)) :
      ReadsAs w (.memory {} u offset width) (.memory {} v offset width)
  | relative (v : Int) (offset width : Nat) :
      ReadsAs w (.relative v offset width) (.relative v offset width)

/-- `j` is what the encoder promised with `i`. -/
structure Instruction.ReadsBack (w : Width) (i j : Instruction) : Prop where
  address_eq : j.address = i.address
  bytes_eq : j.bytes = i.bytes
  opcodeClass_eq : j.opcodeClass = i.opcodeClass
  mnemonic_eq : j.mnemonic = i.mnemonic
  uses_eq : j.uses = i.uses
  defs_eq : j.defs = i.defs
  relativeTarget?_eq : j.relativeTarget? = i.relativeTarget?
  operands : List.Forall₂ (Operand.ReadsAs w) i.operands j.operands

/-- The instruction is marked as the encoder's, and the decoder reads what was promised with it from
its bytes and takes them all. -/
structure Encode.IsReadBack (w : Width) (i : Instruction) : Prop where
  source_eq : i.source = .instrumentation
  exists_decode : ∃ j, decode w i.bytes i.address = .ok j ∧ i.ReadsBack w j

/-- The number that an instruction with a register and an immediate loads: as many bytes of the
immediate, in two's complement, as the register has. Writing four bytes of a register of eight
clears the others. -/
def Instruction.loadedValue? (i : Instruction) : Option Int :=
  match i.operands with
  | [target, source] =>
    match target.kind, source.kind with
    | .register r, .immediate => some (source.value % 256 ^ r.size)
    | _, _ => none
  | _ => none

namespace Operand.ReadsAs

variable {w : Width} {o p : Operand}

/-- Operands that refer to a place relative to the instruction refer to the same one. -/
theorem isRelative_eq (h : ReadsAs w o p) : p.isRelative = o.isRelative := by
  cases h <;> rfl

theorem eq_of_isRelative (h : ReadsAs w o p) (ho : o.isRelative = true) : p = o := by
  cases h with
  | memory | relative => rfl
  | register | immediate | address => cases ho

theorem find?_isRelative {os ps : List Operand} (h : List.Forall₂ (ReadsAs w) os ps) :
    ps.find? Operand.isRelative = os.find? Operand.isRelative := by
  induction h with
  | nil => rfl
  | @cons o p os ps hop _ ih =>
      rw [List.find?_cons, List.find?_cons, hop.isRelative_eq]
      split
      · rename_i ho
        rw [hop.eq_of_isRelative ho]
      · exact ih

theorem refl_wordOperand (w : Width) (r : Gpr) :
    ReadsAs w (Encode.wordOperand w r) (Encode.wordOperand w r) :=
  .register rfl rfl

end Operand.ReadsAs

namespace Decode

open Encode (wordOperand wordRegister)

variable {w : Width} {s : OpcodeSpec} {r : Gpr} {register : Register}

/-- Only a difference and an exclusive or clear a register without reading it. -/
theorem usesOf_eq (hname : s.mnemonic ∉ ["xor", "sub"]) (operands : List Operand) :
    usesOf s operands = s.uses ∪ unionOf (operandUses s.access) 0 operands := by
  have hcleared : clearedRegister? s.mnemonic operands = none := by
    unfold clearedRegister?
    split
    · rw [if_neg (by simpa using hname)]
    · rfl
  simp only [usesOf, hcleared]

/-- What the decoder made of the bytes of `i` is what was promised with `i`, if the entry of the
opcode map and the operands say so. -/
theorem readsBack_plainMeaning {i : Instruction} {operands : List Operand}
    (hoperands : List.Forall₂ (Operand.ReadsAs w) i.operands operands)
    (hclass : s.opcodeClass = i.opcodeClass) (hmnemonic : s.mnemonic = i.mnemonic)
    (hname : s.mnemonic ∉ ["xor", "sub"])
    (huses : s.uses ∪ unionOf (operandUses s.access) 0 operands ∪
      CallingConvention.uses w s.opcodeClass = i.uses)
    (hdefs : s.defs ∪ unionOf (operandDefs s.access) 0 operands ∪
      CallingConvention.defs w s.opcodeClass = i.defs) :
    i.ReadsBack w (instructionOf (plainMeaning w s operands) i.bytes i.address) where
  address_eq := rfl
  bytes_eq := rfl
  opcodeClass_eq := hclass
  mnemonic_eq := hmnemonic
  uses_eq := by
    rw [← huses, ← usesOf_eq hname]
    exact congrArg (· ∪ _) (RegSet.union_empty _)
  defs_eq := by
    rw [← hdefs]
    exact congrArg (· ∪ _) (RegSet.union_empty _)
  relativeTarget?_eq :=
    congrArg (Option.map _) (Operand.ReadsAs.find?_isRelative hoperands)
  operands := hoperands

/-! ### Effects of operands -/

theorem operandUses_register (hgpr : register.gpr? = some r) (hpartial : register.isPartial = false)
    (a : Access) (position : Nat) : operandUses a position (.ofRegister register) =
      if (accesses a position).1 then RegSet.singleton (.gpr r) else ∅ := by
  simp only [operandUses, Operand.ofRegister, hgpr, hpartial, Bool.and_false, Bool.or_false]

theorem operandDefs_register (hgpr : register.gpr? = some r) (a : Access) (position : Nat) :
    operandDefs a position (.ofRegister register) =
      if (accesses a position).2 then RegSet.singleton (.gpr r) else ∅ := by
  simp only [operandDefs, Operand.ofRegister, Operand.register?, Option.bind_some, hgpr]

variable (a : Access) (position : Nat) (m : MemoryRef) (v : Int) (offset width : Nat)

@[simp] theorem operandUses_memory :
    operandUses a position (.memory m v offset width) = m.addressRegs := rfl

@[simp] theorem operandDefs_memory : operandDefs a position (.memory m v offset width) = ∅ := rfl

@[simp] theorem operandUses_immediate :
    operandUses a position (.immediate v offset width) = ∅ := rfl

@[simp] theorem operandDefs_immediate :
    operandDefs a position (.immediate v offset width) = ∅ := rfl

@[simp] theorem operandUses_relative :
    operandUses a position (.relative v offset width) = ∅ := rfl

@[simp] theorem operandDefs_relative :
    operandDefs a position (.relative v offset width) = ∅ := rfl

end Decode

end BinTrace
