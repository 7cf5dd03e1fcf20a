import BinTrace.Decode.Basic
import BinTrace.Encode
import BinTrace.Proofs.Decode.Extent
import Mathlib

/-!
The decoder reads back what patches consist of: near jumps and the recommended no-ops, whatever
bytes follow them.
-/

namespace BinTrace.Decode

open LittleEndian (signedValue)

namespace ByteReader

variable {w : Width} {p : Prefixes} {bytes rest : List UInt8}

/-- The byte is neither a REX byte nor the lead byte of a vector extension encoding, in code of
either width. -/
def IsPlain (b : UInt8) : Prop :=
  (b.toNat < 0x40 ∨ 0x4f < b.toNat) ∧ b.toNat ≠ 0xc4 ∧ b.toNat ≠ 0xc5 ∧ b.toNat ≠ 0x62

instance (b : UInt8) : Decidable (IsPlain b) := inferInstanceAs (Decidable (_ ∧ _))

theorem run_rexByte {b : UInt8} (hb : IsPlain b) (n : Nat) :
    (rexByte w).run ⟨b :: rest, n⟩ = .ok ({}, ⟨b :: rest, n⟩) := by
  have hrex : (w.is64 && 0x40 ≤ b.toNat && b.toNat ≤ 0x4f) = false := by
    have := hb.1
    cases w <;> simp [Width.is64]
    omega
  rw [rexByte, run_bind_of_ok (d := ⟨b :: rest, n⟩) (a := ⟨b :: rest, n⟩) rfl]
  simp only [hrex]
  rfl

theorem run_startsVector {b : UInt8} (hb : IsPlain b) (c : Cursor) :
    (startsVector w b.toNat).run c = .ok (false, c) := by
  obtain ⟨-, h4, h5, h6⟩ := hb
  rw [startsVector, if_neg (by omega)]
  rfl

/-- An opcode of one byte behind the prefixes. -/
theorem run_instruction_oneByte {b : UInt8} (h : Prefixes.scan {} bytes = (p, b :: rest))
    (hb : IsPlain b) (hfloat : ¬(0xd8 ≤ b.toNat ∧ b.toNat ≤ 0xdf)) (hescape : b.toNat ≠ 0x0f) :
    (instruction w).run ⟨bytes, 0⟩ =
      (tail w p {} (oneByteSpec w p {} b.toNat) .oneByte b.toNat).run
        ⟨rest, bytes.length - (b :: rest).length + 1⟩ := by
  rw [instruction, run_bind_of_ok (run_prefixes h 0), Nat.zero_add,
    run_bind_of_ok (run_rexByte hb _), run_bind_of_ok (r := byte) rfl,
    run_bind_of_ok (run_startsVector hb _), if_neg (by decide), if_neg hfloat, if_neg hescape]

/-- An opcode of two bytes behind the prefixes, which does not lead to the maps of three bytes. -/
theorem run_instruction_twoByte {b : UInt8} (h : Prefixes.scan {} bytes = (p, 0x0f :: b :: rest))
    (hb : b.toNat ≠ 0x38 ∧ b.toNat ≠ 0x3a) :
    (instruction w).run ⟨bytes, 0⟩ =
      (tail w p {} (twoByteSpec p b.toNat) .twoByte b.toNat).run
        ⟨rest, bytes.length - (0x0f :: b :: rest).length + 1 + 1⟩ := by
  have hplain : IsPlain 0x0f := by decide
  rw [instruction, run_bind_of_ok (run_prefixes h 0), Nat.zero_add,
    run_bind_of_ok (run_rexByte hplain _), run_bind_of_ok (r := byte) rfl,
    run_bind_of_ok (run_startsVector hplain _), if_neg (by decide), if_neg (by decide),
    if_pos (by decide), run_bind_of_ok (r := byte) rfl, if_neg hb.1, if_neg hb.2]

end ByteReader

open ByteReader Opcode

theorem oneByte_jump : oneByte 0xe9 = branchEntry "jmp" .uncondBranch [.jz] := by decide +kernel

theorem oneByte_nop : oneByte 0x90 = entry "nop" .nop [] .untouched := by decide +kernel

theorem twoByte_nop : twoByte 0x1f = entry "nop" .nop [.ev] .untouched := by decide +kernel

variable {w : Width} {bytes rest : List UInt8}

/-- Where a near jump leads, whatever follows it. -/
theorem decode_jump (w : Width) (b₀ b₁ b₂ b₃ : UInt8) (rest : List UInt8) (a : Nat) :
    ∃ i, decode w (0xe9 :: b₀ :: b₁ :: b₂ :: b₃ :: rest) a = .ok i ∧ i.address = a ∧
      i.bytes = [0xe9, b₀, b₁, b₂, b₃] ∧ i.opcodeClass = .uncondBranch ∧ i.mnemonic = "jmp" ∧
      i.operands = [Operand.relative (signedValue [b₀, b₁, b₂, b₃]) 1 4] := by
  have hspec : oneByteSpec w {} {} 0xe9 = branchEntry "jmp" .uncondBranch [.jz] := by
    rw [← oneByte_jump]
    cases w <;> rfl
  obtain ⟨m, hm, hclass, hname, hoperands⟩ : ∃ m,
      (tail w {} {} (branchEntry "jmp" .uncondBranch [.jz]) .oneByte 0xe9).run
        ⟨b₀ :: b₁ :: b₂ :: b₃ :: rest.take 10, 1⟩ = .ok (m, ⟨rest.take 10, 5⟩) ∧
      m.opcodeClass = .uncondBranch ∧ m.mnemonic = "jmp" ∧
      m.operands = [Operand.relative (signedValue [b₀, b₁, b₂, b₃]) 1 4] := by
    cases w <;> exact ⟨_, rfl, rfl, rfl, rfl⟩
  have hrun : (instruction w).run ⟨(0xe9 :: b₀ :: b₁ :: b₂ :: b₃ :: rest).take maxSize, 0⟩ =
      .ok (m, ⟨rest.take 10, 5⟩) := by
    have htake : (0xe9 :: b₀ :: b₁ :: b₂ :: b₃ :: rest).take maxSize =
        0xe9 :: b₀ :: b₁ :: b₂ :: b₃ :: rest.take 10 := rfl
    rw [htake, run_instruction_oneByte (p := {}) rfl (by decide) (by decide) (by decide),
      Nat.sub_self]
    exact hspec ▸ hm
  exact ⟨_, decode_of_run a hrun, rfl, rfl, hclass, hname, hoperands⟩

/-- The bytes begin with a no-op of `size` bytes, whatever follows it. -/
def StartsNop (w : Width) (size : Nat) (form : List UInt8) : Prop :=
  ∀ rest a, ∃ i, decode w (form ++ rest) a = .ok i ∧ i.address = a ∧ i.bytes = form ∧
    i.isNop = true ∧ form.length = size

theorem decode_nop_of_run {form : List UInt8} {size : Nat} (hsize : form.length = size)
    (h : ∀ rest, ∃ m, (instruction w).run ⟨(form ++ rest).take maxSize, 0⟩ =
      .ok (m, ⟨rest.take (maxSize - size), size⟩) ∧ m.opcodeClass = .nop) :
    StartsNop w size form := by
  intro rest a
  obtain ⟨m, hrun, hclass⟩ := h rest
  refine ⟨_, decode_of_run a hrun, rfl, ?_, ?_, hsize⟩
  · rw [← hsize]
    exact List.take_left' rfl
  · simp [Instruction.isNop, hclass]

/-- An operand size prefix or nothing. -/
def sizePrefix (wide : Bool) : List UInt8 := if wide then [0x66] else []

theorem scan_sizePrefix (wide : Bool) {b : UInt8} (hb : b = 0x90 ∨ b = 0x0f) (rest : List UInt8) :
    Prefixes.scan {} (sizePrefix wide ++ b :: rest) = ({ operandSize := wide }, b :: rest) := by
  rcases hb with rfl | rfl <;> cases wide <;> rfl

theorem take_maxSize_append {form : List UInt8} (h : form.length ≤ maxSize) :
    (form ++ rest).take maxSize = form ++ rest.take (maxSize - form.length) := by
  rw [List.take_append, List.take_of_length_le h]

theorem startsNop_short (w : Width) (wide : Bool) :
    StartsNop w ((sizePrefix wide).length + 1) (sizePrefix wide ++ [0x90]) := by
  refine decode_nop_of_run (by simp) fun rest => ?_
  have hspec : oneByteSpec w { operandSize := wide } {} 0x90 = entry "nop" .nop [] .untouched := by
    rw [← oneByte_nop]
    cases w <;> cases wide <;> rfl
  rw [take_maxSize_append (by cases wide <;> decide), List.append_assoc, List.singleton_append,
    run_instruction_oneByte (scan_sizePrefix wide (.inl rfl) _) (by decide) (by decide) (by decide)]
  have hb : (0x90 : UInt8).toNat = 0x90 := rfl
  rw [hb, hspec]
  simp only [List.length_append, List.length_cons, List.length_nil, Nat.add_sub_cancel]
  cases w <;> cases wide <;> exact ⟨_, rfl, rfl⟩

/-- What may stand behind the opcode of the longer no-ops: a ModRM byte for memory and what belongs
to it. -/
def nopOperands : List (List UInt8) :=
  [[0x00], [0x40, 0x00], [0x44, 0x00, 0x00], [0x80, 0x00, 0x00, 0x00, 0x00],
    [0x84, 0x00, 0x00, 0x00, 0x00, 0x00]]

theorem startsNop_long (w : Width) (wide : Bool) (operand : List UInt8)
    (h : operand ∈ nopOperands) : StartsNop w ((sizePrefix wide).length + 2 + operand.length)
      (sizePrefix wide ++ 0x0f :: 0x1f :: operand) := by
  have hle : operand.length ≤ 6 := by
    revert operand
    decide
  have hfit : (sizePrefix wide).length ≤ 1 := by cases wide <;> decide
  refine decode_nop_of_run (by simp; omega) fun rest => ?_
  have hspec : twoByteSpec { operandSize := wide } 0x1f = entry "nop" .nop [.ev] .untouched := by
    rw [← twoByte_nop]
    cases wide <;> rfl
  rw [take_maxSize_append (by simp [maxSize]; omega), List.append_assoc, List.cons_append,
    List.cons_append, run_instruction_twoByte (scan_sizePrefix wide (.inr rfl) _) (by decide)]
  have hb : (0x1f : UInt8).toNat = 0x1f := rfl
  rw [hb, hspec]
  simp only [List.length_append, List.length_cons, Nat.add_sub_cancel]
  simp only [nopOperands, List.mem_cons, List.not_mem_nil, or_false] at h
  rcases h with rfl | rfl | rfl | rfl | rfl <;> cases w <;> cases wide <;> exact ⟨_, rfl, rfl⟩

/-- Every no-op that the encoder makes is read as one. -/
theorem startsNop_nopOfSize (w : Width) {size : Nat} (hpos : 1 ≤ size) (hle : size ≤ Encode.maxNop) :
    StartsNop w size (Encode.nopOfSize size).bytes := by
  have hcases : size = 1 ∨ size = 2 ∨ size = 3 ∨ size = 4 ∨ size = 5 ∨ size = 6 ∨ size = 7 ∨
      size = 8 ∨ size = 9 := by
    simp only [Encode.maxNop] at hle
    omega
  rcases hcases with rfl | rfl | rfl | rfl | rfl | rfl | rfl | rfl | rfl
  · exact startsNop_short w false
  · exact startsNop_short w true
  · exact startsNop_long w false [0x00] (by decide)
  · exact startsNop_long w false [0x40, 0x00] (by decide)
  · exact startsNop_long w false [0x44, 0x00, 0x00] (by decide)
  · exact startsNop_long w true [0x44, 0x00, 0x00] (by decide)
  · exact startsNop_long w false [0x80, 0x00, 0x00, 0x00, 0x00] (by decide)
  · exact startsNop_long w false [0x84, 0x00, 0x00, 0x00, 0x00, 0x00] (by decide)
  · exact startsNop_long w true [0x84, 0x00, 0x00, 0x00, 0x00, 0x00] (by decide)

end BinTrace.Decode
