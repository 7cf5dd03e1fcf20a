import BinTrace.Proofs.Encode.ReadBack
import BinTrace.Proofs.Decode.Retarget
import BinTrace.Proofs.Outcome

/-!
What the decoder makes of the pieces that encoded instructions are put together from: REX bytes,
registers in the opcode, memory at a base or an absolute address, and relative fields.
-/

namespace BinTrace

namespace Encode

open Decode (ReadsRex Layout)
open Decode.ByteReader (operand modRm run_signedImmediate)
open LittleEndian (bytesOf bytesOfInt signedValue FitsSigned)

variable {w : Width} {r : Gpr}

/-- The register can be named in code of this width. -/
def IsNamable (w : Width) (r : Gpr) : Prop := r.isExtended = true → w.is64 = true

theorem requireGpr_eq_ok {mnemonic : String} : requireGpr w mnemonic r = .ok () ↔ IsNamable w r := by
  rw [requireGpr, IsNamable]
  cases r.isExtended <;> cases w.is64 <;> simp

/-- What the decoder makes of the encoder's REX byte. -/
def rexOf (w : Width) (isWide : Bool) (reg rm : Nat) : Decode.Rex :=
  let bits := (if isWide then 8 else 0) + (if 8 ≤ reg then 4 else 0) + (if 8 ≤ rm then 1 else 0)
  if w.is64 && bits ≠ 0 then Decode.Rex.ofByte (0x40 + bits) else {}

theorem readsRex_rexBytes (w : Width) (isWide : Bool) (reg rm : Nat) :
    ReadsRex w (rexBytes w isWide reg rm) (rexOf w isWide reg rm) := by
  have hbits : (if isWide then 8 else 0) + (if 8 ≤ reg then 4 else 0) + (if 8 ≤ rm then 1 else 0) <
      16 := by
    split_ifs <;> decide
  unfold rexBytes rexOf
  generalize (if isWide then 8 else 0) + (if 8 ≤ reg then 4 else 0) + (if 8 ≤ rm then 1 else 0) =
    bits at hbits
  dsimp only
  by_cases h : (w.is64 && bits ≠ 0) = true
  · rw [if_pos h, if_pos h]
    exact .present bits hbits (Bool.and_eq_true_iff.mp h).1
  · rw [if_neg h, if_neg h]
    exact .absent

/-- The bits of the REX byte are those that were asked for, as far as code of this width has them. -/
theorem rexOf_bits (w : Width) (isWide : Bool) (reg rm : Nat) :
    (rexOf w isWide reg rm).w = (w.is64 && isWide) ∧ (rexOf w isWide reg rm).x = false ∧
      (rexOf w isWide reg rm).r = (w.is64 && decide (8 ≤ reg)) ∧
      (rexOf w isWide reg rm).b = (w.is64 && decide (8 ≤ rm)) := by
  unfold rexOf
  by_cases hreg : 8 ≤ reg <;> by_cases hrm : 8 ≤ rm <;> cases w <;> cases isWide <;>
    simp only [hreg, hrm] <;> decide

theorem low3_lt (r : Gpr) : r.low3 < 8 := Nat.mod_lt _ (by decide)

/-- The bit puts the register's number together again. -/
theorem low3_add_extension (hr : IsNamable w r) :
    r.low3 + Decode.Rex.extension (w.is64 && decide (8 ≤ r.index)) = r.index := by
  cases w with
  | bits64 => cases r <;> rfl
  | bits32 =>
      cases r <;> first | rfl | exact absurd (hr rfl) (by decide)

theorem length_le_of_readsRex {rexs : List UInt8} {rex : Decode.Rex} (h : ReadsRex w rexs rex) :
    rexs.length ≤ 1 := by
  cases h <;> simp

/-- A register in the opcode has the extension bit of a register in the r/m field. -/
theorem opcodeRex_eq (hr : IsNamable w r) : opcodeRex r = rexBytes w false 0 r.index := by
  cases w with
  | bits64 => cases r <;> rfl
  | bits32 => cases r <;> first | rfl | exact absurd (hr rfl) (by decide)

theorem gpr?_ofGpr (r : Gpr) (size : Nat) : (Register.ofGpr r size).gpr? = some r := by
  unfold Register.ofGpr Register.classOfSize
  split <;> exact r.ofIndex?_index

theorem isPartial_wordRegister (w : Width) (r : Gpr) : (wordRegister w r).isPartial = false := by
  cases w <;> rfl

theorem wordRegister_eq (w : Width) (r : Gpr) :
    wordRegister w r = ⟨Register.classOfSize w.wordSize, r.index⟩ := rfl

/-- A decoded general purpose register of at least four bytes. -/
theorem gprOperand_eq {l : Decode.Layout} {number size : Nat} (h : number = r.index)
    (hsize : size ≠ 1) : l.gprOperand number size = Operand.ofRegister (Register.ofGpr r size) := by
  rw [Decode.Layout.gprOperand, Decode.Layout.gpr, if_neg (fun h => hsize h.1), h]
  rfl

theorem wordSize_ne_one (w : Width) : w.wordSize ≠ 1 := by cases w <;> decide

/-! ### Operands -/

section Operands

variable {s : OpcodeSpec} {rex : Decode.Rex} {l : Layout} {m : Decode.ModRm}
  {memory : Operand} {size : Nat}

theorem operandSize_of_wideDefault (hs : s.has .wideDefault = true) :
    Decode.operandSize w s {} rex = w.wordSize := by
  cases w <;> simp [Decode.operandSize, hs, Width.is64, Width.wordSize]

theorem operandSize_of_narrow (halways : s.has .wideAlways = false)
    (hdefault : s.has .wideDefault = false) :
    Decode.operandSize w s {} rex = if w.is64 && rex.w then 8 else 4 := by
  cases w <;> simp [Decode.operandSize, halways, hdefault, Width.is64]

/-- The low bits of an opcode name a register. -/
theorem run_opcodeRegister (hr : IsNamable w r) (hopcode : l.opcode % 8 = r.low3)
    (hb : l.rex.b = (w.is64 && decide (8 ≤ r.index))) (hsize : l.operandSize = size)
    (hne : size ≠ 1) (modRm? : Option Decode.ModRm) (c : Decode.Cursor) :
    (operand l modRm? .zv).run c = .ok (Operand.ofRegister (Register.ofGpr r size), c) := by
  have hregister : l.opcodeRegister l.operandSize = Operand.ofRegister (Register.ofGpr r size) :=
    hsize ▸ gprOperand_eq (by rw [hopcode, hb, low3_add_extension hr]) (hsize ▸ hne)
  rw [← hregister]
  rfl

/-- The reg field names a register. -/
theorem run_regOperand (hreg : m.reg = r.index) (hsize : l.operandSize = size) (hne : size ≠ 1)
    (c : Decode.Cursor) :
    (operand l (some m) .gv).run c = .ok (Operand.ofRegister (Register.ofGpr r size), c) := by
  rw [← gprOperand_eq hreg hne, ← hsize]
  rfl

/-- The r/m field names a register. -/
theorem run_rmRegister (hmemory : m.memory = none) (hrm : m.rm = r.index)
    (hsize : l.operandSize = size) (hne : size ≠ 1) (c : Decode.Cursor) :
    (operand l (some m) .ev).run c = .ok (Operand.ofRegister (Register.ofGpr r size), c) := by
  have hregister : l.rmOperand m l.operandSize = Operand.ofRegister (Register.ofGpr r size) := by
    rw [Layout.rmOperand, hmemory, hsize]
    exact gprOperand_eq hrm hne
  rw [← hregister]
  rfl

/-- The r/m field stands for memory. -/
theorem run_rmMemory {t : Template} (ht : t = .ev ∨ t = .m) (hmemory : m.memory = some memory)
    (c : Decode.Cursor) : (operand l (some m) t).run c = .ok (memory, c) := by
  obtain ⟨b, reg, rm, memory?⟩ := m
  cases hmemory
  rcases ht with rfl | rfl <;> rfl

/-- An immediate of four bytes that ends the instruction. -/
theorem run_immediate {bytes : List UInt8} (hlength : bytes.length = 4) (hne : l.operandSize ≠ 2)
    (modRm? : Option Decode.ModRm) (position : Nat) :
    (operand l modRm? .iz).run ⟨bytes, position⟩ =
      .ok (Operand.immediate (signedValue bytes) position 4, ⟨[], position + 4⟩) := by
  rw [← run_signedImmediate hlength, ← show l.immediateSize = 4 from if_neg hne]
  rfl

end Operands

@[simp] theorem operandUses_wordOperand (a : Access) (position : Nat) (w : Width) (r : Gpr) :
    Decode.operandUses a position (wordOperand w r) =
      if (Decode.accesses a position).1 then RegSet.singleton (.gpr r) else ∅ :=
  Decode.operandUses_register (gpr?_ofGpr r w.wordSize) (isPartial_wordRegister w r) a position

@[simp] theorem operandDefs_wordOperand (a : Access) (position : Nat) (w : Width) (r : Gpr) :
    Decode.operandDefs a position (wordOperand w r) =
      if (Decode.accesses a position).2 then RegSet.singleton (.gpr r) else ∅ :=
  Decode.operandDefs_register (gpr?_ofGpr r w.wordSize) a position

/-! ### Memory -/

/-- The bytes are an opcode behind a REX byte or none and in front of ModRM with a register in the
reg field and a memory operand. -/
inductive ReadsMemory (w : Width) (opcode : UInt8) (r : Gpr) (memory : Operand) :
    List UInt8 → Prop
  | intro {rexs behind : List UInt8} {rex : Decode.Rex} {m : Decode.ModRm}
      (hrex : ReadsRex w rexs rex) (hwide : rex.w = w.is64) (hsize : behind.length ≤ 6)
      (hreg : m.reg = r.index) (hfield : m.regField = r.low3) (hmemory : m.memory = some memory)
      (hrun : ∀ rest, (modRm rex (Decode.addressSize w {}) w.is64 false).run
        ⟨behind ++ rest, rexs.length + 1⟩ = .ok (m, ⟨rest, rexs.length + 1 + behind.length⟩)) :
      ReadsMemory w opcode r memory (rexs ++ opcode :: behind)

/-- Memory whose field is read behind ModRM. -/
theorem readsMemory_of_run {opcode : UInt8} {memory : Operand} {base mode rm : Nat}
    {field : List UInt8} (hr : IsNamable w r) (hmode : mode < 3) (hrm : rm < 8)
    (hsize : field.length ≤ 5)
    (hrun : ∀ rest, (Decode.ByteReader.address (rexOf w w.is64 r.index base)
        (Decode.addressSize w {}) w.is64 mode rm).run
      ⟨field ++ rest, (rexBytes w w.is64 r.index base).length + 1 + 1⟩ =
        .ok (memory, ⟨rest, (rexBytes w w.is64 r.index base).length + 1 + (field.length + 1)⟩)) :
    ReadsMemory w opcode r memory (rexBytes w w.is64 r.index base ++
      opcode :: UInt8.ofNat (mode * 64 + r.low3 * 8 + rm) :: field) := by
  obtain ⟨hwide, -, hregBit, -⟩ := rexOf_bits w w.is64 r.index base
  refine .intro (readsRex_rexBytes ..) ?hwide (Nat.succ_le_succ hsize) ?hreg ?hfield rfl
    fun rest => Decode.ByteReader.run_modRm_memory hmode (low3_lt r) hrm (hrun rest)
  case hwide => rw [hwide, Bool.and_self]
  case hreg => exact hregBit ▸ low3_add_extension hr
  case hfield => exact (Decode.ByteReader.fields_modRm (by omega) (low3_lt r) hrm).2.2

open Decode.ByteReader (baseSib absoluteSib displacementWidth)

/-- The parts of the form for a base register. -/
theorem baseForm_ok {reg base : Gpr} {displacement : Int} {form : List UInt8} {width : Nat}
    (h : baseForm reg base displacement = .ok (form, width)) :
    ∃ mode, mode < 3 ∧ ¬(base.low3 = 5 ∧ mode = 0) ∧ width = displacementWidth mode ∧
      (width = 0 ∧ displacement = 0 ∨ 0 < width ∧ FitsSigned width displacement) ∧
      form = UInt8.ofNat (mode * 64 + reg.low3 * 8 + base.low3) :: baseSib base.low3 := by
  have hform (modRm : UInt8) : (if base.low3 = 4 then [modRm, 0x24] else [modRm]) =
      modRm :: baseSib base.low3 := by
    unfold baseSib
    split <;> rfl
  unfold baseForm at h
  split at h
  · cases h
  · rename_i hfits
    simp only [hform] at h
    by_cases hzero : displacement = 0 ∧ base.low3 ≠ 5
    · rw [if_pos hzero] at h
      cases h
      exact ⟨0, by omega, fun h => hzero.2 h.1, rfl, .inl ⟨rfl, hzero.1⟩, rfl⟩
    -- With the base pointer's number, mode 0 would mean an address without a base.
    · rw [if_neg hzero] at h
      by_cases hbyte : FitsSigned 1 displacement
      · rw [if_pos hbyte] at h
        cases h
        exact ⟨1, by omega, by omega, rfl, .inr ⟨by decide, hbyte⟩, rfl⟩
      · rw [if_neg hbyte] at h
        cases h
        exact ⟨2, by omega, by omega, rfl, .inr ⟨by decide, not_not.mp hfits⟩, rfl⟩

theorem displacementWidth_le (mode : Nat) : displacementWidth mode ≤ 4 := by
  unfold displacementWidth
  split_ifs <;> omega

/-- Memory at a base register is read as it was asked for. -/
theorem baseBytes_ok {mnemonic : String} {opcode : UInt8} {reg base : Gpr} {displacement : Int}
    {bytes : List UInt8} {memory : Operand}
    (h : baseBytes w mnemonic opcode reg base displacement = .ok (bytes, memory)) :
    IsNamable w reg ∧ ReadsMemory w opcode reg memory bytes ∧ ∃ offset width,
      memory = .memory { base := some (wordRegister w base) } displacement offset width := by
  obtain ⟨hreg, h⟩ := Outcome.seq_eq_ok.mp h
  obtain ⟨hbase, h⟩ := Outcome.seq_eq_ok.mp h
  obtain ⟨⟨form, width⟩, hform, h⟩ := Outcome.bind_eq_ok.mp h
  cases h
  obtain ⟨mode, hmode, hne, rfl, hvalue, rfl⟩ := baseForm_ok hform
  have hlength : (bytesOfInt (displacementWidth mode) displacement).length =
      displacementWidth mode := LittleEndian.length_bytesOfInt ..
  have hwidth := displacementWidth_le mode
  have hsib := Decode.ByteReader.length_baseSib_le base.low3
  obtain ⟨-, hx, -, hb⟩ := rexOf_bits w w.is64 reg.index base.index
  refine ⟨requireGpr_eq_ok.mp hreg, ?_, _, _, rfl⟩
  simp only [List.append_assoc, List.cons_append, List.nil_append]
  refine readsMemory_of_run (requireGpr_eq_ok.mp hreg) hmode (low3_lt base) ?_ fun rest => ?_
  · rw [List.length_append, hlength]
    omega
  · rw [List.append_assoc, Decode.ByteReader.run_address_base hne hx, hb,
      low3_add_extension (requireGpr_eq_ok.mp hbase), ← wordRegister_eq,
      Decode.ByteReader.run_displaced_bytesOfInt _ hvalue]
    simp only [List.length_append, List.length_cons, hlength]
    ac_rfl

/-- The parts of the form for an absolute address. Four bytes of the address say where it is: in
64-bit code they are extended with their sign, and in 32-bit code nothing is above them. -/
theorem absoluteForm_ok {reg : Gpr} {address : Nat} {form : List UInt8}
    (h : absoluteForm w reg.low3 address = .ok form) :
    form = UInt8.ofNat (0 * 64 + reg.low3 * 8 + if w.is64 then 4 else 5) :: absoluteSib w ∧
      ∀ offset, Operand.ReadsAs w (.memory {} ((address : Int).bmod addressSpace) offset 4)
        (.memory {} (signedValue (bytesOf 4 address)) offset 4) := by
  have hmodRm (n : Nat) : n + reg.low3 * 8 = 0 * 64 + reg.low3 * 8 + n := by omega
  rw [LittleEndian.signedValue_bytesOf_eq_bmod]
  cases w with
  | bits64 =>
      rw [absoluteForm] at h
      split at h
      · rename_i hfits
        cases h
        -- Four bytes extended with their sign give the address back, as it was wrapped around.
        have hvalue : (address : Int).bmod (256 ^ 4) = (address : Int).bmod addressSpace := by
          rw [← Int.bmod_bmod_of_dvd (show 256 ^ 4 ∣ addressSpace by norm_num [addressSpace]),
            ← LittleEndian.signedValue_bytesOfInt_eq_bmod,
            LittleEndian.signedValue_bytesOfInt (by decide) hfits]
        exact ⟨by rw [hmodRm]; rfl, fun offset => by
          rw [hvalue]
          exact .memory ..⟩
      · cases h
  | bits32 =>
      rw [absoluteForm] at h
      split at h
      · rename_i hlt
        cases h
        refine ⟨by rw [hmodRm]; rfl, fun offset => .address _ _ rfl ?_⟩
        have hmodulus : (2 : Int) ^ 32 = ((256 ^ 4 : Nat) : Int) := by norm_num
        rw [hmodulus, Int.bmod_emod, addressSpace,
          Int.bmod_eq_of_le_mul_two (by omega) (by omega)]
      · cases h

theorem absoluteBytes_ok {opcode : UInt8} {reg : Gpr} {address : Nat} {bytes : List UInt8}
    {memory : Operand} (hreg : IsNamable w reg)
    (h : absoluteBytes w (rexBytes w w.is64 reg.index 0 ++ [opcode]) reg.low3 address =
      .ok (bytes, memory)) :
    ∃ v offset, ReadsMemory w opcode reg (.memory {} v offset 4) bytes ∧
      Operand.ReadsAs w memory (.memory {} v offset 4) := by
  obtain ⟨form, hform, h⟩ := Outcome.bind_eq_ok.mp h
  cases h
  obtain ⟨rfl, hreads⟩ := absoluteForm_ok hform
  have hlength : (bytesOf 4 address).length = 4 := LittleEndian.length_bytesOf ..
  have hsib : (absoluteSib w).length ≤ 1 := by cases w <;> decide
  obtain ⟨-, hx, -, -⟩ := rexOf_bits w w.is64 reg.index 0
  refine ⟨_, _, ?_, hreads _⟩
  simp only [List.append_assoc, List.cons_append, List.nil_append]
  refine readsMemory_of_run hreg (by decide) (by split <;> decide) ?_ fun rest => ?_
  · rw [List.length_append, hlength]
    omega
  · have hrun := Decode.ByteReader.run_displaced {} (bytesOf 4 address) rest
      ((rexBytes w w.is64 reg.index 0).length + 1 + 1 + (absoluteSib w).length) (by omega)
    rw [hlength] at hrun
    rw [List.append_assoc, Decode.ByteReader.run_address_absolute hx, hrun]
    simp only [List.length_append, List.length_cons, hlength]
    ac_rfl

/-! ### Relative fields -/

/-- Aiming an instruction whose first operand is relative fills the field of the operand. -/
theorem setRelativeTarget_fills {i j : Instruction} {target : Nat} (front back : List UInt8)
    {o : Operand} {os : List Operand} (ho : o.isRelative = true) (hoffset : o.offset = front.length)
    (hwidth : o.width ∈ [1, 2, 4]) (hoperands : i.operands = o :: os)
    (hbytes : i.bytes = front ++ (List.replicate o.width 0 ++ back))
    (h : edited (Instruction.setRelativeTarget target) i = .ok j) :
    ∃ v, FitsSigned o.width v ∧ j = { i with
      bytes := front ++ (bytesOfInt o.width v ++ back), operands := { o with value := v } :: os } := by
  have hrun := edited_eq_ok.mp h
  rw [Instruction.run_setRelativeTarget (o := o) (n := 0)
    (by simp [Instruction.relativeIndex?, hoperands, List.findIdx?_cons, ho])
    (by simp [Instruction.relativeOperand?, hoperands, ho])] at hrun
  generalize Instruction.displacement _ target = v at hrun
  have hlength : (bytesOfInt o.width v).length = (List.replicate o.width (0 : UInt8)).length :=
    (LittleEndian.length_bytesOfInt ..).trans List.length_replicate.symm
  rw [hoperands, hbytes, hoffset, overwrite_append front _ back hlength] at hrun
  split at hrun
  · rename_i hfits
    cases hrun
    exact ⟨v, (fitsField_iff hwidth).mp hfits, by rw [hoffset]; rfl⟩
  · cases hrun

/-- A relative form holds the distance to its target. -/
theorem relative_ok {opcode : List UInt8} {width place target : Nat} {c : OpcodeClass}
    {mnemonic : String} {uses defs : RegSet} {i : Instruction} (hwidth : width ∈ [1, 2, 4])
    (h : relative opcode width place target c mnemonic uses defs = .ok i) :
    ∃ v, FitsSigned width v ∧ i = { generated (opcode ++ bytesOfInt width v) c mnemonic
      [Operand.relative v opcode.length width] uses defs with address := place } := by
  obtain ⟨v, hfits, rfl⟩ := setRelativeTarget_fills opcode []
    (o := Operand.relative 0 opcode.length width) rfl rfl hwidth rfl
    (congrArg (opcode ++ ·) (List.append_nil _).symm) h
  exact ⟨v, hfits, by rw [List.append_nil]; rfl⟩

/-- Memory relative to the end of the instruction is read like other memory. -/
theorem readsMemory_relative {v : Int} (hv : FitsSigned 4 v) :
    ReadsMemory .bits64 0x83 .ax (.memory { relativeToEnd := true } v 3 4)
      ([0x48] ++ 0x83 :: 0x05 :: bytesOfInt 4 v) := by
  have hlength : (bytesOfInt 4 v).length = 4 := LittleEndian.length_bytesOfInt ..
  have hbehind : (0x05 :: bytesOfInt 4 v).length = 5 := congrArg Nat.succ hlength
  have hfield : (0x05 : UInt8).toNat / 8 % 8 = Gpr.ax.low3 := by decide
  refine .intro (m := Decode.ByteReader.relativeModRm (Decode.Rex.ofByte 0x48) 0x05 v 3)
    (.present 8 (by decide) rfl) rfl (by omega) rfl hfield rfl fun rest => ?_
  have hrun := Decode.ByteReader.run_modRm_relative (Decode.Rex.ofByte 0x48) (b := 0x05) ⟨rfl, rfl⟩
    (by decide : 8 ≠ 2) hlength rest 2
  rw [LittleEndian.signedValue_bytesOfInt (by decide) hv] at hrun
  rw [hbehind]
  exact hrun

end Encode

end BinTrace
