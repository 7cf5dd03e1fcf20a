import BinTrace.Proofs.Encode.Forms

/-!
Instructions on registers and flags alone: moves to and from the stack, and loading a number. The
decoder reads them back, and the number that a load is read back with is the one that was asked for.
-/

namespace BinTrace.Encode

open Decode (IsOpcode IsPlainEntry layoutOf instructionOf plainMeaning
  readsBack_plainMeaning unionOf accesses decode_plain decode_modRm)
open Decode.ByteReader (operand run_mapM_nil run_mapM_cons run_signedImmediate)
open LittleEndian (bytesOfInt signedValue FitsSigned)
open Opcode (entry oneByte oneByte_row)
open RegSet (ofGprs allFlags lowFlags)

variable {w : Width} {i : Instruction} {r : Gpr}

/-- Opcodes of an instruction whose low three bits name a register. -/
theorem registerOpcode {start : Nat} (hstart : start ∈ [0x50, 0x58, 0xb8]) (r : Gpr) :
    IsOpcode (UInt8.ofNat (start + r.low3)) ∧
      (UInt8.ofNat (start + r.low3)).toNat = start + r.low3 ∧ (start + r.low3) % 8 = r.low3 := by
  have hall : ∀ start ∈ [0x50, 0x58, 0xb8], ∀ k < 8, IsOpcode (UInt8.ofNat (start + k)) ∧
      (UInt8.ofNat (start + k)).toNat = start + k ∧ (start + k) % 8 = k := by
    decide
  exact hall start hstart r.low3 (low3_lt r)

/-! ### The stack and the flags -/

theorem oneByte_push : ∀ k < 8, oneByte (0x50 + k) =
    { mnemonic := "push", opcodeClass := .int, operands := [.zv], access := .read,
      uses := ofGprs [.sp], defs := ofGprs [.sp], traits := [.wideDefault] } := by
  intro k hk
  rw [oneByte_row 5 k (by omega)]
  interval_cases k <;> rfl

theorem oneByte_pop : ∀ k < 8, oneByte (0x58 + k) =
    { mnemonic := "pop", opcodeClass := .int, operands := [.zv], access := .write,
      uses := ofGprs [.sp], defs := ofGprs [.sp], traits := [.wideDefault] } := by
  intro k hk
  rw [show 0x58 + k = 16 * 5 + (8 + k) by omega, oneByte_row 5 _ (by omega)]
  interval_cases k <;> rfl

/-- A register in the opcode that is moved to the stack or from it. -/
theorem decode_stack {start : Nat} {s : OpcodeSpec} (hr : IsNamable w r)
    (hspec : oneByte (start + r.low3) = s) (hstart : start ∈ [0x50, 0x58, 0xb8])
    (hoperands : s.operands = [.zv]) (hdefault : s.has .wideDefault = true)
    (hentry : IsPlainEntry w s) (hneeds : s.needsModRm = false) (a : Nat) :
    decode w (opcodeRex r ++ [UInt8.ofNat (start + r.low3)]) a =
      .ok (instructionOf (plainMeaning w s [wordOperand w r])
        (opcodeRex r ++ [UInt8.ofNat (start + r.low3)]) a) := by
  obtain ⟨hb, htoNat, hlow⟩ := registerOpcode hstart r
  have hrex := readsRex_rexBytes w false 0 r.index
  have hsize := length_le_of_readsRex hrex
  rw [opcodeRex_eq hr]
  rw [← htoNat] at hspec hlow
  refine decode_plain hrex hb hspec hentry hneeds ?_ ?_ a
  · exact Nat.le_trans (Nat.add_le_add_right hsize 1) (by decide)
  · rw [hoperands]
    exact run_mapM_cons (run_opcodeRegister hr hlow (rexOf_bits ..).2.2.2
      (operandSize_of_wideDefault hdefault) (wordSize_ne_one w) none _) (run_mapM_nil _)

theorem isReadBack_push (h : push w r = .ok i) : IsReadBack w i := by
  obtain ⟨hr, h⟩ := Outcome.seq_eq_ok.mp h
  cases h
  refine ⟨rfl, _, decode_stack (requireGpr_eq_ok.mp hr) (oneByte_push _ (low3_lt r)) (by decide)
    rfl rfl (by cases w <;> decide) rfl _, ?_⟩
  refine readsBack_plainMeaning (.cons (.register rfl rfl) .nil) rfl rfl (by decide) ?_ ?_
  · simp [unionOf, accesses, generated, CallingConvention.uses, RegSet.ofGprs_cons,
      RegSet.union_comm]
  · simp [unionOf, accesses, generated, CallingConvention.defs]

theorem isReadBack_pop (h : pop w r = .ok i) : IsReadBack w i := by
  obtain ⟨hr, h⟩ := Outcome.seq_eq_ok.mp h
  cases h
  refine ⟨rfl, _, decode_stack (requireGpr_eq_ok.mp hr) (oneByte_pop _ (low3_lt r)) (by decide)
    rfl rfl (by cases w <;> decide) rfl _, ?_⟩
  refine readsBack_plainMeaning (.cons (.register rfl rfl) .nil) rfl rfl (by decide) ?_ ?_
  · simp [unionOf, accesses, generated, CallingConvention.uses]
  · simp [unionOf, accesses, generated, CallingConvention.defs, RegSet.ofGprs_cons,
      RegSet.union_comm]

/-- An instruction of one byte without operands. -/
theorem isReadBack_bare {b : UInt8} {s : OpcodeSpec} (hb : IsOpcode b)
    (hspec : oneByte b.toNat = s) (hentry : IsPlainEntry w s) (hoperands : s.operands = [])
    (hgroup : s.group = none) (hname : s.mnemonic ∉ ["xor", "sub"])
    (hint : s.opcodeClass = .int) :
    IsReadBack w (generated [b] .int s.mnemonic [] s.uses s.defs) := by
  have hneeds : s.needsModRm = false := by simp [OpcodeSpec.needsModRm, hoperands, hgroup]
  have hdecode : decode w [b] 0 = .ok (instructionOf (plainMeaning w s []) [b] 0) := by
    refine decode_plain .absent hb hspec hentry hneeds (Nat.le_of_ble_eq_true rfl) ?_ 0
    rw [hoperands]
    exact run_mapM_nil _
  refine ⟨rfl, _, hdecode, readsBack_plainMeaning .nil hint rfl hname ?_ ?_⟩
  · simp [unionOf, generated, hint, CallingConvention.uses]
  · simp [unionOf, generated, hint, CallingConvention.defs]

/-- What the opcode map has for the instructions on all flags at once. -/
theorem oneByte_flags :
    oneByte (0x9c : UInt8).toNat =
        { mnemonic := "pushf", opcodeClass := .int, operands := [], access := .read,
          uses := ofGprs [.sp] ∪ allFlags, defs := ofGprs [.sp], traits := [.wideDefault] } ∧
      oneByte (0x9d : UInt8).toNat =
        { mnemonic := "popf", opcodeClass := .int, operands := [], access := .read,
          uses := ofGprs [.sp], defs := ofGprs [.sp] ∪ allFlags, traits := [.wideDefault] } ∧
      oneByte (0x9e : UInt8).toNat =
        { mnemonic := "sahf", opcodeClass := .int, operands := [], access := .read,
          uses := ofGprs [.ax], defs := lowFlags } ∧
      oneByte (0x9f : UInt8).toNat =
        { mnemonic := "lahf", opcodeClass := .int, operands := [], access := .read,
          uses := ofGprs [.ax] ∪ lowFlags, defs := ofGprs [.ax] } :=
  ⟨oneByte_row 9 12 (by decide), oneByte_row 9 13 (by decide),
    oneByte_row 9 14 (by decide), oneByte_row 9 15 (by decide)⟩

theorem isReadBack_flags (w : Width) : IsReadBack w pushf ∧ IsReadBack w popf ∧
    IsReadBack w sahf ∧ IsReadBack w lahf := by
  obtain ⟨hpushf, hpopf, hsahf, hlahf⟩ := oneByte_flags
  refine ⟨isReadBack_bare (by decide) hpushf ?_ rfl rfl (by decide) rfl,
    isReadBack_bare (by decide) hpopf ?_ rfl rfl (by decide) rfl,
    isReadBack_bare (by decide) hsahf ?_ rfl rfl (by decide) rfl,
    isReadBack_bare (by decide) hlahf ?_ rfl rfl (by decide) rfl⟩
  all_goals cases w <;> decide

/-! ### Loading a number -/

theorem oneByte_load : ∀ k < 8, oneByte (0xb8 + k) =
    { mnemonic := "mov", opcodeClass := .int, operands := [.zv, .iv], access := .write } := by
  intro k hk
  rw [show 0xb8 + k = 16 * 11 + (8 + k) by omega, oneByte_row 11 _ (by omega)]
  interval_cases k <;> rfl

/-- What loads a number into a register: its low bytes behind an opcode that names the register, or
four bytes that are extended with their sign. -/
theorem loadForm_ok {value : Int} {opcode : List UInt8} {width : Nat} (hr : IsNamable w r)
    (h : loadForm w r value = .ok (opcode, width)) :
    (∃ isWide, opcode = rexBytes w isWide 0 r.index ++ [UInt8.ofNat (0xb8 + r.low3)] ∧
      width = (if w.is64 && isWide then 8 else 4) ∧
      value % 256 ^ width = value % 256 ^ w.wordSize) ∨
    w = .bits64 ∧ opcode = rexBytes .bits64 true 0 r.index ++ [0xc7, UInt8.ofNat (0xc0 + r.low3)] ∧
      width = 4 ∧ FitsSigned 4 value := by
  have hwide (rest : List UInt8) : (if r.isExtended then 0x49 else 0x48) :: rest =
      rexBytes .bits64 true 0 r.index ++ rest := by
    cases r <;> rfl
  unfold loadForm at h
  dsimp only at h
  rw [opcodeRex_eq hr, hwide, hwide] at h
  -- A number that fits four bytes unsigned, one that fits them with a sign, and any other.
  split at h
  · rename_i hfits
    obtain ⟨hlow, hhigh⟩ := hfits
    cases h
    refine .inl ⟨false, rfl, by simp, ?_⟩
    cases w with
    | bits32 => rfl
    | bits64 =>
        rw [Int.emod_eq_of_lt hlow (by omega), Int.emod_eq_of_lt hlow (by rw [Width.wordSize]; omega)]
  · split at h
    · rename_i hfits
      cases w with
      | bits64 =>
          cases h
          exact .inr ⟨rfl, rfl, rfl, hfits⟩
      | bits32 =>
          cases h
          exact .inl ⟨false, rfl, rfl, rfl⟩
    · cases w with
      | bits64 =>
          cases h
          exact .inl ⟨true, rfl, rfl, rfl⟩
      | bits32 => cases h

section Loads

variable {s : OpcodeSpec} {opcode bytes : List UInt8} {value v : Int} {size width offset : Nat}

/-- The low bytes of a number behind an opcode that names the register. -/
theorem decode_load {isWide : Bool} (hr : IsNamable w r) (hspec : oneByte (0xb8 + r.low3) = s)
    (hoperands : s.operands = [.zv, .iv]) (halways : s.has .wideAlways = false)
    (hdefault : s.has .wideDefault = false) (hentry : IsPlainEntry w s)
    (hneeds : s.needsModRm = false) (hwidth : width = if w.is64 && isWide then 8 else 4)
    (hopcode : opcode = rexBytes w isWide 0 r.index ++ [UInt8.ofNat (0xb8 + r.low3)])
    (value : Int) (a : Nat) : decode w (opcode ++ bytesOfInt width value) a =
      .ok (instructionOf (plainMeaning w s [.ofRegister (Register.ofGpr r width),
          .immediate (signedValue (bytesOfInt width value)) opcode.length width])
        (opcode ++ bytesOfInt width value) a) := by
  subst hopcode
  obtain ⟨hb, htoNat, hlow⟩ := registerOpcode (by decide : 0xb8 ∈ [0x50, 0x58, 0xb8]) r
  have hrex := readsRex_rexBytes w isWide 0 r.index
  have hsize := length_le_of_readsRex hrex
  have hlength : (bytesOfInt width value).length = width := LittleEndian.length_bytesOfInt ..
  have hbounds : width ≤ 8 ∧ width ≠ 1 := by
    rw [hwidth]
    split_ifs <;> omega
  have hoperand : Decode.operandSize w s {} (rexOf w isWide 0 r.index) = width := by
    rw [operandSize_of_narrow halways hdefault, (rexOf_bits ..).1, hwidth]
    simp
  rw [← htoNat] at hspec hlow
  rw [List.length_append, List.length_singleton, List.append_assoc, List.singleton_append]
  refine decode_plain hrex hb hspec hentry hneeds ?_ ?_ a
  · rw [hlength, Decode.maxSize]
    omega
  · rw [hoperands, hlength]
    refine run_mapM_cons
      (run_opcodeRegister hr hlow (rexOf_bits ..).2.2.2 hoperand hbounds.2 none _)
      (run_mapM_cons ?_ (run_mapM_nil _))
    rw [← run_signedImmediate hlength, ← hoperand]
    rfl

theorem oneByte_loadSigned :
    oneByte (0xc7 : UInt8).toNat = Opcode.groupEntry .g11 [.ev, .iz] .write :=
  oneByte_row 12 7 (by decide)

theorem completeSpec_loadSigned {m : Decode.ModRm} (h : m.regField = 0) :
    Decode.completeSpec (Opcode.groupEntry .g11 [.ev, .iz] .write) (some m) =
      entry "mov" .int [.ev, .iz] .write := by
  have hmember : Opcode.groupMember .g11 m.regField m.isRegister m.rmField =
      Opcode.member "mov" .write := if_pos h
  change (Opcode.groupEntry .g11 [.ev, .iz] .write).complete (Opcode.groupMember ..) = _
  rw [hmember]
  decide

/-- Four bytes that are extended with their sign, behind ModRM with the register. -/
theorem decode_loadSigned
    (hopcode : opcode = rexBytes .bits64 true 0 r.index ++ [0xc7, UInt8.ofNat (0xc0 + r.low3)])
    (value : Int) (a : Nat) : decode .bits64 (opcode ++ bytesOfInt 4 value) a =
      .ok (instructionOf (plainMeaning .bits64 (entry "mov" .int [.ev, .iz] .write)
          [.ofRegister (Register.ofGpr r 8),
            .immediate (signedValue (bytesOfInt 4 value)) opcode.length 4])
        (opcode ++ bytesOfInt 4 value) a) := by
  have hmodRm : 0xc0 + r.low3 = 3 * 64 + 0 * 8 + r.low3 := by omega
  rw [hmodRm] at hopcode
  subst hopcode
  have hrex := readsRex_rexBytes .bits64 true 0 r.index
  have hsize := length_le_of_readsRex hrex
  have hlength : (bytesOfInt 4 value).length = 4 := LittleEndian.length_bytesOfInt ..
  obtain ⟨hwide, -, -, hb⟩ := rexOf_bits .bits64 true 0 r.index
  have hoperand : (layoutOf .bits64 (rexOf .bits64 true 0 r.index)
      (entry "mov" .int [.ev, .iz] .write) .oneByte (0xc7 : UInt8).toNat).operandSize = 8 :=
    (operandSize_of_narrow rfl rfl).trans (if_pos hwide)
  rw [List.length_append, List.append_assoc]
  refine decode_modRm hrex (by decide) oneByte_loadSigned (completeSpec_loadSigned ?field)
    (by decide) rfl rfl ?size
    (Decode.ByteReader.run_modRm_register (by decide : 0 < 8) (low3_lt r) _ _ _ _) ?operands a
  case field => exact (Decode.ByteReader.fields_modRm (by decide) (by decide) (low3_lt r)).2.2
  case size =>
    change _ + 1 + ((bytesOfInt 4 value).length + 1) ≤ 15
    omega
  case operands =>
    change _ = Except.ok (_, Decode.Cursor.mk [] (_ + 1 + ((bytesOfInt 4 value).length + 1)))
    rw [hlength]
    refine run_mapM_cons (run_rmRegister rfl ?_ hoperand (by decide) _)
      (run_mapM_cons (run_immediate hlength ?_ _ _) (run_mapM_nil _))
    · exact hb ▸ low3_add_extension fun _ => rfl
    · exact hoperand ▸ by decide

/-- Loading a number, as it is read back from the register of the size that the form writes. -/
theorem readsBack_load
    (hs : s.mnemonic = "mov" ∧ s.opcodeClass = .int ∧ s.access = .write ∧ s.uses = ∅ ∧ s.defs = ∅)
    (hsize : size = 4 ∨ size = 8) (hvalue : value % 256 ^ width = v % 256 ^ width) :
    (generated bytes .int "mov" [wordOperand w r, .immediate value offset width] ∅
      (ofGprs [r])).ReadsBack w (instructionOf (plainMeaning w s
        [.ofRegister (Register.ofGpr r size), .immediate v offset width]) bytes 0) := by
  obtain ⟨hmnemonic, hclass, haccess, huses, hdefs⟩ := hs
  have hregister : Operand.ReadsAs w (wordOperand w r) (.ofRegister (Register.ofGpr r size)) :=
    .register rfl ((gpr?_ofGpr ..).trans (gpr?_ofGpr ..).symm)
  have hpartial : (Register.ofGpr r size).isPartial = false := by
    rcases hsize with rfl | rfl <;> rfl
  refine readsBack_plainMeaning (.cons hregister (.cons (.immediate offset hvalue) .nil)) hclass
    hmnemonic ?_ ?_ ?_
  · rw [hmnemonic]
    decide
  · simp [unionOf, huses, haccess, hclass, accesses, generated, CallingConvention.uses,
      Decode.operandUses_register (gpr?_ofGpr r size) hpartial]
  · simp [unionOf, hdefs, haccess, hclass, accesses, generated, CallingConvention.defs,
      RegSet.ofGprs_cons, Decode.operandDefs_register (gpr?_ofGpr r size)]

theorem loadedValue?_load (hsize : size = 4 ∨ size = 8) : (instructionOf (plainMeaning w s
    [.ofRegister (Register.ofGpr r size), .immediate v offset width]) bytes 0).loadedValue? =
      some (v % 256 ^ size) := by
  rcases hsize with rfl | rfl <;> rfl

/-- Loading a number is read back, and the number is what the decoded form loads. -/
theorem isReadBack_movImmediate (h : movImmediate w r value = .ok i) :
    i.source = .instrumentation ∧ ∃ j, decode w i.bytes i.address = .ok j ∧ i.ReadsBack w j ∧
      j.loadedValue? = some (value % 256 ^ w.wordSize) := by
  obtain ⟨hr, h⟩ := Outcome.seq_eq_ok.mp h
  obtain ⟨⟨opcode, width⟩, hform, h⟩ := Outcome.bind_eq_ok.mp h
  cases h
  have hr := requireGpr_eq_ok.mp hr
  have hread := LittleEndian.signedValue_bytesOfInt_emod width value
  rcases loadForm_ok hr hform with ⟨isWide, hopcode, hwidth, hvalue⟩ | ⟨rfl, hopcode, rfl, hfits⟩
  · have hsize : width = 4 ∨ width = 8 := by
      rw [hwidth]
      split_ifs <;> simp
    refine ⟨rfl, _, decode_load hr (oneByte_load _ (low3_lt r)) rfl rfl rfl
      (by cases w <;> decide) rfl hwidth hopcode value 0,
      readsBack_load (by decide) hsize hread.symm, ?_⟩
    rw [loadedValue?_load hsize, hread, hvalue]
  · refine ⟨rfl, _, decode_loadSigned hopcode value 0,
      readsBack_load (by decide) (.inr rfl) hread.symm, ?_⟩
    rw [loadedValue?_load (.inr rfl), LittleEndian.signedValue_bytesOfInt (by decide) hfits]
    rfl

end Loads

end BinTrace.Encode
