import BinTrace.Proofs.Encode.Forms

/-!
Instructions on memory: moves, addresses, and adding to a word. The decoder reads them back whether
the memory is at a base register, at an address, or relative to the end of the instruction.
-/

namespace BinTrace.Encode

open Decode (IsOpcode IsPlainEntry Layout instructionOf plainMeaning
  readsBack_plainMeaning unionOf accesses decode_modRm)
open Decode.ByteReader (operand run_mapM_nil run_mapM_cons run_signedImmediate)
open LittleEndian (bytesOfInt signedValue)
open Opcode (entry oneByte oneByte_row)
open RegSet (ofGprs)

variable {w : Width} {i : Instruction} {r : Gpr} {opcode : UInt8} {memory : Operand}
  {bytes : List UInt8}

/-- An instruction whose operands are a register of a word and memory. -/
theorem decode_memory {s : OpcodeSpec} {operands : List Operand}
    (hmem : ReadsMemory w opcode r memory bytes) (hb : IsOpcode opcode)
    (hspec : oneByte opcode.toNat = s) (hgroup : s.group = none) (hentry : IsPlainEntry w s)
    (hneeds : s.needsModRm = true) (htraits : s.traits = [])
    (hrun : ∀ (l : Layout) (m : Decode.ModRm) (c : Decode.Cursor), l.operandSize = w.wordSize →
      m.reg = r.index → m.memory = some memory →
        (s.operands.mapM (operand l (some m))).run c = .ok (operands, c)) (a : Nat) :
    decode w bytes a = .ok (instructionOf (plainMeaning w s operands) bytes a) := by
  cases hmem with
  | @intro rexs behind rex m hrex hwide hsize hreg hfield hmemory hmodRm =>
      have hrexs := length_le_of_readsRex hrex
      have hcomplete : Decode.completeSpec s (some m) = s := by
        simp only [Decode.completeSpec, hgroup]
      have hhas (t : Trait) : s.has t = false := by
        rw [OpcodeSpec.has, htraits]
        rfl
      have hword : Decode.operandSize w s {} rex = w.wordSize := by
        rw [operandSize_of_narrow (hhas _) (hhas _), hwide]
        cases w <;> rfl
      have hread := hmodRm []
      rw [List.append_nil] at hread
      refine decode_modRm hrex hb hspec hcomplete hentry hneeds (hhas _) ?_ hread
        (hrun _ m _ hword hreg hmemory) a
      rw [Decode.maxSize]
      omega

@[simp] theorem addressRegs_base (w : Width) (base : Gpr) :
    MemoryRef.addressRegs { base := some (wordRegister w base) } = ofGprs [base] := by
  simp [MemoryRef.addressRegs, wordRegister, gpr?_ofGpr]

@[simp] theorem addressRegs_absolute : MemoryRef.addressRegs {} = ∅ := by decide

@[simp] theorem addressRegs_relative : MemoryRef.addressRegs { relativeToEnd := true } = ∅ := by
  decide

variable {m : MemoryRef} {v : Int} {offset width : Nat} {promised : Operand}

/-- A move from a register to memory. -/
theorem isReadBack_store (hmem : ReadsMemory w 0x89 r (.memory m v offset width) bytes)
    (hreads : Operand.ReadsAs w promised (.memory m v offset width)) :
    IsReadBack w (generated bytes .int "mov" [promised, wordOperand w r]
      (RegSet.singleton (.gpr r) ∪ m.addressRegs) ∅) := by
  have hspec : oneByte (0x89 : UInt8).toNat = entry "mov" .int [.ev, .gv] .write :=
    oneByte_row 8 9 (by decide)
  refine ⟨rfl, _, decode_memory hmem (by decide) hspec rfl (by cases w <;> decide) rfl rfl
    (fun l m c hsize hreg hmemory => run_mapM_cons (run_rmMemory (.inl rfl) hmemory c)
      (run_mapM_cons (o := wordOperand w r) (run_regOperand hreg hsize (wordSize_ne_one w) c)
        (run_mapM_nil _))) 0, ?_⟩
  refine readsBack_plainMeaning (.cons hreads (.cons (.refl_wordOperand w r) .nil)) rfl rfl
    (by decide) ?_ ?_
  · simp [unionOf, accesses, entry, generated, CallingConvention.uses, RegSet.union_comm]
  · simp [unionOf, accesses, entry, generated, CallingConvention.defs]

/-- A move from memory to a register, or the address of the memory in the register. -/
theorem isReadBack_fetch {mnemonic : String} {t : Template}
    (hmem : ReadsMemory w opcode r (.memory m v offset width) bytes)
    (hreads : Operand.ReadsAs w promised (.memory m v offset width)) (hb : IsOpcode opcode)
    (hspec : oneByte opcode.toNat = entry mnemonic .int [.gv, t] .write) (ht : t = .ev ∨ t = .m)
    (hname : mnemonic ∉ ["xor", "sub"]) :
    IsReadBack w (generated bytes .int mnemonic [wordOperand w r, promised] m.addressRegs
      (ofGprs [r])) := by
  refine ⟨rfl, _, decode_memory hmem hb hspec rfl (by cases w <;> exact ⟨rfl, rfl⟩) rfl rfl
    (fun l m c hsize hreg hmemory => run_mapM_cons (o := wordOperand w r)
      (run_regOperand hreg hsize (wordSize_ne_one w) c)
      (run_mapM_cons (run_rmMemory ht hmemory c) (run_mapM_nil _))) 0, ?_⟩
  refine readsBack_plainMeaning (.cons (.refl_wordOperand w r) (.cons hreads .nil)) rfl rfl
    hname ?_ ?_
  · simp [unionOf, accesses, entry, generated, CallingConvention.uses]
  · simp [unionOf, accesses, entry, generated, CallingConvention.defs, RegSet.ofGprs_cons]

theorem oneByte_fetch : oneByte (0x8b : UInt8).toNat = entry "mov" .int [.gv, .ev] .write ∧
    oneByte (0x8d : UInt8).toNat = entry "lea" .int [.gv, .m] .write :=
  ⟨oneByte_row 8 11 (by decide), oneByte_row 8 13 (by decide)⟩

theorem isReadBack_movToAddress {address : Nat} (h : movToAddress w r address = .ok i) :
    IsReadBack w i := by
  obtain ⟨hr, h⟩ := Outcome.seq_eq_ok.mp h
  obtain ⟨⟨bytes, promised⟩, hbytes, h⟩ := Outcome.bind_eq_ok.mp h
  cases h
  obtain ⟨v, offset, hmem, hreads⟩ := absoluteBytes_ok (requireGpr_eq_ok.mp hr) hbytes
  simpa [RegSet.ofGprs_cons] using isReadBack_store hmem hreads

theorem isReadBack_movFromAddress {address : Nat} (h : movFromAddress w r address = .ok i) :
    IsReadBack w i := by
  obtain ⟨hr, h⟩ := Outcome.seq_eq_ok.mp h
  obtain ⟨⟨bytes, promised⟩, hbytes, h⟩ := Outcome.bind_eq_ok.mp h
  cases h
  obtain ⟨v, offset, hmem, hreads⟩ := absoluteBytes_ok (requireGpr_eq_ok.mp hr) hbytes
  simpa using isReadBack_fetch hmem hreads (by decide) oneByte_fetch.1 (.inl rfl) (by decide)

theorem isReadBack_movToMemory {base : Gpr} {displacement : Int}
    (h : movToMemory w r base displacement = .ok i) : IsReadBack w i := by
  obtain ⟨⟨bytes, memory⟩, hbytes, h⟩ := Outcome.bind_eq_ok.mp h
  cases h
  obtain ⟨-, hmem, offset, width, rfl⟩ := baseBytes_ok hbytes
  simpa [RegSet.ofGprs_cons] using isReadBack_store hmem (.memory ..)

theorem isReadBack_movFromMemory {base : Gpr} {displacement : Int}
    (h : movFromMemory w r base displacement = .ok i) : IsReadBack w i := by
  obtain ⟨⟨bytes, memory⟩, hbytes, h⟩ := Outcome.bind_eq_ok.mp h
  cases h
  obtain ⟨-, hmem, offset, width, rfl⟩ := baseBytes_ok hbytes
  simpa using isReadBack_fetch hmem (.memory ..) (by decide) oneByte_fetch.1 (.inl rfl) (by decide)

theorem isReadBack_lea {base : Gpr} {displacement : Int} (h : lea w r base displacement = .ok i) :
    IsReadBack w i := by
  obtain ⟨⟨bytes, memory⟩, hbytes, h⟩ := Outcome.bind_eq_ok.mp h
  cases h
  obtain ⟨-, hmem, offset, width, rfl⟩ := baseBytes_ok hbytes
  simpa using isReadBack_fetch hmem (.memory ..) (by decide) oneByte_fetch.2 (.inr rfl) (by decide)

/-! ### Adding to memory -/

/-- What the group of arithmetic operations has for adding a byte. -/
def addEntry : OpcodeSpec :=
  { mnemonic := "add", opcodeClass := .int, operands := [.ev, .ib], access := .update,
    defs := RegSet.statusFlags }

theorem oneByte_add : oneByte (0x83 : UInt8).toNat = Opcode.groupEntry .g1 [.ev, .ib] .update :=
  oneByte_row 8 3 (by decide)

theorem completeSpec_add {m : Decode.ModRm} (h : m.regField = 0) :
    Decode.completeSpec (Opcode.groupEntry .g1 [.ev, .ib] .update) (some m) = addEntry := by
  have hmember : Opcode.groupMember .g1 m.regField m.isRegister m.rmField =
      Opcode.arithmeticEntry 0 [] := by
    rw [h]
    rfl
  change (Opcode.groupEntry .g1 [.ev, .ib] .update).complete (Opcode.groupMember ..) = _
  rw [hmember]
  decide

/-- Adding a byte to memory. The reg field, which names no register here, is zero. -/
theorem decode_add (hmem : ReadsMemory w 0x83 .ax memory bytes) (value : Int) (a : Nat) :
    decode w (bytes ++ bytesOfInt 1 value) a =
      .ok (instructionOf (plainMeaning w addEntry [memory, Operand.immediate
        (signedValue (bytesOfInt 1 value)) bytes.length 1]) (bytes ++ bytesOfInt 1 value) a) := by
  cases hmem with
  | @intro rexs behind rex m hrex hwide hsize hreg hfield hmemory hmodRm =>
      have hrexs := length_le_of_readsRex hrex
      have hlength : (bytesOfInt 1 value).length = 1 := LittleEndian.length_bytesOfInt ..
      have hoffset : (rexs ++ 0x83 :: behind).length = rexs.length + 1 + behind.length := by
        rw [List.length_append, List.length_cons]
        omega
      rw [hoffset, List.append_assoc, List.cons_append]
      refine decode_modRm hrex (by decide) oneByte_add (completeSpec_add hfield)
        (by cases w <;> decide) rfl rfl ?_ (hmodRm _)
        (run_mapM_cons (run_rmMemory (.inl rfl) hmemory _) (run_mapM_cons ?_ (run_mapM_nil _))) a
      · rw [List.length_append, hlength, Decode.maxSize]
        omega
      · rw [List.length_append, hlength]
        exact run_signedImmediate hlength _

theorem isReadBack_add (hmem : ReadsMemory w 0x83 .ax (.memory m v offset width) bytes)
    (hreads : Operand.ReadsAs w promised (.memory m v offset width)) (hm : m.addressRegs = ∅)
    (value : Int) (place : Nat) :
    IsReadBack w { generated (bytes ++ bytesOfInt 1 value) .int "add"
      [promised, Operand.immediate value bytes.length 1] ∅ RegSet.statusFlags with
        address := place } := by
  have hvalue := (LittleEndian.signedValue_bytesOfInt_emod 1 value).symm
  refine ⟨rfl, _, decode_add hmem value place, readsBack_plainMeaning
    (.cons hreads (.cons (.immediate _ hvalue) .nil)) rfl rfl (by decide) ?_ ?_⟩
  · simp [unionOf, addEntry, generated, CallingConvention.uses, hm]
  · simp [unionOf, addEntry, generated, CallingConvention.defs]

theorem isReadBack_addToAddress {place address : Nat} {value : Int}
    (h : addToAddress w place address value = .ok i) : IsReadBack w i := by
  cases w with
  | bits64 =>
      obtain ⟨v, hfits, rfl⟩ := setRelativeTarget_fills [0x48, 0x83, 0x05] (bytesOfInt 1 value)
        (o := Operand.memory { relativeToEnd := true } 0 3 4) rfl rfl (by decide) rfl rfl h
      exact isReadBack_add (readsMemory_relative hfits) (.memory ..) addressRegs_relative value place
  | bits32 =>
      obtain ⟨⟨bytes, promised⟩, hbytes, h⟩ := Outcome.bind_eq_ok.mp h
      cases h
      obtain ⟨v, offset, hmem, hreads⟩ := absoluteBytes_ok (nofun : IsNamable .bits32 .ax) hbytes
      exact isReadBack_add hmem hreads addressRegs_absolute value place

end BinTrace.Encode
