import BinTrace.Proofs.Decode.Aim
import BinTrace.Proofs.Decode.Forms

/-!
Reading bytes of known shape: a REX byte or none, an opcode, ModRM with a register, a base or an
absolute address, and fields. Each lemma runs one reader on the bytes that it is for, so that the
reading of a whole instruction is put together from its parts.
-/

namespace BinTrace

namespace LittleEndian

/-- What is read back from the lowest bytes of a number is the number, wrapped around. -/
theorem signedValue_bytesOfInt_eq_bmod (width : Nat) (v : Int) :
    signedValue (bytesOfInt width v) = v.bmod (256 ^ width) := by
  have hmodulus : (256 : Int) ^ width = ((256 ^ width : Nat) : Int) :=
    (Int.natCast_pow 256 width).symm
  have hpos : 0 < (256 : Nat) ^ width := Nat.pow_pos (Nat.succ_pos 255)
  rw [signedValue, bytesOfInt, length_bytesOf, value_bytesOf, hmodulus]
  generalize (256 : Nat) ^ width = modulus at hpos ⊢
  have hnonneg := Int.emod_nonneg v (b := modulus) (by omega)
  have hlt := Int.emod_lt_of_pos v (b := modulus) (by omega)
  change (((v % (modulus : Int)).toNat % modulus : Nat) : Int).bmod modulus = _
  rw [Nat.mod_eq_of_lt (by omega), Int.toNat_of_nonneg hnonneg, Int.emod_bmod]

/-- What is read back is the number, as far as the bytes tell it. -/
theorem signedValue_bytesOfInt_emod (width : Nat) (v : Int) :
    signedValue (bytesOfInt width v) % 256 ^ width = v % 256 ^ width := by
  rw [signedValue_bytesOfInt_eq_bmod, show (256 : Int) ^ width = ((256 ^ width : Nat) : Int) from
    (Int.natCast_pow 256 width).symm, Int.bmod_emod]

theorem signedValue_bytesOf_eq_bmod (width n : Nat) :
    signedValue (bytesOf width n) = (n : Int).bmod (256 ^ width) := by
  rw [signedValue, value_bytesOf, length_bytesOf, Int.natCast_emod, Int.emod_bmod]

end LittleEndian

namespace Opcode

/-! ### Rows of the opcode maps -/

/-- An entry of a map, by its row and its place there, when the rows are equally long. -/
theorem getElem?_flatten_rows {rows : List (List OpcodeSpec)} {n k : Nat}
    (hrows : ∀ row ∈ rows, row.length = n) (hk : k < n) (r : Nat) :
    rows.flatten[n * r + k]? = rows[r]?.bind (·[k]?) := by
  induction rows generalizing r with
  | nil => rfl
  | cons row rows ih =>
      have hlength := hrows row List.mem_cons_self
      rw [List.flatten_cons]
      cases r with
      | zero => rw [List.getElem?_append_left (by omega)]; simp
      | succ r =>
          have hplace : n * (r + 1) + k - row.length = n * r + k := by
            rw [hlength, Nat.mul_succ]
            omega
          rw [List.getElem?_append_right (by rw [hlength, Nat.mul_succ]; omega), hplace,
            ih fun row hrow => hrows row (List.mem_cons_of_mem _ hrow), List.getElem?_cons_succ]

def oneByteRows : List (List OpcodeSpec) :=
  [oneByteRow0, oneByteRow1, oneByteRow2, oneByteRow3, oneByteRow4, oneByteRow5, oneByteRow6,
    oneByteRow7, oneByteRow8, oneByteRow9, oneByteRowA, oneByteRowB, oneByteRowC, oneByteRowD,
    oneByteRowE, oneByteRowF]

def twoByteRows : List (List OpcodeSpec) :=
  [twoByteRow0, twoByteRow1, twoByteRow2, twoByteRow3, twoByteRow4, twoByteRow5, twoByteRow6,
    twoByteRow7, twoByteRow8, twoByteRow9, twoByteRowA, twoByteRowB, twoByteRowC, twoByteRowD,
    twoByteRowE, twoByteRowF]

theorem oneByte_row (r k : Nat) (hk : k < 16) :
    oneByte (16 * r + k) = (oneByteRows[r]?.bind (·[k]?)).getD .undefined := by
  have hmap : oneByteMap = oneByteRows.flatten.toArray := by
    refine congrArg List.toArray ?_
    simp only [oneByteRows, List.flatten_cons, List.flatten_nil, List.append_assoc, List.append_nil]
  rw [oneByte, hmap, List.getElem?_toArray, getElem?_flatten_rows (by decide) hk]

theorem twoByte_row (r k : Nat) (hk : k < 16) :
    twoByte (16 * r + k) = (twoByteRows[r]?.bind (·[k]?)).getD .undefined := by
  have hmap : twoByteMap = twoByteRows.flatten.toArray := by
    refine congrArg List.toArray ?_
    simp only [twoByteRows, List.flatten_cons, List.flatten_nil, List.append_assoc, List.append_nil]
  rw [twoByte, hmap, List.getElem?_toArray, getElem?_flatten_rows (by decide) hk]

end Opcode

namespace Decode

open LittleEndian (signedValue bytesOf bytesOfInt FitsSigned)

/-- The bytes are a REX byte or none, and the second argument is what the decoder makes of them. -/
inductive ReadsRex (w : Width) : List UInt8 → Rex → Prop
  | absent : ReadsRex w [] {}
  | present (n : Nat) (hn : n < 16) (hw : w.is64 = true) :
      ReadsRex w [UInt8.ofNat (0x40 + n)] (Rex.ofByte (0x40 + n))

/-- Opcodes whose mnemonic does not depend on sizes, and which count no register down. -/
def IsSteady (opcode : Nat) : Prop :=
  opcode ∉ [0x6d, 0x6f, 0x98, 0x99, 0xa5, 0xa7, 0xab, 0xad, 0xaf, 0xcf, 0xe3]

instance (opcode : Nat) : Decidable (IsSteady opcode) := inferInstanceAs (Decidable (_ ∉ _))

/-- A byte that is an opcode wherever it stands in front of an instruction, and means the same in
code of either width and behind every REX byte. -/
def IsOpcode (b : UInt8) : Prop :=
  ByteReader.IsPlain b ∧ ¬(0xd8 ≤ b.toNat ∧ b.toNat ≤ 0xdf) ∧ b.toNat ≠ 0x0f ∧
    b.toNat ≠ 0x63 ∧ b.toNat ≠ 0x90 ∧ (Prefixes.next? {} b).isNone = true ∧ IsSteady b.toNat

instance (b : UInt8) : Decidable (IsOpcode b) := inferInstanceAs (Decidable (_ ∧ _))

theorem IsOpcode.isSteady {b : UInt8} (hb : IsOpcode b) : IsSteady b.toNat := by
  obtain ⟨-, -, -, -, -, -, hsteady⟩ := hb
  exact hsteady

/-- What an operand template depends on, for an instruction without legacy prefixes. -/
def layoutOf (w : Width) (rex : Rex) (spec : OpcodeSpec) (map : OpcodeMap) (opcode : Nat) : Layout :=
  { width := w
    rex := rex
    operandSize := operandSize w spec {} rex
    addressSize := addressSize w {}
    hasOperandSizePrefix := false
    isWide := spec.has .wideAlways
    vectorClass := vectorClass map opcode {}
    opcode := opcode }

/-- What an entry means with its operands, apart from prefixes. -/
def plainMeaning (w : Width) (s : OpcodeSpec) (operands : List Operand) : Meaning :=
  meaningOf w s s.mnemonic (∅, ∅) operands

/-- The instruction at `a` with this meaning. -/
def instructionOf (m : Meaning) (bytes : List UInt8) (a : Nat) : Instruction :=
  { address := a, bytes, opcodeClass := m.opcodeClass, mnemonic := m.mnemonic,
    operands := m.operands, uses := m.uses, defs := m.defs }

theorem sizedMnemonic_of_isSteady {opcode : Nat} (h : IsSteady opcode)
    (operandSize addressSize : Nat) (mnemonic : String) :
    sizedMnemonic opcode operandSize addressSize mnemonic = mnemonic := by
  simp only [IsSteady, List.mem_cons, List.not_mem_nil, or_false, not_or] at h
  unfold sizedMnemonic
  dsimp only
  split <;> simp_all

theorem countRegister_of_isSteady {opcode : Nat} (h : IsSteady opcode) (map : OpcodeMap) :
    countRegister map opcode {} = (∅, ∅) := by
  have hcount : opcode ≠ 0xe3 := by
    rintro rfl
    exact h (by decide)
  simp [countRegister, hcount]

theorem shownMnemonic_of_isSteady {opcode : Nat} (h : IsSteady opcode) (map : OpcodeMap)
    (operandSize addressSize : Nat) (modRm? : Option ModRm) (mnemonic : String) :
    shownMnemonic map opcode operandSize addressSize {} modRm? mnemonic = mnemonic := by
  cases map with
  | oneByte => exact sizedMnemonic_of_isSteady h ..
  | twoByte => exact if_neg fun h => nomatch h.2
  | threeByte => rfl

namespace ByteReader

variable {w : Width} {rex : Rex} {spec : OpcodeSpec} {map : OpcodeMap} {opcode : Nat}
  {modRm? : Option ModRm} {c d e : Cursor} {m : Meaning} {rest : List UInt8} {position : Nat}

theorem scan_of_next?_isNone {b : UInt8} (h : (Prefixes.next? {} b).isNone = true)
    (rest : List UInt8) : Prefixes.scan {} (b :: rest) = ({}, b :: rest) := by
  rw [Prefixes.scan, Option.isNone_iff_eq_none.mp h]

theorem oneByteSpec_eq {b : UInt8} (hb : IsOpcode b) (w : Width) (rex : Rex) :
    oneByteSpec w {} rex b.toNat = Opcode.oneByte b.toNat := by
  obtain ⟨-, -, -, h63, h90, -⟩ := hb
  rw [oneByteSpec, if_neg (fun h => h63 h.1), if_neg (fun h => h90 h.1), if_neg (fun h => h90 h.1)]

/-- An opcode of one byte behind a REX byte or none. -/
theorem run_instruction_opcode {rexs : List UInt8} (hrex : ReadsRex w rexs rex) {b : UInt8}
    (hb : IsOpcode b) (rest : List UInt8) : (instruction w).run ⟨rexs ++ b :: rest, 0⟩ =
      (tail w {} rex (Opcode.oneByte b.toNat) .oneByte b.toNat).run ⟨rest, rexs.length + 1⟩ := by
  obtain ⟨hplain, hfloat, hescape, -, -, hnext, -⟩ := id hb
  rw [← oneByteSpec_eq hb w rex]
  cases hrex with
  | absent =>
      rw [List.nil_append, run_instruction_oneByte (scan_of_next?_isNone hnext rest) hplain hfloat
        hescape, Nat.sub_self]
      rfl
  | present n hn hw =>
      have hbyte : ∀ n < 16, (Prefixes.next? {} (UInt8.ofNat (0x40 + n))).isNone = true ∧
          (UInt8.ofNat (0x40 + n)).toNat = 0x40 + n := by decide
      obtain ⟨hnext, htoNat⟩ := hbyte n hn
      have hrun : (rexByte w).run ⟨UInt8.ofNat (0x40 + n) :: b :: rest, 0⟩ =
          .ok (Rex.ofByte (0x40 + n), ⟨b :: rest, 1⟩) := by
        have hrange : (w.is64 && 0x40 ≤ (UInt8.ofNat (0x40 + n)).toNat &&
            (UInt8.ofNat (0x40 + n)).toNat ≤ 0x4f) = true := by
          rw [htoNat, hw]
          simp
          omega
        rw [rexByte, run_bind_of_ok (d := ⟨UInt8.ofNat (0x40 + n) :: b :: rest, 0⟩)
          (a := ⟨UInt8.ofNat (0x40 + n) :: b :: rest, 0⟩) rfl]
        simp only [hrange, if_true]
        rw [run_bind_of_ok (run_byte ..), htoNat]
        rfl
      rw [List.singleton_append, instruction,
        run_bind_of_ok (run_prefixes (scan_of_next?_isNone hnext (b :: rest)) 0), Nat.sub_self,
        run_bind_of_ok hrun, run_bind_of_ok (r := byte) rfl,
        run_bind_of_ok (run_startsVector hplain _), if_neg (by decide), if_neg hfloat,
        if_neg hescape]
      rfl

/-- An opcode of two bytes that no prefix stands in front of. -/
theorem run_instruction_escaped {b : UInt8} (h38 : b.toNat ≠ 0x38) (h3a : b.toNat ≠ 0x3a)
    (rest : List UInt8) : (instruction w).run ⟨0x0f :: b :: rest, 0⟩ =
      (tail w {} {} (twoByteSpec {} b.toNat) .twoByte b.toNat).run ⟨rest, 2⟩ := by
  rw [run_instruction_twoByte (scan_of_next?_isNone rfl (b :: rest)) ⟨h38, h3a⟩, Nat.sub_self]

/-! ### Behind the opcode -/

theorem run_tail_plain (hs : spec.needsModRm = false) :
    (tail w {} rex spec map opcode).run c = (behindModRm w {} rex spec map opcode none).run c := by
  rw [tail, hs]
  rfl

theorem run_tail_modRm (hs : spec.needsModRm = true) (hform : spec.has .registerForm = false)
    {r : ModRm} (hr : (modRm rex (addressSize w {}) w.is64 false).run c = .ok (r, d)) :
    (tail w {} rex spec map opcode).run c = (behindModRm w {} rex spec map opcode (some r)).run d := by
  rw [tail, hs, if_pos rfl, hform, run_bind_of_ok (run_map_of_ok hr)]

/-- The operands are read, and with them the meaning is known. -/
theorem run_behindModRm {s : OpcodeSpec} (hs : completeSpec spec modRm? = s)
    (hexcluded : isExcluded w s = false) (hname : s.has .namedByPrefix = false)
    (hsteady : IsSteady opcode) {operands : List Operand}
    (hrun : (s.operands.mapM (operand (layoutOf w rex s map opcode) modRm?)).run c =
      .ok (operands, d)) :
    (behindModRm w {} rex spec map opcode modRm?).run c = .ok (plainMeaning w s operands, d) := by
  subst hs
  rw [behindModRm]
  simp only [hexcluded, hname, Bool.false_eq_true, if_false]
  rw [shownMnemonic_of_isSteady hsteady, countRegister_of_isSteady hsteady]
  exact run_bind_of_ok hrun

theorem run_mapM_nil (f : Template → ByteReader Operand) : (([] : List Template).mapM f).run c =
    .ok ([], c) := rfl

theorem run_mapM_cons {f : Template → ByteReader Operand} {t : Template} {ts : List Template}
    {o : Operand} {os : List Operand} (ho : (f t).run c = .ok (o, d))
    (hos : (ts.mapM f).run d = .ok (os, e)) : ((t :: ts).mapM f).run c = .ok (o :: os, e) := by
  rw [List.mapM_cons, run_bind_of_ok ho, run_bind_of_ok hos]
  rfl

/-- An immediate that ends the instruction. -/
theorem run_signedImmediate {bytes : List UInt8} {width : Nat} (h : bytes.length = width)
    (position : Nat) : (signedImmediate width).run ⟨bytes, position⟩ =
      .ok (Operand.immediate (signedValue bytes) position width, ⟨[], position + width⟩) := by
  subst h
  have hrun := run_signed bytes [] position
  rw [List.append_nil] at hrun
  rw [signedImmediate, run_bind_of_ok hrun]
  rfl

/-! ### ModRM -/

theorem toNat_ofNat_of_lt {n : Nat} (h : n < 256) : (UInt8.ofNat n).toNat = n := by
  rw [UInt8.toNat_ofNat']
  exact Nat.mod_eq_of_lt h

/-- The fields of a ModRM byte. -/
theorem fields_modRm {mode reg rm : Nat} (hmode : mode < 4) (hreg : reg < 8) (hrm : rm < 8) :
    (UInt8.ofNat (mode * 64 + reg * 8 + rm)).toNat / 64 = mode ∧
      (UInt8.ofNat (mode * 64 + reg * 8 + rm)).toNat % 8 = rm ∧
      (UInt8.ofNat (mode * 64 + reg * 8 + rm)).toNat / 8 % 8 = reg := by
  rw [toNat_ofNat_of_lt (by omega)]
  omega

theorem run_modRm_register {reg rm : Nat} (hreg : reg < 8) (hrm : rm < 8) (addressSize : Nat)
    (relativeToEnd : Bool) (rest : List UInt8) (position : Nat) :
    (modRm rex addressSize relativeToEnd false).run
      ⟨UInt8.ofNat (3 * 64 + reg * 8 + rm) :: rest, position⟩ =
        .ok (⟨(UInt8.ofNat (3 * 64 + reg * 8 + rm)).toNat, reg + Rex.extension rex.r,
          rm + Rex.extension rex.b, none⟩, ⟨rest, position + 1⟩) := by
  obtain ⟨hmode, hlow, hmiddle⟩ := fields_modRm (by omega : 3 < 4) hreg hrm
  rw [modRm, run_bind_of_ok (run_byte ..)]
  dsimp only
  rw [hmode, hlow, hmiddle, if_pos (.inl rfl)]
  rfl

/-- Memory through ModRM in code without an address size prefix. -/
theorem run_modRm_memory {mode reg rm : Nat} (hmode : mode < 3) (hreg : reg < 8) (hrm : rm < 8)
    {o : Operand} {behind : List UInt8}
    (h : (address rex (addressSize w {}) w.is64 mode rm).run ⟨behind, position + 1⟩ = .ok (o, d)) :
    (modRm rex (addressSize w {}) w.is64 false).run
      ⟨UInt8.ofNat (mode * 64 + reg * 8 + rm) :: behind, position⟩ =
        .ok (⟨(UInt8.ofNat (mode * 64 + reg * 8 + rm)).toNat, reg + Rex.extension rex.r,
          rm + Rex.extension rex.b, some o⟩, d) := by
  obtain ⟨hfirst, hlow, hmiddle⟩ := fields_modRm (by omega : mode < 4) hreg hrm
  have hsize : addressSize w {} ≠ 2 := by cases w <;> decide
  rw [modRm, run_bind_of_ok (run_byte ..)]
  dsimp only
  rw [hfirst, hlow, hmiddle, if_neg (by simp; omega), if_neg hsize, run_bind_of_ok h]
  rfl

/-- The width of the displacement that a mod field asks for. -/
def displacementWidth (mode : Nat) : Nat := if mode = 1 then 1 else if mode = 2 then 4 else 0

theorem run_displaced_bytesOfInt (ref : MemoryRef) {width : Nat} {v : Int}
    (h : width = 0 ∧ v = 0 ∨ 0 < width ∧ FitsSigned width v) (rest : List UInt8) (position : Nat) :
    (displaced ref width).run ⟨bytesOfInt width v ++ rest, position⟩ =
      .ok (Operand.memory ref v (if width = 0 then 0 else position) width,
        ⟨rest, position + width⟩) := by
  rcases h with ⟨rfl, rfl⟩ | ⟨hpos, hfits⟩
  · rfl
  · have hlength : (bytesOfInt width v).length = width := LittleEndian.length_bytesOf ..
    have hrun := run_displaced ref (bytesOfInt width v) rest position (by omega)
    rw [if_neg (by omega)]
    rwa [hlength, LittleEndian.signedValue_bytesOfInt hpos hfits] at hrun

/-- The stack pointer's number asks for a scale-index-base byte. -/
def baseSib (rm : Nat) : List UInt8 := if rm = 4 then [0x24] else []

/-- An absolute address has a scale-index-base byte in 64-bit code. -/
def absoluteSib (w : Width) : List UInt8 := if w.is64 then [0x25] else []

theorem length_baseSib_le (rm : Nat) : (baseSib rm).length ≤ 1 := by
  unfold baseSib
  split <;> decide

/-- Memory at a base register. -/
theorem run_address_base {mode rm : Nat} (hne : ¬(rm = 5 ∧ mode = 0)) (hx : rex.x = false)
    (behind : List UInt8) (position : Nat) :
    (address rex (addressSize w {}) w.is64 mode rm).run ⟨baseSib rm ++ behind, position⟩ =
    (displaced { base := some ⟨Register.classOfSize w.wordSize, rm + Rex.extension rex.b⟩ }
      (displacementWidth mode)).run ⟨behind, position + (baseSib rm).length⟩ := by
  have hkind : (if addressSize w {} = 8 then RegisterClass.qword else .dword) =
      Register.classOfSize w.wordSize := by
    cases w <;> rfl
  unfold address baseSib
  simp only [hkind]
  by_cases hrm : rm = 4
  · subst hrm
    simp only [if_true, List.singleton_append]
    rw [run_bind_of_ok (run_byte ..)]
    simp [Rex.extension, hx]
    rfl
  · simp only [hrm, hne, if_false, List.nil_append]
    rfl

/-- Memory at an absolute address. -/
theorem run_address_absolute (hx : rex.x = false) (behind : List UInt8) (position : Nat) :
    (address rex (addressSize w {}) w.is64 0 (if w.is64 then 4 else 5)).run
      ⟨absoluteSib w ++ behind, position⟩ =
    (displaced {} 4).run ⟨behind, position + (absoluteSib w).length⟩ := by
  cases w with
  | bits32 => rfl
  | bits64 =>
      unfold address absoluteSib
      simp only [Width.is64, if_true, List.singleton_append]
      rw [run_bind_of_ok (run_byte ..)]
      simp [Rex.extension, hx]

end ByteReader

open ByteReader in
/-- An instruction that begins with a REX byte or none and an opcode of one byte, and takes all
bytes. -/
theorem decode_of_tail {w : Width} {rexs rest : List UInt8} {rex : Rex} {b : UInt8} {m : Meaning}
    (hrex : ReadsRex w rexs rex) (hb : IsOpcode b) (hsize : rexs.length + 1 + rest.length ≤ maxSize)
    (h : (tail w {} rex (Opcode.oneByte b.toNat) .oneByte b.toNat).run ⟨rest, rexs.length + 1⟩ =
      .ok (m, ⟨[], rexs.length + 1 + rest.length⟩)) (a : Nat) :
    decode w (rexs ++ b :: rest) a = .ok (instructionOf m (rexs ++ b :: rest) a) := by
  have hlength : (rexs ++ b :: rest).length = rexs.length + 1 + rest.length := by
    rw [List.length_append, List.length_cons]
    omega
  have hrun : (instruction w).run ⟨(rexs ++ b :: rest).take maxSize, 0⟩ =
      .ok (m, ⟨[], (rexs ++ b :: rest).length⟩) := by
    rw [List.take_of_length_le (hlength ▸ hsize), run_instruction_opcode hrex hb, h, hlength]
  rw [decode_of_run a hrun, List.take_length]
  rfl

open ByteReader in
theorem decode_of_tail_escaped {w : Width} {rest : List UInt8} {b : UInt8} {m : Meaning}
    (h38 : b.toNat ≠ 0x38) (h3a : b.toNat ≠ 0x3a) (hsize : 2 + rest.length ≤ maxSize)
    (h : (tail w {} {} (twoByteSpec {} b.toNat) .twoByte b.toNat).run ⟨rest, 2⟩ =
      .ok (m, ⟨[], 2 + rest.length⟩)) (a : Nat) :
    decode w (0x0f :: b :: rest) a = .ok (instructionOf m (0x0f :: b :: rest) a) := by
  have hlength : (0x0f :: b :: rest).length = 2 + rest.length := by
    rw [List.length_cons, List.length_cons]
    omega
  have hrun : (instruction w).run ⟨(0x0f :: b :: rest).take maxSize, 0⟩ =
      .ok (m, ⟨[], (0x0f :: b :: rest).length⟩) := by
    rw [List.take_of_length_le (hlength ▸ hsize), run_instruction_escaped h38 h3a, h, hlength]
  rw [decode_of_run a hrun, List.take_length]
  rfl

/-- The entry is one that code of this width has, under a name of its own. -/
def IsPlainEntry (w : Width) (s : OpcodeSpec) : Prop :=
  isExcluded w s = false ∧ s.has .namedByPrefix = false

instance (w : Width) (s : OpcodeSpec) : Decidable (IsPlainEntry w s) :=
  inferInstanceAs (Decidable (_ ∧ _))

section Entries

open ByteReader

variable {w : Width} {rexs rest : List UInt8} {rex : Rex} {b : UInt8} {s spec : OpcodeSpec}
  {operands : List Operand}

/-- An instruction whose operands stand right behind its opcode. -/
theorem decode_plain (hrex : ReadsRex w rexs rex) (hb : IsOpcode b)
    (hspec : Opcode.oneByte b.toNat = s) (hentry : IsPlainEntry w s) (hneeds : s.needsModRm = false)
    (hsize : rexs.length + 1 + rest.length ≤ maxSize)
    (hrun : (s.operands.mapM (operand (layoutOf w rex s .oneByte b.toNat) none)).run
      ⟨rest, rexs.length + 1⟩ = .ok (operands, ⟨[], rexs.length + 1 + rest.length⟩)) (a : Nat) :
    decode w (rexs ++ b :: rest) a =
      .ok (instructionOf (plainMeaning w s operands) (rexs ++ b :: rest) a) := by
  subst hspec
  refine decode_of_tail hrex hb hsize ?_ a
  rw [run_tail_plain hneeds]
  exact run_behindModRm (completeSpec_none _) hentry.1 hentry.2 hb.isSteady hrun

/-- An instruction whose operands are in ModRM and behind it. -/
theorem decode_modRm {r : ModRm} {d : Cursor} (hrex : ReadsRex w rexs rex) (hb : IsOpcode b)
    (hspec : Opcode.oneByte b.toNat = spec)
    (hcomplete : completeSpec spec (some r) = s) (hentry : IsPlainEntry w s)
    (hneeds : spec.needsModRm = true) (hform : spec.has .registerForm = false)
    (hsize : rexs.length + 1 + rest.length ≤ maxSize)
    (hr : (modRm rex (addressSize w {}) w.is64 false).run ⟨rest, rexs.length + 1⟩ = .ok (r, d))
    (hrun : (s.operands.mapM (operand (layoutOf w rex s .oneByte b.toNat) (some r))).run d =
      .ok (operands, ⟨[], rexs.length + 1 + rest.length⟩)) (a : Nat) :
    decode w (rexs ++ b :: rest) a =
      .ok (instructionOf (plainMeaning w s operands) (rexs ++ b :: rest) a) := by
  subst hspec
  refine decode_of_tail hrex hb hsize ?_ a
  rw [run_tail_modRm hneeds hform hr]
  exact run_behindModRm hcomplete hentry.1 hentry.2 hb.isSteady hrun

/-- An instruction with an opcode of two bytes whose operands stand right behind it. -/
theorem decode_escaped (h38 : b.toNat ≠ 0x38) (h3a : b.toNat ≠ 0x3a) (hsteady : IsSteady b.toNat)
    (hspec : twoByteSpec {} b.toNat = s) (hentry : IsPlainEntry w s) (hneeds : s.needsModRm = false)
    (hsize : 2 + rest.length ≤ maxSize)
    (hrun : (s.operands.mapM (operand (layoutOf w {} s .twoByte b.toNat) none)).run ⟨rest, 2⟩ =
      .ok (operands, ⟨[], 2 + rest.length⟩)) (a : Nat) :
    decode w (0x0f :: b :: rest) a =
      .ok (instructionOf (plainMeaning w s operands) (0x0f :: b :: rest) a) := by
  subst hspec
  refine decode_of_tail_escaped h38 h3a hsize ?_ a
  rw [run_tail_plain hneeds]
  exact run_behindModRm (completeSpec_none _) hentry.1 hentry.2 hsteady hrun

end Entries

end Decode

end BinTrace
