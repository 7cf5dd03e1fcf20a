import BinTrace.Proofs.Decode.Prefixed
import BinTrace.Proofs.Encode.Forms

/-!
Moves between registers, as the decoder reads them. The fields of a move do not hold every register
that one can ask for: a field with its REX bit tells sixteen numbers apart, one without tells eight,
code of 32 bits has no registers of eight bytes, and beside a segment register the size of the other
one is fixed. The encoder takes such pairs all the same, and the bytes then name other registers.
-/

namespace BinTrace.Encode

open Decode (Rex Prefixes ReadsRex ReadsHead Layout IsOpcode OpcodeMap instructionOf
  decode_of_leadsTo)
open Decode.ByteReader (operand modRm tail LeadsTo leadsTo_oneByte leadsTo_twoByte namedSpec
  prefixedLayout prefixedMeaning run_behindModRm_prefixed run_tail_modRm run_bind_of_ok)
open Opcode (entry oneByte oneByte_row twoByte_row vectorEntry)

variable {w : Width} {dst src : Register} {i : Instruction}

/-- The number that a field and its REX bit hold in place of `n`. -/
def fieldNumber (n : Nat) : Nat := if 8 ≤ n then 8 + n % 8 else n

/-- The register that the bytes of a move name where `r` is asked for. -/
def namedRegister (w : Width) (r : Register) : Register :=
  match r.kind with
  | .xmm => ⟨.xmm, fieldNumber r.number⟩
  | .mmx => ⟨.mmx, r.number % 8⟩
  | .segment => ⟨.segment, r.number % 8⟩
  | .qword => ⟨if w.is64 then .qword else .dword, r.number⟩
  | kind => ⟨kind, r.number⟩

/-- The destination that the bytes of a move name. A segment register is stored as four bytes. -/
def namedTarget (w : Width) (dst src : Register) : Register :=
  if src.kind = .segment then ⟨.dword, dst.number⟩ else namedRegister w dst

/-- The source that the bytes of a move name. A segment register is loaded from a word. -/
def namedSource (w : Width) (dst src : Register) : Register :=
  if dst.kind = .segment then ⟨.word, src.number⟩ else namedRegister w src

/-- A field of a move in code of this width can hold the register. -/
def HoldsRegister (w : Width) (r : Register) : Prop :=
  match r.kind with
  | .xmm => r.number < 16
  | .mmx | .segment => r.number < 8
  | .qword => w.is64 = true
  | _ => True

/-- The fields of a move can hold both registers. -/
structure HoldsPair (w : Width) (dst src : Register) : Prop where
  target : HoldsRegister w dst
  source : HoldsRegister w src
  /-- A segment register is loaded from a word and stored as four bytes. -/
  word_of_segment : dst.kind = .segment → src.kind = .word
  dword_of_segment : src.kind = .segment → dst.kind = .dword

/-- The decoder reads the bytes of `i` as a move of the same kind from `src` to `dst`, and takes
all of them. -/
def ReadsMove (w : Width) (i : Instruction) (dst src : Register) : Prop :=
  ∀ a, ∃ j, decode w i.bytes a = .ok j ∧ j.bytes = i.bytes ∧ j.opcodeClass = i.opcodeClass ∧
    j.mnemonic = i.mnemonic ∧ j.operands = [.ofRegister dst, .ofRegister src]

theorem namedRegister_eq_iff (w : Width) (r : Register) :
    namedRegister w r = r ↔ HoldsRegister w r := by
  obtain ⟨kind, n⟩ := r
  cases kind with
  | xmm =>
      simp only [namedRegister, HoldsRegister, fieldNumber, Register.mk.injEq, true_and]
      split <;> omega
  | mmx | segment =>
      simp only [namedRegister, HoldsRegister, Register.mk.injEq, true_and]
      omega
  | qword => cases w <;> simp [namedRegister, HoldsRegister, Width.is64]
  | byte | highByte | word | dword => simp [namedRegister, HoldsRegister]

theorem mk_number_eq_iff (kind : RegisterClass) (r : Register) :
    (⟨kind, r.number⟩ : Register) = r ↔ r.kind = kind :=
  ⟨fun h => h ▸ rfl, fun h => h ▸ rfl⟩

theorem holdsRegister_of_kind {r : Register} (h : r.kind = .word ∨ r.kind = .dword) :
    HoldsRegister w r := by
  rcases h with h | h <;> simp [HoldsRegister, h]

/-- The bytes name both registers exactly if their fields can hold them. -/
theorem named_eq_iff (w : Width) (dst src : Register) :
    namedTarget w dst src = dst ∧ namedSource w dst src = src ↔ HoldsPair w dst src := by
  have htarget : namedTarget w dst src = dst ↔
      HoldsRegister w dst ∧ (src.kind = .segment → dst.kind = .dword) := by
    unfold namedTarget
    split
    · rw [mk_number_eq_iff]
      exact ⟨fun h => ⟨holdsRegister_of_kind (.inr h), fun _ => h⟩, fun h => h.2 ‹_›⟩
    · rw [namedRegister_eq_iff]
      exact ⟨fun h => ⟨h, fun hsegment => absurd hsegment ‹_›⟩, And.left⟩
  have hsource : namedSource w dst src = src ↔
      HoldsRegister w src ∧ (dst.kind = .segment → src.kind = .word) := by
    unfold namedSource
    split
    · rw [mk_number_eq_iff]
      exact ⟨fun h => ⟨holdsRegister_of_kind (.inl h), fun _ => h⟩, fun h => h.2 ‹_›⟩
    · rw [namedRegister_eq_iff]
      exact ⟨fun h => ⟨h, fun hsegment => absurd hsegment ‹_›⟩, And.left⟩
  rw [htarget, hsource]
  exact ⟨fun ⟨⟨ht, hd⟩, hs, hword⟩ => ⟨ht, hs, hword, hd⟩,
    fun h => ⟨⟨h.target, h.dword_of_segment⟩, h.source, h.word_of_segment⟩⟩

/-! ### Fields -/

theorem field_add_extension {n : Nat} (hn : w.is64 = false → n < 8) :
    n % 8 + Rex.extension (w.is64 && decide (8 ≤ n)) = fieldNumber n := by
  unfold fieldNumber Rex.extension
  cases hw : w.is64 with
  | false =>
      have hlt := hn hw
      rw [if_neg (by simp), if_neg (by omega), Nat.add_zero, Nat.mod_eq_of_lt hlt]
  | true => by_cases h : 8 ≤ n <;> simp [h] <;> omega

theorem fieldNumber_of_lt {n : Nat} (h : n < 16) : fieldNumber n = n := by
  unfold fieldNumber
  split <;> omega

/-- ModRM with registers in both fields. -/
def registerFields (rex : Rex) (reg rm : Nat) : Decode.ModRm :=
  ⟨(registerModRm reg rm).toNat, reg % 8 + Rex.extension rex.r, rm % 8 + Rex.extension rex.b, none⟩

theorem run_modRm_registers (rex : Rex) (reg rm addressSize : Nat) (relativeToEnd : Bool)
    (position : Nat) : (modRm rex addressSize relativeToEnd false).run
      ⟨[registerModRm reg rm], position⟩ =
        .ok (registerFields rex reg rm, ⟨[], position + 1⟩) :=
  Decode.ByteReader.run_modRm_register (Nat.mod_lt _ (by decide)) (Nat.mod_lt _ (by decide)) ..

/-- An entry for two registers in the fields of ModRM. -/
structure IsMoveEntry (w : Width) (s : OpcodeSpec) : Prop where
  needsModRm : s.needsModRm = true
  form : s.has .registerForm = false
  group : s.group = none
  valid : Decode.isExcluded w s = false

variable {front head : List UInt8} {p : Prefixes} {rex : Rex} {s t : OpcodeSpec} {map : OpcodeMap}
  {opcode reg rm : Nat} {operands : List Operand}

/-- An instruction on two registers, behind the bytes that lead to its entry. -/
theorem decode_registers (hlead : LeadsTo w front p rex s map opcode) (hs : IsMoveEntry w s)
    (hnamed : namedSpec p opcode s = t) (hsize : front.length < Decode.maxSize)
    (hoperands : ∀ c, (t.operands.mapM (operand (prefixedLayout w p rex t map opcode)
      (some (registerFields rex reg rm)))).run c = .ok (operands, c)) (a : Nat) :
    decode w (front ++ [registerModRm reg rm]) a = .ok (instructionOf
      (prefixedMeaning w p rex t map opcode (some (registerFields rex reg rm)) operands)
      (front ++ [registerModRm reg rm]) a) := by
  have hcomplete : Decode.completeSpec s (some (registerFields rex reg rm)) = s := by
    simp only [Decode.completeSpec, hs.group]
  have hlength : (front ++ [registerModRm reg rm]).length = front.length + 1 := by simp
  have hrun : (tail w p rex s map opcode).run ⟨[registerModRm reg rm], front.length⟩ =
      .ok (prefixedMeaning w p rex t map opcode (some (registerFields rex reg rm)) operands,
        ⟨[], front.length + 1⟩) := by
    rw [tail, if_pos hs.needsModRm, hs.form,
      run_bind_of_ok (Decode.ByteReader.run_map_of_ok (run_modRm_registers ..))]
    exact run_behindModRm_prefixed (by rw [hcomplete, hnamed]) (by rw [hcomplete]; exact hs.valid)
      (hoperands _)
  have hdecode := decode_of_leadsTo hlead (by omega) hrun a
  rwa [← hlength, List.take_length] at hdecode

/-- The entries of moves between general purpose and segment registers. -/
theorem oneByte_mov : oneByte (0x88 : UInt8).toNat = entry "mov" .int [.eb, .gb] .write ∧
    oneByte (0x89 : UInt8).toNat = entry "mov" .int [.ev, .gv] .write ∧
    oneByte (0x8c : UInt8).toNat = entry "mov" .int [.ev, .sw] .write ∧
    oneByte (0x8e : UInt8).toNat = entry "mov" .int [.sw, .ew] .write :=
  ⟨oneByte_row 8 8 (by decide), oneByte_row 8 9 (by decide), oneByte_row 8 12 (by decide),
    oneByte_row 8 14 (by decide)⟩

theorem isMoveEntry_mov (w : Width) {ts : List Template} (h : ts.any Template.needsModRm = true) :
    IsMoveEntry w (entry "mov" .int ts .write) :=
  ⟨h, rfl, rfl, by cases w <;> rfl⟩

/-- A move with an opcode of one byte. -/
theorem readsMove_mov {b : UInt8} {ts : List Template} (reg rm : Nat)
    (hhead : ReadsHead w head p rex) (hlength : head.length ≤ 2) (hb : IsOpcode b)
    (hspec : oneByte b.toNat = entry "mov" .int ts .write)
    (hts : ts.any Template.needsModRm = true)
    (hbytes : i.bytes = head ++ [b, registerModRm reg rm]) (hclass : i.opcodeClass = .int)
    (hmnemonic : i.mnemonic = "mov")
    (hoperands : ∀ c, (ts.mapM (operand (prefixedLayout w p rex (entry "mov" .int ts .write)
      .oneByte b.toNat) (some (registerFields rex reg rm)))).run c =
        .ok ([.ofRegister dst, .ofRegister src], c)) : ReadsMove w i dst src := by
  have hlead := leadsTo_oneByte hhead hb
  rw [hspec] at hlead
  have hfront : (head ++ [b]).length < Decode.maxSize := by
    rw [List.length_append, List.length_singleton, Decode.maxSize]
    omega
  intro a
  rw [hbytes, show head ++ [b, registerModRm reg rm] = (head ++ [b]) ++ [registerModRm reg rm] by
    simp]
  exact ⟨_, decode_registers hlead (isMoveEntry_mov w hts) rfl hfront hoperands a, rfl, hclass.symm,
    (Decode.sizedMnemonic_of_isSteady hb.isSteady ..).trans hmnemonic.symm, rfl⟩

/-! ### General purpose registers -/

theorem gpr_of_ne_one {l : Layout} {size : Nat} (h : size ≠ 1) (n : Nat) :
    l.gpr n size = ⟨Register.classOfSize size, n⟩ := by
  rw [Layout.gpr, if_neg (fun hbyte => h hbyte.1)]

/-- Behind a REX byte the numbers from four on are no high halves. -/
theorem gpr_byte {l : Layout} {n : Nat} (h : l.rex.isPresent = true ∨ n < 4) :
    l.gpr n 1 = ⟨.byte, n⟩ := by
  rw [Layout.gpr, if_neg]
  · rfl
  · rintro ⟨-, habsent, hfour, -⟩
    rcases h with h | h
    · exact habsent h
    · omega

/-- No REX byte stands for no bits, and one is present if there are bits. -/
theorem rexBytes_cases (w : Width) (isWide : Bool) (reg rm : Nat) :
    (rexBytes w isWide reg rm = [] ∧ rexOf w isWide reg rm = {}) ∨
      (rexBytes w isWide reg rm).isEmpty = false ∧ (rexOf w isWide reg rm).isPresent = true := by
  unfold rexBytes rexOf
  generalize (if isWide then 8 else 0) + (if 8 ≤ reg then 4 else 0) + (if 8 ≤ rm then 1 else 0) =
    bits
  dsimp only
  split
  · exact .inr ⟨rfl, rfl⟩
  · exact .inl ⟨rfl, rfl⟩

/-- A REX byte for a move between general purpose registers, or none. -/
structure MoveRex (w : Width) (dst src : Register) (rexs : List UInt8) (rex : Rex) : Prop where
  reads : ReadsRex w rexs rex
  wide : rex.w = (w.is64 && decide (dst.size = 8))
  reg : rex.r = (w.is64 && decide (8 ≤ src.number))
  rm : rex.b = (w.is64 && decide (8 ≤ dst.number))
  low : dst.size = 1 → rex.isPresent = true ∨ dst.number < 4 ∧ src.number < 4

theorem gpr?_kind {r : Register} {g : Gpr} (h : r.gpr? = some g) :
    r.kind ∈ [.byte, .highByte, .word, .dword, .qword] ∧ r.number < 16 := by
  obtain ⟨kind, n⟩ := r
  cases kind <;> simp only [Register.gpr?, reduceCtorEq] at h
  all_goals exact ⟨by simp, (List.getElem?_eq_some_iff.mp h).1⟩

/-- The parts of a move between general purpose registers. -/
theorem movGpr_ok {d s : Gpr} (hd : dst.gpr? = some d) (hs : src.gpr? = some s)
    (h : movGpr w dst src d s = .ok i) :
    src.kind = dst.kind ∧ dst.kind ∈ [.byte, .word, .dword, .qword] ∧
      i.opcodeClass = .int ∧ i.mnemonic = "mov" ∧
      i.operands = [.ofRegister dst, .ofRegister src] ∧ ∃ rexs rex, MoveRex w dst src rexs rex ∧
        i.bytes = (if dst.size = 2 then [0x66] else []) ++ rexs ++
          [if dst.size = 1 then 0x88 else 0x89, registerModRm src.number dst.number] := by
  have hkinds : dst.size = src.size → dst.kind ≠ .highByte → src.kind ≠ .highByte →
      src.kind = dst.kind ∧ dst.kind ∈ [.byte, .word, .dword, .qword] := by
    obtain ⟨dk, dn⟩ := dst
    obtain ⟨sk, sn⟩ := src
    have hdk := (gpr?_kind hd).1
    have hsk := (gpr?_kind hs).1
    revert hdk hsk
    cases dk <;> cases sk <;> simp [Register.size]
  unfold movGpr at h
  dsimp only at h
  split at h
  · cases h
  · rename_i hpair
    simp only [not_or, ne_eq, Decidable.not_not] at hpair
    obtain ⟨hsize, hdst, hsrc⟩ := hpair
    obtain ⟨hkind, hmem⟩ := hkinds hsize hdst hsrc
    refine ⟨hkind, hmem, ?_⟩
    obtain ⟨hwide, -, hreg, hrm⟩ := rexOf_bits w (decide (dst.size = 8)) src.number dst.number
    split at h
    · cases h
    · rename_i hrefused
      cases h
      refine ⟨rfl, rfl, rfl, ?_⟩
      rcases rexBytes_cases w (decide (dst.size = 8)) src.number dst.number with
        ⟨hnone, hrex⟩ | ⟨hsome, hpresent⟩
      · rw [hrex] at hwide hreg hrm
        by_cases hneeds : dst.size = 1 ∧ (4 ≤ dst.number ∨ 4 ≤ src.number)
        · have hw : w.is64 = true := by
            rw [hnone] at hrefused
            simpa [hneeds] using hrefused
          refine ⟨[0x40], _, ⟨.present 0 (by decide) hw, hwide, hreg, hrm, fun _ => .inl rfl⟩, ?_⟩
          simp only [generated, hnone]
          simp [hneeds]
        · refine ⟨[], _, ⟨.absent, hwide, hreg, hrm, fun hbyte => .inr ?_⟩, ?_⟩
          · omega
          · simp only [generated, hnone, List.isEmpty_nil, true_and, if_neg hneeds]
      · refine ⟨_, _, ⟨readsRex_rexBytes .., hwide, hreg, hrm, fun _ => .inl hpresent⟩, ?_⟩
        simp [generated, hsome]

/-- The size at which code of this width has a general purpose register. -/
def sizeIn (w : Width) (size : Nat) : Nat := if size = 8 ∧ w.is64 = false then 4 else size

theorem namedRegister_gpr {r : Register} (h : r.kind ∈ [.byte, .word, .dword, .qword]) :
    namedRegister w r = ⟨Register.classOfSize (sizeIn w r.size), r.number⟩ := by
  obtain ⟨kind, n⟩ := r
  revert h
  cases kind <;> cases w <;> simp [namedRegister, sizeIn, Register.size, Register.classOfSize,
    Width.is64]

theorem operandSize_mov (ts : List Template) {size : Nat} (hsize : size ∈ [2, 4, 8])
    (hwide : rex.w = (w.is64 && decide (size = 8))) :
    Decode.operandSize w (entry "mov" .int ts .write) { operandSize := decide (size = 2) } rex =
      sizeIn w size := by
  have hfalse (t : Trait) : (entry "mov" .int ts .write).has t = false := rfl
  unfold Decode.operandSize sizeIn
  rw [hwide, hfalse, hfalse]
  simp only [List.mem_cons, List.not_mem_nil, or_false] at hsize
  rcases hsize with rfl | rfl | rfl <;> cases w <;> rfl

/-- A move between general purpose registers of one size. -/
theorem readsMove_movGpr {d s : Gpr} (hd : dst.gpr? = some d) (hs : src.gpr? = some s)
    (hn : w.is64 = false → dst.number < 8 ∧ src.number < 8) (h : movGpr w dst src d s = .ok i) :
    ReadsMove w i (namedRegister w dst) (namedRegister w src) := by
  obtain ⟨hkind, hmem, hclass, hmnemonic, -, rexs, rex, hrex, hbytes⟩ := movGpr_ok hd hs h
  have hdst : dst.number % 8 + Rex.extension rex.b = dst.number := by
    rw [hrex.rm, field_add_extension (fun hw => (hn hw).1), fieldNumber_of_lt (gpr?_kind hd).2]
  have hsrc : src.number % 8 + Rex.extension rex.r = src.number := by
    rw [hrex.reg, field_add_extension (fun hw => (hn hw).2), fieldNumber_of_lt (gpr?_kind hs).2]
  have hhead : ReadsHead w ((if dst.size = 2 then [0x66] else []) ++ rexs)
      { operandSize := decide (dst.size = 2) } rex := by
    refine .intro ?_ hrex.reads
    split <;> rename_i hsize <;> simp [hsize, Prefixes.scan, Prefixes.next?]
  have hlength : ((if dst.size = 2 then [0x66] else []) ++ rexs : List UInt8).length ≤ 2 := by
    have := length_le_of_readsRex hrex.reads
    split <;> simp <;> omega
  have hsize : src.size = dst.size := by
    unfold Register.size
    rw [hkind]
  rw [namedRegister_gpr hmem, namedRegister_gpr (hkind ▸ hmem), hsize]
  by_cases hbyte : dst.size = 1
  · rw [if_pos hbyte] at hbytes
    refine readsMove_mov src.number dst.number hhead hlength (by decide) oneByte_mov.1 rfl hbytes
      hclass hmnemonic fun c => ?_
    have hlow := hrex.low hbyte
    generalize hl : prefixedLayout .. = l
    have hpresent : l.rex = rex := hl ▸ rfl
    have hregister {n : Nat} (hn : rex.isPresent = true ∨ n < 4) : l.gpr n 1 = ⟨.byte, n⟩ :=
      gpr_byte (hpresent ▸ hn)
    have hrun : ([Template.eb, .gb].mapM (operand l
        (some (registerFields rex src.number dst.number)))).run c =
          .ok ([.ofRegister (l.gpr (dst.number % 8 + Rex.extension rex.b) 1),
            .ofRegister (l.gpr (src.number % 8 + Rex.extension rex.r) 1)], c) := rfl
    rw [hrun, hdst, hsrc, hregister (hlow.imp_right And.left),
      hregister (hlow.imp_right And.right), hbyte]
    rfl
  · rw [if_neg hbyte] at hbytes
    refine readsMove_mov src.number dst.number hhead hlength (by decide) oneByte_mov.2.1 rfl hbytes
      hclass hmnemonic fun c => ?_
    have hsizes : dst.size ∈ [2, 4, 8] := by
      revert hbyte hmem
      unfold Register.size
      cases dst.kind <;> simp
    have hoperand := operandSize_mov [.ev, .gv] hsizes hrex.wide
    generalize hl : prefixedLayout .. = l
    have hregister (n : Nat) : l.gpr n l.operandSize =
        ⟨Register.classOfSize (sizeIn w dst.size), n⟩ := by
      have hsize : l.operandSize = sizeIn w dst.size := hl ▸ hoperand
      rw [hsize, gpr_of_ne_one]
      unfold sizeIn
      split <;> omega
    have hrun : ([Template.ev, .gv].mapM (operand l
        (some (registerFields rex src.number dst.number)))).run c =
          .ok ([.ofRegister (l.gpr (dst.number % 8 + Rex.extension rex.b) l.operandSize),
            .ofRegister (l.gpr (src.number % 8 + Rex.extension rex.r) l.operandSize)], c) := rfl
    rw [hrun, hdst, hsrc, hregister, hregister]

/-! ### Segment and vector registers -/

theorem length_rexBytes_le (w : Width) (isWide : Bool) (reg rm : Nat) :
    (rexBytes w isWide reg rm).length ≤ 2 :=
  Nat.le_succ_of_le (length_le_of_readsRex (readsRex_rexBytes ..))

/-- A segment register is loaded from a word, whatever the size of the register that was named. -/
theorem readsMove_toSegment {segment n : Nat} (hn : w.is64 = false → n < 8) (hlt : n < 16)
    (hbytes : i.bytes = rexBytes w false 0 n ++ [0x8e, registerModRm segment n])
    (hclass : i.opcodeClass = .int) (hmnemonic : i.mnemonic = "mov") :
    ReadsMove w i ⟨.segment, segment % 8⟩ ⟨.word, n⟩ := by
  refine readsMove_mov segment n (readsRex_rexBytes ..).readsHead (length_rexBytes_le ..)
    (by decide) oneByte_mov.2.2.2 rfl hbytes hclass hmnemonic fun c => ?_
  obtain ⟨-, -, hr, hb⟩ := rexOf_bits w false 0 n
  generalize hl : prefixedLayout .. = l
  generalize hrex : rexOf w false 0 n = rex at hr hb
  have hrun : ([Template.sw, .ew].mapM (operand l (some (registerFields rex segment n)))).run c =
      .ok ([.ofRegister ⟨.segment, (segment % 8 + Rex.extension rex.r) % 8⟩,
        .ofRegister (l.gpr (n % 8 + Rex.extension rex.b) 2)], c) := rfl
  have hextension : Rex.extension rex.r = 0 := by simp [hr, Rex.extension]
  rw [hrun, hextension, hb, field_add_extension hn, fieldNumber_of_lt hlt,
    gpr_of_ne_one (by decide), Nat.add_zero, Nat.mod_mod]
  rfl

/-- A segment register is stored as four bytes, whatever the size of the register that was named. -/
theorem readsMove_ofSegment {segment n : Nat} (hn : w.is64 = false → n < 8) (hlt : n < 16)
    (hbytes : i.bytes = rexBytes w false 0 n ++ [0x8c, registerModRm segment n])
    (hclass : i.opcodeClass = .int) (hmnemonic : i.mnemonic = "mov") :
    ReadsMove w i ⟨.dword, n⟩ ⟨.segment, segment % 8⟩ := by
  refine readsMove_mov segment n (readsRex_rexBytes ..).readsHead (length_rexBytes_le ..)
    (by decide) oneByte_mov.2.2.1 rfl hbytes hclass hmnemonic fun c => ?_
  obtain ⟨hwide, -, hr, hb⟩ := rexOf_bits w false 0 n
  have hsize : Decode.operandSize w (entry "mov" .int [.ev, .sw] .write) {} (rexOf w false 0 n) =
      4 := by
    rw [operandSize_of_narrow rfl rfl, hwide]
    cases w <;> rfl
  generalize hl : prefixedLayout .. = l
  have hsize : l.operandSize = 4 := hl ▸ hsize
  generalize hrex : rexOf w false 0 n = rex at hr hb
  have hrun : ([Template.ev, .sw].mapM (operand l (some (registerFields rex segment n)))).run c =
      .ok ([.ofRegister (l.gpr (n % 8 + Rex.extension rex.b) l.operandSize),
        .ofRegister ⟨.segment, (segment % 8 + Rex.extension rex.r) % 8⟩], c) := rfl
  have hextension : Rex.extension rex.r = 0 := by simp [hr, Rex.extension]
  rw [hrun, hextension, hb, field_add_extension hn, fieldNumber_of_lt hlt, hsize,
    gpr_of_ne_one (by decide), Nat.add_zero, Nat.mod_mod]
  rfl

/-- A move within the vector registers of one kind. -/
theorem readsMove_vector {b : UInt8} {kind : RegisterClass} {mnemonic : String} (reg rm : Nat)
    (hhead : ReadsHead w head {} rex) (hlength : head.length ≤ 2)
    (hopcode : b.toNat ≠ 0x38 ∧ b.toNat ≠ 0x3a ∧ b.toNat ≠ 0x1e)
    (hspec : Decode.twoByteSpec {} b.toNat = vectorEntry [.vx, .wx] .write)
    (hname : Opcode.vectorName b.toNat .absent = mnemonic)
    (hkind : Decode.vectorClass .twoByte b.toNat {} = kind)
    (hbytes : i.bytes = head ++ [0x0f, b, registerModRm reg rm]) (hclass : i.opcodeClass = .simd)
    (hmnemonic : i.mnemonic = mnemonic) :
    ReadsMove w i ⟨kind, reg % 8 + Rex.extension rex.r⟩ ⟨kind, rm % 8 + Rex.extension rex.b⟩ := by
  have hlead := leadsTo_twoByte hhead hopcode.1 hopcode.2.1
  rw [hspec] at hlead
  have hfront : (head ++ [0x0f, b]).length < Decode.maxSize := by
    simp only [List.length_append, List.length_cons, List.length_nil, Decode.maxSize]
    omega
  have hentry : IsMoveEntry w (vectorEntry [.vx, .wx] .write) :=
    ⟨rfl, rfl, rfl, by cases w <;> rfl⟩
  subst hkind
  intro a
  rw [hbytes, show head ++ [0x0f, b, registerModRm reg rm] =
    (head ++ [0x0f, b]) ++ [registerModRm reg rm] by simp]
  refine ⟨_, decode_registers hlead hentry rfl hfront (fun c => rfl) a, rfl, hclass.symm, ?_, rfl⟩
  rw [hmnemonic, ← hname]
  exact if_neg fun h => hopcode.2.2 h.1

theorem twoByte_vector :
    Decode.twoByteSpec {} (0x28 : UInt8).toNat = vectorEntry [.vx, .wx] .write ∧
      Decode.twoByteSpec {} (0x6f : UInt8).toNat = vectorEntry [.vx, .wx] .write :=
  ⟨twoByte_row 2 8 (by decide), twoByte_row 6 15 (by decide)⟩

theorem readsMove_xmm {reg rm : Nat} (hreg : w.is64 = false → reg < 8)
    (hrm : w.is64 = false → rm < 8)
    (hbytes : i.bytes = rexBytes w false reg rm ++ [0x0f, 0x28, registerModRm reg rm])
    (hclass : i.opcodeClass = .simd) (hmnemonic : i.mnemonic = "movaps") :
    ReadsMove w i ⟨.xmm, fieldNumber reg⟩ ⟨.xmm, fieldNumber rm⟩ := by
  obtain ⟨-, -, hr, hb⟩ := rexOf_bits w false reg rm
  rw [← field_add_extension hreg, ← field_add_extension hrm, ← hr, ← hb]
  exact readsMove_vector reg rm (readsRex_rexBytes ..).readsHead (length_rexBytes_le ..) (by decide)
    twoByte_vector.1 rfl rfl hbytes hclass hmnemonic

theorem readsMove_mmx {reg rm : Nat} (hbytes : i.bytes = [0x0f, 0x6f, registerModRm reg rm])
    (hclass : i.opcodeClass = .simd) (hmnemonic : i.mnemonic = "movq") :
    ReadsMove w i ⟨.mmx, reg % 8⟩ ⟨.mmx, rm % 8⟩ :=
  readsMove_vector reg rm (Decode.ReadsRex.readsHead .absent) (by decide) (by decide)
    twoByte_vector.2 rfl rfl hbytes hclass hmnemonic

/-- Whatever the encoder takes, the decoder reads as a move between the registers that the fields
hold. -/
theorem readsMove_movRegister (h : movRegister w dst src = .ok i) :
    i.mnemonic ∈ ["mov", "movaps", "movq"] ∧ i.operands = [.ofRegister dst, .ofRegister src] ∧
      ReadsMove w i (namedTarget w dst src) (namedSource w dst src) := by
  unfold movRegister at h
  dsimp only at h
  split at h
  · cases h
  split at h
  · cases h
  rename_i hdst hsrc
  have hn : (w.is64 = false → dst.number < 8) ∧ (w.is64 = false → src.number < 8) :=
    ⟨fun hw => by simpa [hw] using hdst, fun hw => by simpa [hw] using hsrc⟩
  split at h
  case h_1 d s hd hs =>
    obtain ⟨hkind, hmem, -, hmnemonic, hoperands, -⟩ := movGpr_ok hd hs h
    have hne {r : Register} (hr : r.kind ∈ [.byte, .word, .dword, .qword]) : r.kind ≠ .segment :=
      fun h => by simp [h] at hr
    rw [namedTarget, if_neg (hne (hkind ▸ hmem)), namedSource, if_neg (hne hmem)]
    exact ⟨by simp [hmnemonic], hoperands, readsMove_movGpr hd hs (fun hw => ⟨hn.1 hw, hn.2 hw⟩) h⟩
  case h_2 s hd hs hkind =>
    cases h
    have hsource : src.kind ≠ .segment := fun h => by simp [Register.gpr?, h] at hs
    rw [namedTarget, if_neg hsource, namedSource, if_pos hkind, namedRegister, hkind]
    exact ⟨by simp [generated], rfl, readsMove_toSegment hn.2 (gpr?_kind hs).2 rfl rfl rfl⟩
  case h_3 d hd hs hkind =>
    cases h
    have htarget : dst.kind ≠ .segment := fun h => by simp [Register.gpr?, h] at hd
    rw [namedTarget, if_pos hkind, namedSource, if_neg htarget, namedRegister, hkind]
    exact ⟨by simp [generated], rfl, readsMove_ofSegment hn.1 (gpr?_kind hd).2 rfl rfl rfl⟩
  case h_4 hd hs hdst hsrc =>
    cases h
    rw [namedTarget, hsrc, if_neg (by decide), namedSource, hdst, if_neg (by decide),
      namedRegister, hdst, namedRegister, hsrc]
    exact ⟨by simp [generated], rfl, readsMove_xmm hn.1 hn.2 rfl rfl rfl⟩
  case h_5 hd hs hdst hsrc =>
    cases h
    rw [namedTarget, hsrc, if_neg (by decide), namedSource, hdst, if_neg (by decide),
      namedRegister, hdst, namedRegister, hsrc]
    exact ⟨by simp [generated], rfl, readsMove_mmx rfl rfl rfl⟩
  case h_6 => cases h

/-- Bytes are read in one way only. -/
theorem ReadsMove.unique {dst' src' : Register} (h : ReadsMove w i dst src)
    (h' : ReadsMove w i dst' src') : dst' = dst ∧ src' = src := by
  obtain ⟨j, hj, -, -, -, hoperands⟩ := h 0
  obtain ⟨j', hj', -, -, -, hoperands'⟩ := h' 0
  rw [hj] at hj'
  cases hj'
  rw [hoperands] at hoperands'
  simpa [Operand.ofRegister, eq_comm] using hoperands'

/-- A move that the encoder makes is read as a move of its kind, all bytes taken, between the
registers that its fields hold. They are those that were asked for exactly if the fields can hold
them. -/
theorem movRegister_reads (h : movRegister w dst src = .ok i) :
    i.mnemonic ∈ ["mov", "movaps", "movq"] ∧ i.operands = [.ofRegister dst, .ofRegister src] ∧
      ReadsMove w i (namedTarget w dst src) (namedSource w dst src) ∧
      (ReadsMove w i dst src ↔ HoldsPair w dst src) := by
  obtain ⟨hmnemonic, hoperands, hread⟩ := readsMove_movRegister h
  refine ⟨hmnemonic, hoperands, hread, ?_⟩
  rw [← named_eq_iff]
  constructor
  · exact fun hasked => hasked.unique hread
  · rintro ⟨htarget, hsource⟩
    rwa [htarget, hsource] at hread

/-- A byte register that needs an empty REX byte. -/
def moveByte : Instruction :=
  generated [0x40, 0x88, 0xc6] .int "mov"
    [.ofRegister (.ofGpr .si 1), .ofRegister (.ofGpr .ax 1)] (RegSet.ofGprs [.ax, .si])
    (RegSet.ofGprs [.si])

theorem movRegister_reads_moveByte :
    movRegister .bits64 (.ofGpr .si 1) (.ofGpr .ax 1) = .ok moveByte ∧
      ReadsMove .bits64 moveByte (.ofGpr .si 1) (.ofGpr .ax 1) := by
  have hmove : movRegister .bits64 (.ofGpr .si 1) (.ofGpr .ax 1) = .ok moveByte := by decide
  obtain ⟨-, -, -, hiff⟩ := movRegister_reads hmove
  exact ⟨hmove, hiff.mpr ⟨trivial, trivial, by decide, by decide⟩⟩

set_option maxRecDepth 4096 in
/-- A REX bit does not reach the vector registers from sixteen on: what is to be a move to the
register of number 16 is one to number 8. -/
theorem exists_misread_move : ∃ i j, movRegister .bits64 ⟨.xmm, 16⟩ ⟨.xmm, 0⟩ = .ok i ∧
    decode .bits64 i.bytes i.address = .ok j ∧ j.bytes = i.bytes ∧
    j.operands = [.ofRegister ⟨.xmm, 8⟩, .ofRegister ⟨.xmm, 0⟩] ∧
    j.operands ≠ [.ofRegister ⟨.xmm, 16⟩, .ofRegister ⟨.xmm, 0⟩] :=
  ⟨_, _, rfl, rfl, rfl, rfl, by decide⟩

end BinTrace.Encode
