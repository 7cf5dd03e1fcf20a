import BinTrace.Proofs.Decode.Alone
import BinTrace.Proofs.Decode.Prefixed
import BinTrace.Proofs.Decode.PrefixFree
import BinTrace.Proofs.Encode.Branches

/-!
Widened branches as the decoder reads them. Widening keeps the bytes in front of the opcode, and the
decoder goes by them: an operand size prefix makes the displacement of a near branch two bytes in
32-bit code, and no instruction is longer than fifteen bytes. Otherwise the wide form is read as
what it is.
-/

namespace BinTrace

open Decode (Prefixes Rex ReadsHead ReadsRex Layout Meaning OpcodeMap IsPlainEntry instructionOf
  plainMeaning decode_of_leadsTo maxSize)
open LittleEndian (signedValue bytesOfInt FitsSigned)

/-- A branch displacement of one byte. -/
def Operand.IsShort (o : Operand) : Prop := o.kind = .relative ∧ o.width = 1

/-- `k` branches like `i` to the same place, and its displacement has four bytes. -/
structure Instruction.IsWideFormOf (i k : Instruction) : Prop where
  opcodeClass_eq : k.opcodeClass = i.opcodeClass
  mnemonic_eq : k.mnemonic = i.mnemonic
  controlTarget?_eq : k.controlTarget? = i.controlTarget?
  operands_eq : ∃ v offset, k.operands = [Operand.relative v offset 4]

namespace Decode.ByteReader

variable {w : Width} {p : Prefixes} {rex : Rex} {spec : OpcodeSpec} {map : OpcodeMap}
  {opcode : Nat} {c d : Cursor} {m : Meaning} {o : Operand}

/-! ### Where displacements of one byte come from -/

theorem run_branch_ok {width : Nat} (h : (branch width).run c = .ok (o, d)) :
    ∃ field, field.length = width ∧ c.unread = field ++ d.unread ∧
      o = Operand.relative (signedValue field) c.position width := by
  obtain ⟨⟨value, offset⟩, e, hsigned, h⟩ := run_bind_ok h
  cases h
  obtain ⟨⟨field, place⟩, e, hfield, h⟩ := run_bind_ok hsigned
  cases h
  obtain ⟨hlength, rfl, hunread, -⟩ := run_field_ok hfield
  exact ⟨field, hlength, hunread, rfl⟩

theorem branchSize_ne_one (l : Layout) : l.branchSize ≠ 1 := by
  unfold Layout.branchSize
  split <;> decide

/-- A displacement of one byte is all that its entry asks for, and it lies behind the opcode. -/
theorem tail_short (h : spec.HasOneField) (hrun : (tail w p rex spec map opcode).run c = .ok (m, d))
    (ho : o ∈ m.operands) (hshort : o.IsShort) :
    spec.operands = [.jb] ∧ ∃ b, c.unread = b :: d.unread ∧
      m.operands = [Operand.relative (signedValue [b]) c.position 1] := by
  cases hneeds : spec.needsModRm with
  | true => exact absurd hshort.1 (noBranch_tail_modRm h hneeds hrun o ho)
  | false =>
      rw [tail, if_neg (by simp [hneeds]), pure_bind] at hrun
      dsimp only at hrun
      rcases behindModRm_eq w p rex spec map opcode none with heq | ⟨l, s, mnemonic, count, -, heq⟩
      · rw [heq] at hrun
        cases hrun
      · rw [heq, completeSpec_none] at hrun
        obtain ⟨os, e, hos, hrun⟩ := run_bind_ok hrun
        cases hrun
        cases hbranch : spec.operands.any Template.isBranch with
        | false => exact absurd hshort.1 (kind_ne_of_mapM hos hbranch (by simp) o ho)
        | true =>
            obtain ⟨t, ht⟩ := List.length_eq_one_iff.mp (h.branch_alone hneeds hbranch)
            rw [ht, List.any_cons, List.any_nil, Bool.or_false] at hbranch
            rw [ht, List.mapM_cons] at hos
            obtain ⟨o', e, ho', hos⟩ := run_bind_ok hos
            cases hos
            obtain rfl := List.mem_singleton.mp ho
            cases t
            case jb =>
              obtain ⟨field, hlength, hunread, rfl⟩ := run_branch_ok ho'
              obtain ⟨b, rfl⟩ := List.length_eq_one_iff.mp hlength
              exact ⟨ht, b, hunread, rfl⟩
            case jz =>
              obtain ⟨field, -, -, rfl⟩ := run_branch_ok ho'
              exact absurd hshort.2 (branchSize_ne_one l)
            all_goals cases hbranch

/-- The entries of the longer opcodes ask for no displacement of one byte. -/
theorem twoByteSpec_ne_short (p : Prefixes) (opcode : Nat) :
    (twoByteSpec p opcode).operands ≠ [.jb] := by
  have hmap : ∀ s ∈ Opcode.twoByteMap.toList, s.operands ≠ [.jb] := by decide +kernel
  have hplain : (Opcode.twoByte opcode).operands ≠ [.jb] := by
    rw [Opcode.twoByte]
    cases hs : Opcode.twoByteMap[opcode]? with
    | none => decide
    | some s => exact hmap s (Array.mem_toList_iff.mpr (Array.mem_of_getElem? hs))
  unfold twoByteSpec
  dsimp only
  generalize Opcode.twoByte opcode = s at hplain
  repeat' split
  all_goals first | exact hplain | decide

theorem threeByteSpec38_ne_short (p : Prefixes) (opcode : Nat) :
    (threeByteSpec38 p opcode).operands ≠ [.jb] := by
  unfold threeByteSpec38
  dsimp only
  repeat' split
  all_goals decide

theorem threeByteSpec3a_ne_short (opcode : Nat) : (threeByteSpec3a opcode).operands ≠ [.jb] := by
  unfold threeByteSpec3a
  repeat' split
  all_goals decide

theorem startsVector_ok {isVector : Bool} (h : (startsVector w opcode).run c = .ok (isVector, d)) :
    d = c := by
  unfold startsVector at h
  split at h
  · obtain ⟨c', e, hget, h⟩ := run_bind_ok h
    cases hget
    split at h <;> cases h <;> rfl
  · cases h
    rfl

/-- A displacement of one byte ends an instruction whose opcode has one byte. -/
theorem instruction_short {bytes : List UInt8} (hrun : (instruction w).run ⟨bytes, 0⟩ = .ok (m, d))
    (ho : o ∈ m.operands) (hshort : o.IsShort) :
    ∃ head p rex b b', ReadsHead w head p rex ∧ bytes = head ++ b :: b' :: d.unread ∧
      m.operands = [Operand.relative (signedValue [b']) (head.length + 1) 1] := by
  unfold instruction at hrun
  obtain ⟨head, p, rex, rest, rfl, hhead, hrun⟩ := exists_head hrun
  obtain ⟨opcode, e, hbyte, hrun⟩ := run_bind_ok hrun
  obtain ⟨b, behind, hc, rfl, rfl⟩ := run_byte_ok hbyte
  cases hc
  obtain ⟨isVector, e, hstarts, hrun⟩ := run_bind_ok hrun
  obtain rfl := startsVector_ok hstarts
  have hshortTail {spec : OpcodeSpec} {map : OpcodeMap} {opcode : Nat} {c : Cursor}
      (h : spec.HasOneField) (hne : spec.operands ≠ [.jb])
      (hrun : (tail w p rex spec map opcode).run c = .ok (m, d)) : False :=
    hne (tail_short h hrun ho hshort).1
  dsimp only at hrun
  split at hrun
  · split at hrun <;> split at hrun
    · cases hrun
    · cases hrun
    · exact absurd hshort.1 (noBranch_evex w hrun o ho)
    · exact absurd hshort.1 (noBranch_vex w _ hrun o ho)
  · split at hrun
    · exact absurd hshort.1 (noBranch_floatTail w p rex _ hrun o ho)
    · split at hrun
      · obtain ⟨second, e, -, hrun⟩ := run_bind_ok hrun
        split at hrun
        · obtain ⟨third, e, -, hrun⟩ := run_bind_ok hrun
          exact (hshortTail (hasOneField_threeByteSpec38 p third)
            (threeByteSpec38_ne_short p third) hrun).elim
        · split at hrun
          · obtain ⟨third, e, -, hrun⟩ := run_bind_ok hrun
            exact (hshortTail (hasOneField_threeByteSpec3a third)
              (threeByteSpec3a_ne_short third) hrun).elim
          · exact (hshortTail (hasOneField_twoByteSpec p second)
              (twoByteSpec_ne_short p second) hrun).elim
      · obtain ⟨-, b', hunread, hoperands⟩ :=
          tail_short (hasOneField_oneByteSpec ..) hrun ho hshort
        exact ⟨head, p, rex, b, b', hhead, by rw [← hunread], hoperands⟩

/-! ### The forms of a branch -/

/-- Width of the displacement of a near branch behind these prefixes. -/
def nearWidth (w : Width) (p : Prefixes) : Nat := if !w.is64 && p.operandSize then 2 else 4

/-- The entry with one operand, a displacement of this template. -/
def branching (s : OpcodeSpec) (t : Template) : OpcodeSpec := { s with operands := [t] }

/-- The opcode leads behind every head to the entry `s`, with the template `t` for its displacement
and a name that no prefix changes. -/
structure BranchForm (w : Width) (s : OpcodeSpec) (t : Template) (opcodes : List UInt8) : Prop where
  plain : IsPlainEntry w s
  group : s.group = none
  leads : ∀ head p rex, ReadsHead w head p rex → ∃ map opcode,
    LeadsTo w (head ++ opcodes) p rex (branching s t) map opcode ∧
      (∀ m n, shownMnemonic map opcode m n p none s.mnemonic = s.mnemonic) ∧
      countRegister map opcode p = (∅, ∅)

/-- A branch form is read with its displacement, whatever follows it. -/
theorem BranchForm.decode_eq {s : OpcodeSpec} {t : Template} {head opcodes : List UInt8}
    (h : BranchForm w s t opcodes) (hhead : ReadsHead w head p rex) (field rest : List UInt8)
    (ht : t = .jb ∧ field.length = 1 ∨ t = .jz ∧ field.length = nearWidth w p)
    (hsize : (head ++ opcodes ++ (field ++ rest)).length ≤ maxSize) (a : Nat) :
    decode w (head ++ opcodes ++ (field ++ rest)) a =
      .ok (instructionOf (plainMeaning w s
        [Operand.relative (signedValue field) (head ++ opcodes).length field.length])
        (head ++ opcodes ++ field) a) := by
  obtain ⟨map, opcode, hlead, hshown, hcount⟩ := h.leads head p rex hhead
  generalize head ++ opcodes = front at hlead hsize ⊢
  have hneeds : (branching s t).needsModRm = false := by
    rcases ht with ⟨rfl, -⟩ | ⟨rfl, -⟩ <;>
      simp [branching, OpcodeSpec.needsModRm, h.group, Template.needsModRm]
  have hnamed : namedSpec p opcode (branching s t) = branching s t :=
    if_neg (fun hname => by simp [show (branching s t).has .namedByPrefix = false from h.plain.2]
      at hname)
  have hoperand : operand (prefixedLayout w p rex (branching s t) map opcode) none t =
      branch field.length := by
    rcases ht with ⟨rfl, hlength⟩ | ⟨rfl, hlength⟩ <;> rw [hlength] <;> rfl
  have hbranch := run_branch field rest front.length
  rw [← hoperand] at hbranch
  have hbehind := run_behindModRm_prefixed (by rw [completeSpec_none, hnamed])
    (by rw [completeSpec_none]; exact h.plain.1) (run_mapM_cons hbranch (run_mapM_nil _))
  have hmeaning (operands : List Operand) : prefixedMeaning w p rex (branching s t) map opcode none
      operands = plainMeaning w s operands := by
    rw [prefixedMeaning, hcount, show (branching s t).mnemonic = s.mnemonic from rfl, hshown]
    rfl
  have hrun : (tail w p rex (branching s t) map opcode).run ⟨field ++ rest, front.length⟩ =
      .ok (plainMeaning w s [Operand.relative (signedValue field) front.length field.length],
        ⟨rest, front.length + field.length⟩) := by
    rw [← hmeaning, tail, if_neg (by simp [hneeds]), pure_bind]
    exact hbehind
  have htake : (front ++ (field ++ rest)).take (front.length + field.length) = front ++ field := by
    rw [← List.append_assoc, ← List.length_append, List.take_left]
  rw [decode_of_leadsTo hlead hsize hrun a, htake]

theorem twoByteSpec_of_ne (p : Prefixes) {opcode : Nat} (h : opcode ∉ [0x1e, 0xb8, 0xbc, 0xbd]) :
    twoByteSpec p opcode = Opcode.twoByte opcode := by
  simp only [List.mem_cons, List.not_mem_nil, or_false, not_or] at h
  unfold twoByteSpec
  dsimp only
  split
  · split <;> simp_all
  · rw [if_neg h.2.1]

theorem countRegister_twoByte (opcode : Nat) (p : Prefixes) :
    countRegister .twoByte opcode p = (∅, ∅) := by
  simp [countRegister]

theorem countRegister_oneByte {opcode : Nat} (hsteady : IsSteady opcode)
    (hstring : isStringOperation opcode = false) (p : Prefixes) :
    countRegister .oneByte opcode p = (∅, ∅) := by
  have hcount : opcode ≠ 0xe3 := by
    rintro rfl
    exact hsteady (by decide)
  simp [countRegister, hstring, hcount]

/-- An opcode of one byte. -/
theorem branchForm_oneByte {s : OpcodeSpec} {t : Template} {b : UInt8} (hplain : IsPlainEntry w s)
    (hgroup : s.group = none) (hb : IsOpcode b) (hstring : isStringOperation b.toNat = false)
    (hs : Opcode.oneByte b.toNat = branching s t) : BranchForm w s t [b] where
  plain := hplain
  group := hgroup
  leads := fun _ p _ hhead => ⟨.oneByte, b.toNat, hs ▸ leadsTo_oneByte hhead hb,
    fun m n => sizedMnemonic_of_isSteady hb.isSteady m n _,
    countRegister_oneByte hb.isSteady hstring p⟩

/-- An opcode of two bytes. -/
theorem branchForm_twoByte {s : OpcodeSpec} {t : Template} {b : UInt8} (hplain : IsPlainEntry w s)
    (hgroup : s.group = none) (hb : b.toNat ∉ [0x1e, 0x38, 0x3a, 0xb8, 0xbc, 0xbd])
    (hs : Opcode.twoByte b.toNat = branching s t) : BranchForm w s t [0x0f, b] where
  plain := hplain
  group := hgroup
  leads := fun head p rex hhead => by
    simp only [List.mem_cons, List.not_mem_nil, or_false, not_or] at hb
    refine ⟨.twoByte, b.toNat, ?_, fun m n => if_neg fun h => hb.1 h.1, countRegister_twoByte ..⟩
    rw [← hs, ← twoByteSpec_of_ne p (by simp; omega)]
    exact leadsTo_twoByte hhead hb.2.1 hb.2.2.1

/-- A short jump and its wide form have one entry between them. -/
theorem branchForms_jump (w : Width) :
    BranchForm w (Opcode.branchEntry "jmp" .uncondBranch []) .jb [0xeb] ∧
      BranchForm w (Opcode.branchEntry "jmp" .uncondBranch []) .jz [0xe9] :=
  ⟨branchForm_oneByte (by cases w <;> decide) rfl (by decide) rfl
      (Opcode.oneByte_row 14 11 (by decide)),
    branchForm_oneByte (by cases w <;> decide) rfl (by decide) rfl
      (Opcode.oneByte_row 14 9 (by decide))⟩

/-- The entry of a conditional jump, without the template for its displacement. -/
def conditionalEntry (k : Nat) : OpcodeSpec :=
  { Opcode.branchEntry (Condition.jumpMnemonic k) .condBranch [] with uses := Condition.flags k }

theorem branchForms_conditional (w : Width) {k : Nat} (hk : k < 16) :
    BranchForm w (conditionalEntry k) .jb [UInt8.ofNat (0x70 + k)] ∧
      BranchForm w (conditionalEntry k) .jz [0x0f, UInt8.ofNat (0x80 + k)] := by
  have hopcodes : ∀ k < 16, isStringOperation (0x70 + k) = false := by decide
  obtain ⟨hnear, hdistant⟩ := Encode.conditionalEntries hk
  obtain ⟨⟨hb, htoNat⟩, -, htoNat'⟩ := Encode.conditionalOpcodes k hk
  have hplain : IsPlainEntry w (conditionalEntry k) := by cases w <;> exact ⟨rfl, rfl⟩
  rw [twoByteSpec_of_ne _ (by simp; omega)] at hdistant
  rw [← htoNat] at hnear
  rw [← htoNat'] at hdistant
  refine ⟨branchForm_oneByte hplain rfl hb ?_ hnear, branchForm_twoByte hplain rfl ?_ hdistant⟩
  · rw [htoNat]
    exact hopcodes k hk
  · rw [htoNat']
    simp
    omega

/-- A short branch and its wide form have one entry between them, which is a branch. -/
theorem branchForms_of_wideOpcode? {b : UInt8} {opcodes : List UInt8} (w : Width)
    (h : Instruction.wideOpcode? b = some opcodes) :
    ∃ s, BranchForm w s .jb [b] ∧ BranchForm w s .jz opcodes ∧
      (s.opcodeClass = .uncondBranch ∨ s.opcodeClass = .condBranch) := by
  unfold Instruction.wideOpcode? at h
  split at h
  · rename_i hb
    cases h
    subst hb
    exact ⟨_, (branchForms_jump w).1, (branchForms_jump w).2, .inl rfl⟩
  · split at h
    · rename_i hne hb
      cases h
      simp only [Instruction.isWidenable, hne, decide_false, Bool.false_or, Bool.and_eq_true,
        decide_eq_true_eq, UInt8.le_iff_toNat_le] at hb
      have hlow : 0x70 ≤ b.toNat := hb.1
      have hhigh : b.toNat ≤ 0x7f := hb.2
      obtain ⟨k, hk, rfl⟩ : ∃ k < 16, b = UInt8.ofNat (0x70 + k) :=
        ⟨b.toNat - 0x70, by omega, by rw [Nat.add_sub_cancel' hlow, UInt8.ofNat_toNat]⟩
      have hwide : ∀ k < 16, UInt8.ofNat (0x70 + k) + 0x10 = UInt8.ofNat (0x80 + k) := by decide
      rw [hwide k hk]
      exact ⟨_, (branchForms_conditional w hk).1, (branchForms_conditional w hk).2, .inr rfl⟩
    · cases h

end Decode.ByteReader

open Decode.ByteReader (instruction_short branchForms_of_wideOpcode? nearWidth)
open Instruction (widenTarget wideOpcode? setRelativeTarget)

variable {w : Width} {bytes head : List UInt8} {a : Nat} {i j : Instruction} {o : Operand}
  {b b' : UInt8} {v : Int}

/-- The parts of a decoded branch with a displacement of one byte. -/
theorem decode_short (h : decode w bytes a = .ok i) (ho : o ∈ i.operands) (hshort : o.IsShort) :
    ∃ head p rex b b', ReadsHead w head p rex ∧ i.bytes = head ++ [b, b'] ∧
      i.operands = [Operand.relative (signedValue [b']) (head.length + 1) 1] := by
  obtain ⟨m, hrun, hi⟩ := run_bytes_of_decode h
  have hwhole := hrun []
  rw [List.append_nil] at hwhole
  obtain ⟨head, p, rex, b, b', hhead, hbytes, hoperands⟩ :=
    instruction_short hwhole (by rw [hi] at ho; exact ho) hshort
  exact ⟨head, p, rex, b, b', hhead, hbytes, by rw [hi]; exact hoperands⟩

/-- Widening gives the branch the other opcode and a displacement of four bytes. -/
theorem widenTarget_short (hbytes : i.bytes = head ++ [b, b'])
    (hoperands : i.operands = [Operand.relative v (head.length + 1) 1])
    (h : widenTarget.run i = .ok () j) :
    ∃ opcodes u, wideOpcode? b = some opcodes ∧ FitsSigned 4 u ∧
      j = { i with
        bytes := head ++ opcodes ++ bytesOfInt 4 u
        operands := [Operand.relative u (head ++ opcodes).length 4] } := by
  have hindex : i.relativeIndex? = some 0 := by rw [Instruction.relativeIndex?, hoperands]; rfl
  have hoperand : i.relativeOperand? = some (Operand.relative v (head.length + 1) 1) := by
    rw [Instruction.relativeOperand?, hoperands]
    rfl
  have hopcode : i.bytes[head.length]? = some b := by
    rw [hbytes, List.getElem?_append_right (Nat.le_refl _), Nat.sub_self]
    rfl
  have hhead : i.bytes.take head.length = head := by rw [hbytes, List.take_left]
  have hplace : (Operand.relative v (head.length + 1) 1).offset - 1 = head.length := rfl
  simp only [widenTarget, EStateM.run_bind, EStateM.run_get, hindex, hoperand] at h
  rw [if_neg (by simp [Operand.relative]), hplace, hopcode, Option.bind_some, hhead] at h
  split at h
  · rename_i opcodes hwide
    -- What is aimed has the wide opcode and four zero bytes for the displacement.
    obtain ⟨u, hu, rfl⟩ := Encode.setRelativeTarget_fills (head ++ opcodes) []
      (o := Operand.relative 0 (head ++ opcodes).length 4) rfl rfl
      (by decide : 4 ∈ [1, 2, 4]) (by rw [hoperands]; rfl) (by rw [List.append_nil]; rfl)
      (Encode.edited_eq_ok.mpr h)
    exact ⟨opcodes, u, hwide, hu, by rw [List.append_nil]; rfl⟩
  · cases h

/-- Only in 32-bit code is a prefix in the way of a displacement of four bytes. -/
theorem nearWidth_eq {p : Prefixes} {rex : Rex} (h : ReadsHead w head p rex) :
    nearWidth w p = if w = .bits32 ∧ 0x66 ∈ head then 2 else 4 := by
  obtain ⟨hscan, hrex⟩ := h
  rw [nearWidth, Prefixes.operandSize_of_scan hscan]
  cases w with
  | bits64 => rfl
  | bits32 =>
      cases hrex with
      | absent => simp [Width.is64]
      | present n hn hw => cases hw

/-- What the decoder makes of a near form. -/
theorem decode_nearForm {p : Prefixes} {rex : Rex} {s : OpcodeSpec} {opcodes : List UInt8} {u : Int}
    (hform : Decode.ByteReader.BranchForm w s .jz opcodes) (hhead : ReadsHead w head p rex)
    (hu : FitsSigned 4 u) (hsize : (head ++ opcodes ++ bytesOfInt 4 u).length ≤ maxSize) (a : Nat) :
    (nearWidth w p = 4 → decode w (head ++ opcodes ++ bytesOfInt 4 u) a =
      .ok (instructionOf (plainMeaning w s [Operand.relative u (head ++ opcodes).length 4])
        (head ++ opcodes ++ bytesOfInt 4 u) a)) ∧
    (nearWidth w p = 2 → ∀ k, decode w (head ++ opcodes ++ bytesOfInt 4 u) a = .ok k →
      k.bytes ≠ head ++ opcodes ++ bytesOfInt 4 u) := by
  have hlength : (bytesOfInt 4 u).length = 4 := LittleEndian.length_bytesOfInt ..
  constructor
  · intro hfour
    have hdecode := hform.decode_eq hhead (bytesOfInt 4 u) [] (.inr ⟨rfl, hlength.trans hfour.symm⟩)
      (by rwa [List.append_nil]) a
    rwa [List.append_nil, hlength, LittleEndian.signedValue_bytesOfInt (by decide) hu] at hdecode
  · intro htwo k hk
    have hfield : ((bytesOfInt 4 u).take 2).length = 2 := by simp [hlength]
    have hdecode := hform.decode_eq hhead ((bytesOfInt 4 u).take 2) ((bytesOfInt 4 u).drop 2)
      (.inr ⟨rfl, hfield.trans htwo.symm⟩) (by rwa [List.take_append_drop]) a
    rw [List.take_append_drop, hk] at hdecode
    cases hdecode
    intro hbytes
    have hlengths := congrArg List.length hbytes
    simp only [instructionOf, List.length_append, hfield, hlength] at hlengths
    omega

/-- A branch refers to where its only operand says. -/
theorem controlTarget?_of_relative {offset width : Nat}
    (hclass : i.opcodeClass = .uncondBranch ∨ i.opcodeClass = .condBranch)
    (hoperands : i.operands = [Operand.relative v offset width]) :
    i.controlTarget? = i.relativeTarget? := by
  have hbranch : (i.isBranch || i.isCall) = true := by
    rcases hclass with h | h <;> simp [Instruction.isBranch, h]
  rw [Instruction.controlTarget?, if_pos hbranch, Instruction.relativeTarget?,
    Instruction.relativeOperand?, hoperands]
  rfl

/-- A short branch is what its entry and its displacement say. -/
theorem eq_of_decode_short {p : Prefixes} {rex : Rex} {s : OpcodeSpec}
    (h : decode w bytes a = .ok i) (hbytes : i.bytes = head ++ [b, b'])
    (hform : Decode.ByteReader.BranchForm w s .jb [b]) (hhead : ReadsHead w head p rex) :
    i = instructionOf (plainMeaning w s
      [Operand.relative (signedValue [b']) (head.length + 1) 1]) (head ++ [b, b']) a := by
  have hlist : head ++ [b] ++ ([b'] ++ []) = head ++ [b, b'] := by simp
  have hself := decode_bytes_append h []
  rw [List.append_nil, hbytes, ← hlist] at hself
  have hsize : (head ++ [b] ++ ([b'] ++ [])).length ≤ maxSize := by
    rw [hlist, ← hbytes]
    exact decode_size_le h
  rw [hform.decode_eq hhead [b'] [] (.inl ⟨rfl, rfl⟩) hsize a] at hself
  rw [← Except.ok.inj hself, List.length_append, List.append_assoc]
  rfl

/-- A decoded branch with a displacement of one byte that could be widened is a jump or a
conditional jump, and the new instruction is its wide form. The decoder reads a wide form from its
bytes, and takes all of them, exactly if they are no more than an instruction may have and no
operand size prefix stands in front in 32-bit code; then it reads the new instruction. -/
theorem decode_widenTarget (h : decode w bytes a = .ok i) (hshort : ∃ o ∈ i.operands, o.IsShort)
    (hj : widenTarget.run i = .ok () j) :
    i.isBranch = true ∧ i.IsWideFormOf j ∧
      ((∃ k, decode w j.bytes a = .ok k ∧ k.bytes = j.bytes ∧ i.IsWideFormOf k) ↔
        j.size ≤ maxSize ∧ ¬(w = .bits32 ∧ 0x66 ∈ i.bytes.take (i.size - 2))) ∧
      (decode w j.bytes a = .ok j ↔
        j.size ≤ maxSize ∧ ¬(w = .bits32 ∧ 0x66 ∈ i.bytes.take (i.size - 2))) := by
  obtain ⟨o, ho, hshort⟩ := hshort
  obtain ⟨head, p, rex, b, b', hhead, hbytes, hoperands⟩ := decode_short h ho hshort
  obtain ⟨opcodes, u, hwide, hu, hjeq⟩ := widenTarget_short hbytes hoperands hj
  obtain ⟨s, hnear, hdistant, hclass⟩ := branchForms_of_wideOpcode? w hwide
  have hi := eq_of_decode_short h hbytes hnear hhead
  have hiclass : i.opcodeClass = .uncondBranch ∨ i.opcodeClass = .condBranch := by
    rw [hi]
    exact hclass
  have hjbytes : j.bytes = head ++ opcodes ++ bytesOfInt 4 u := by rw [hjeq]
  have hjread : j = instructionOf (plainMeaning w s [Operand.relative u (head ++ opcodes).length 4])
      j.bytes a := by
    rw [hjbytes, hjeq, hi]
    rfl
  have hform : i.IsWideFormOf j := by
    have hjoperands : j.operands = [Operand.relative u (head ++ opcodes).length 4] := by rw [hjeq]
    have hsame : j.opcodeClass = i.opcodeClass := by rw [hjeq]
    refine ⟨hsame, by rw [hjeq], ?_, _, _, hjoperands⟩
    rw [controlTarget?_of_relative hiclass hoperands,
      controlTarget?_of_relative (hsame ▸ hiclass) hjoperands,
      (Instruction.relativeTarget?_widenTarget hj).1]
  have hfront : i.bytes.take (i.size - 2) = head := by
    rw [Instruction.size, hbytes, List.length_append]
    exact List.take_left' rfl
  rw [hfront]
  have hnecessary : ∀ k, decode w j.bytes a = .ok k → k.bytes = j.bytes →
      j.size ≤ maxSize ∧ ¬(w = .bits32 ∧ 0x66 ∈ head) := by
    intro k hk hkbytes
    have hsize : j.size ≤ maxSize := by
      rw [Instruction.size, ← hkbytes]
      exact decode_size_le hk
    refine ⟨hsize, fun hprefix => ?_⟩
    have htwo : nearWidth w p = 2 := by rw [nearWidth_eq hhead, if_pos hprefix]
    rw [hjbytes] at hk hkbytes
    exact (decode_nearForm hdistant hhead hu (hjbytes ▸ hsize) a).2 htwo k hk hkbytes
  have hsufficient : j.size ≤ maxSize ∧ ¬(w = .bits32 ∧ 0x66 ∈ head) →
      decode w j.bytes a = .ok j := by
    rintro ⟨hsize, hprefix⟩
    have hfour : nearWidth w p = 4 := by rw [nearWidth_eq hhead, if_neg hprefix]
    have hdecode := (decode_nearForm hdistant hhead hu (hjbytes ▸ hsize) a).1 hfour
    rwa [← hjbytes, ← hjread] at hdecode
  refine ⟨?_, hform, ⟨?_, fun hread => ⟨j, hsufficient hread, rfl, hform⟩⟩,
    fun hk => hnecessary j hk rfl, hsufficient⟩
  · rcases hiclass with hclass | hclass <;> simp [Instruction.isBranch, hclass]
  · rintro ⟨k, hk, hkbytes, -⟩
    exact hnecessary k hk hkbytes

/-- A conditional jump to itself with a prefix in front. -/
def hintedJump : Instruction :=
  { address := 0x401000
    bytes := [0x2e, 0x75, 0xfd]
    opcodeClass := .condBranch
    mnemonic := Condition.jumpMnemonic 5
    operands := [Operand.relative (-3) 2 1]
    uses := Condition.flags 5 }

set_option maxRecDepth 4096 in
theorem decode_hintedJump : decode .bits64 hintedJump.bytes 0x401000 = .ok hintedJump := by cbv

theorem decode_widenTarget_hintedJump : ∃ j, widenTarget.run hintedJump = .ok () j ∧
    j.bytes = [0x2e, 0x0f, 0x85, 0xf9, 0xff, 0xff, 0xff] ∧
    decode .bits64 j.bytes 0x401000 = .ok j := by
  obtain ⟨j, hj, hbytes⟩ : ∃ j, widenTarget.run hintedJump = .ok () j ∧
      j.bytes = [0x2e, 0x0f, 0x85, 0xf9, 0xff, 0xff, 0xff] := ⟨_, rfl, rfl⟩
  obtain ⟨-, -, -, hiff⟩ := decode_widenTarget decode_hintedJump
    ⟨_, List.mem_singleton_self _, rfl, rfl⟩ hj
  refine ⟨j, hj, hbytes, hiff.mpr ⟨?_, fun h => nomatch h.1⟩⟩
  rw [Instruction.size, hbytes]
  decide

set_option maxRecDepth 4096 in
/-- Behind an operand size prefix the wide form of a jump is cut short in 32-bit code, and leads
elsewhere. -/
theorem exists_widened_misread : ∃ i j k, decode .bits32 [0x66, 0xeb, 0x05] 0x1000 = .ok i ∧
    i.controlTarget? = some 0x1008 ∧ widenTarget.run i = .ok () j ∧
    j.bytes = [0x66, 0xe9, 0x02, 0x00, 0x00, 0x00] ∧ decode .bits32 j.bytes 0x1000 = .ok k ∧
    k.bytes = [0x66, 0xe9, 0x02, 0x00] ∧ k.controlTarget? = some 0x1006 :=
  ⟨_, _, _, rfl, rfl, rfl, rfl, rfl, rfl, rfl⟩

end BinTrace
