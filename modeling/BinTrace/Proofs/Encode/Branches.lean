import BinTrace.Proofs.Encode.Forms

/-!
Jumps and calls, which hold the distance to their target. The decoder reads them back, and so finds
the same target.
-/

namespace BinTrace.Encode

open Decode (IsOpcode IsSteady IsPlainEntry Layout instructionOf plainMeaning
  readsBack_plainMeaning unionOf decode_plain decode_escaped)
open Decode.ByteReader (operand run_mapM_nil run_mapM_cons)
open LittleEndian (bytesOfInt FitsSigned)
open Opcode (entry oneByte oneByte_row twoByte_row branchEntry)
open RegSet (ofGprs)

variable {w : Width} {i : Instruction} {s : OpcodeSpec} {width : Nat}

/-- A displacement that ends the instruction. -/
theorem run_branch_last {l : Layout} {t : Template} {v : Int} (hl : l.hasOperandSizePrefix = false)
    (ht : t = .jb ∧ width = 1 ∨ t = .jz ∧ width = 4) (hv : FitsSigned width v)
    (modRm? : Option Decode.ModRm) (position : Nat) :
    (operand l modRm? t).run ⟨bytesOfInt width v, position⟩ =
      .ok (Operand.relative v position width, ⟨[], position + (bytesOfInt width v).length⟩) := by
  have hlength : (bytesOfInt width v).length = width := LittleEndian.length_bytesOfInt ..
  have hoperand : operand l modRm? t = Decode.ByteReader.branch width := by
    rcases ht with ⟨rfl, rfl⟩ | ⟨rfl, rfl⟩
    · rfl
    · have hsize : l.branchSize = 4 := by simp [Layout.branchSize, hl]
      rw [← hsize]
      rfl
  have hrun := Decode.ByteReader.run_branch (bytesOfInt width v) [] position
  rw [List.append_nil, hlength, LittleEndian.signedValue_bytesOfInt (by omega) hv] at hrun
  rw [hoperand, hlength, hrun]

/-- The encoder's branch is read back if the decoder reads its form. -/
theorem isReadBack_relative {opcode : List UInt8} {place target : Nat} {c : OpcodeClass}
    {mnemonic : String} {uses defs : RegSet} (hwidth : width ∈ [1, 2, 4])
    (hdecode : ∀ v a, FitsSigned width v → decode w (opcode ++ bytesOfInt width v) a =
      .ok (instructionOf (plainMeaning w s [Operand.relative v opcode.length width])
        (opcode ++ bytesOfInt width v) a))
    (hclass : s.opcodeClass = c) (hmnemonic : s.mnemonic = mnemonic)
    (hname : s.mnemonic ∉ ["xor", "sub"])
    (huses : s.uses ∪ CallingConvention.uses w c = uses)
    (hdefs : s.defs ∪ CallingConvention.defs w c = defs)
    (h : relative opcode width place target c mnemonic uses defs = .ok i) : IsReadBack w i := by
  subst hclass
  obtain ⟨v, hfits, rfl⟩ := relative_ok hwidth h
  refine ⟨rfl, _, hdecode v place hfits,
    readsBack_plainMeaning (.cons (.relative ..) .nil) rfl hmnemonic hname ?_ ?_⟩
  · simpa [unionOf, generated] using huses
  · simpa [unionOf, generated] using hdefs

/-- A branch with an opcode of one byte. -/
theorem decode_branch {b : UInt8} {t : Template} (hb : IsOpcode b) (hspec : oneByte b.toNat = s)
    (hoperands : s.operands = [t]) (hentry : IsPlainEntry w s) (hneeds : s.needsModRm = false)
    (ht : t = .jb ∧ width = 1 ∨ t = .jz ∧ width = 4) (v : Int) (a : Nat)
    (hv : FitsSigned width v) : decode w ([b] ++ bytesOfInt width v) a =
      .ok (instructionOf (plainMeaning w s [Operand.relative v [b].length width])
        ([b] ++ bytesOfInt width v) a) := by
  have hlength : (bytesOfInt width v).length = width := LittleEndian.length_bytesOfInt ..
  refine decode_plain .absent hb hspec hentry hneeds ?_ ?_ a
  · change 0 + 1 + (bytesOfInt width v).length ≤ 15
    omega
  · rw [hoperands]
    exact run_mapM_cons (run_branch_last rfl ht hv none 1) (run_mapM_nil _)

/-- A conditional jump to a distant target, which has an opcode of two bytes. -/
theorem decode_branch_escaped {b : UInt8} (h38 : b.toNat ≠ 0x38) (h3a : b.toNat ≠ 0x3a)
    (hsteady : IsSteady b.toNat) (hspec : Decode.twoByteSpec {} b.toNat = s)
    (hoperands : s.operands = [.jz]) (hentry : IsPlainEntry w s) (hneeds : s.needsModRm = false)
    (v : Int) (a : Nat) (hv : FitsSigned 4 v) : decode w ([0x0f, b] ++ bytesOfInt 4 v) a =
      .ok (instructionOf (plainMeaning w s [Operand.relative v [0x0f, b].length 4])
        ([0x0f, b] ++ bytesOfInt 4 v) a) := by
  have hlength : (bytesOfInt 4 v).length = 4 := LittleEndian.length_bytesOfInt ..
  refine decode_escaped h38 h3a hsteady hspec hentry hneeds ?_ ?_ a
  · change 2 + (bytesOfInt 4 v).length ≤ 15
    omega
  · rw [hoperands]
    exact run_mapM_cons (run_branch_last rfl (.inr ⟨rfl, rfl⟩) hv none 2) (run_mapM_nil _)

theorem isReadBack_jumpNear {place target : Nat} (h : jumpNear place target = .ok i) :
    IsReadBack w i := by
  have hspec : oneByte (0xe9 : UInt8).toNat = branchEntry "jmp" .uncondBranch [.jz] :=
    Decode.oneByte_jump
  exact isReadBack_relative (by decide) (decode_branch (by decide) hspec rfl
    (by cases w <;> decide) rfl (.inr ⟨rfl, rfl⟩)) rfl rfl (by decide)
    (by cases w <;> decide) (by cases w <;> decide) h

theorem isReadBack_jump {place target : Nat} (h : jump place target = .ok i) : IsReadBack w i := by
  have hspec : oneByte (0xeb : UInt8).toNat = branchEntry "jmp" .uncondBranch [.jb] :=
    oneByte_row 14 11 (by decide)
  unfold jump at h
  split at h
  · exact isReadBack_relative (by decide) (decode_branch (by decide) hspec rfl
      (by cases w <;> decide) rfl (.inl ⟨rfl, rfl⟩)) rfl rfl (by decide)
      (by cases w <;> decide) (by cases w <;> decide) h
  · exact isReadBack_jumpNear h

theorem isReadBack_call {place target : Nat} (h : call w place target = .ok i) :
    IsReadBack w i := by
  have hspec : oneByte (0xe8 : UInt8).toNat =
      { branchEntry "call" .call [.jz] with uses := ofGprs [.sp], defs := ofGprs [.sp] } :=
    oneByte_row 14 8 (by decide)
  exact isReadBack_relative (by decide) (decode_branch (by decide) hspec rfl
    (by cases w <;> decide) rfl (.inr ⟨rfl, rfl⟩)) rfl rfl (by decide)
    (by cases w <;> decide) (by cases w <;> decide) h

/-- The entries of conditional jumps, to near and to distant targets. -/
theorem conditionalEntries {k : Nat} (hk : k < 16) :
    oneByte (0x70 + k) =
        { branchEntry (Condition.jumpMnemonic k) .condBranch [.jb] with
          uses := Condition.flags k } ∧
      Decode.twoByteSpec {} (0x80 + k) =
        { branchEntry (Condition.jumpMnemonic k) .condBranch [.jz] with
          uses := Condition.flags k } := by
  have hentry (f : Nat → OpcodeSpec) :
      (Opcode.conditionRow f)[k]? = some ((f k).testing (Condition.flags k)) := by
    simp [Opcode.conditionRow, hk]
  have hplain : Decode.twoByteSpec {} (0x80 + k) = Opcode.twoByte (0x80 + k) :=
    if_neg (by omega)
  rw [hplain, oneByte_row 7 k hk, twoByte_row 8 k hk]
  change (Option.getD ((Opcode.conditionRow _)[k]?) _) = _ ∧
    (Option.getD ((Opcode.conditionRow _)[k]?) _) = _
  rw [hentry, hentry]
  simp [OpcodeSpec.testing, branchEntry, entry, OpcodeSpec.marked]

/-- The opcodes of conditional jumps. -/
theorem conditionalOpcodes : ∀ k < 16, (IsOpcode (UInt8.ofNat (0x70 + k)) ∧
    (UInt8.ofNat (0x70 + k)).toNat = 0x70 + k) ∧ IsSteady (0x80 + k) ∧
      (UInt8.ofNat (0x80 + k)).toNat = 0x80 + k := by
  decide

theorem jumpMnemonic_notMem : ∀ k < 16, Condition.jumpMnemonic k ∉ ["xor", "sub"] := by
  decide

theorem isReadBack_jumpIf {code place target : Nat} (h : jumpIf code place target = .ok i) :
    IsReadBack w i := by
  have hcode : code % 16 < 16 := Nat.mod_lt _ (by decide)
  unfold jumpIf at h
  dsimp only at h
  generalize code % 16 = k at hcode h
  obtain ⟨hnear, hdistant⟩ := conditionalEntries hcode
  obtain ⟨⟨hb, htoNat⟩, hsteady, htoNat'⟩ := conditionalOpcodes k hcode
  have hname := jumpMnemonic_notMem k hcode
  rw [← htoNat] at hnear
  rw [← htoNat'] at hdistant hsteady
  split at h
  · exact isReadBack_relative (by decide) (decode_branch hb hnear rfl
      (by cases w <;> exact ⟨rfl, rfl⟩) rfl (.inl ⟨rfl, rfl⟩)) rfl rfl hname
      (RegSet.union_empty _) (RegSet.union_empty _) h
  · exact isReadBack_relative (by decide) (decode_branch_escaped (by omega) (by omega) hsteady
      hdistant rfl (by cases w <;> exact ⟨rfl, rfl⟩) rfl) rfl rfl
      hname (RegSet.union_empty _) (RegSet.union_empty _) h

end BinTrace.Encode
