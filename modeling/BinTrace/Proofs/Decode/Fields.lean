import BinTrace.Proofs.Decode.Displacement

/-!
What the opcode maps promise about relative operands: an instruction has one at most. A branch has
no operand but its displacement, and no other entry names the r/m field twice.
-/

namespace BinTrace

namespace OpcodeSpec

/-- Templates without a branch displacement that name the r/m field at most once. -/
def NamesRmOnce (ts : List Template) : Prop :=
  ts.any Template.isBranch = false ∧ ts.countP Template.namesRm ≤ 1

instance (ts : List Template) : Decidable (NamesRmOnce ts) := inferInstanceAs (Decidable (_ ∧ _))

/-- No two operands can be relative. -/
structure HasOneField (s : OpcodeSpec) : Prop where
  rm_once : s.needsModRm = true → NamesRmOnce s.operands
  branch_alone : s.needsModRm = false → s.operands.any Template.isBranch = true →
    s.operands.length = 1

instance (s : OpcodeSpec) : Decidable s.HasOneField :=
  decidable_of_iff
    ((s.needsModRm = true → NamesRmOnce s.operands) ∧
      (s.needsModRm = false → s.operands.any Template.isBranch = true → s.operands.length = 1))
    ⟨fun h => ⟨h.1, h.2⟩, fun h => ⟨h.rm_once, h.branch_alone⟩⟩

theorem HasOneField.renamed {s : OpcodeSpec} (h : s.HasOneField) (mnemonic : String) :
    HasOneField { s with mnemonic } :=
  ⟨h.rm_once, h.branch_alone⟩

end OpcodeSpec

open OpcodeSpec

namespace Opcode

theorem namesRmOnce_groupMember (g : Group) : ∀ reg < 8, ∀ registerForm, ∀ rm < 8,
    NamesRmOnce (groupMember g reg registerForm rm).operands := by
  cases g <;> decide +kernel

/-- What holds of all entries of a map holds of what is found in it. -/
theorem forall_getD {P : OpcodeSpec → Prop} {specs : Array OpcodeSpec} (hundefined : P undefined)
    (h : ∀ s ∈ specs.toList, P s) (opcode : Nat) : P (specs[opcode]?.getD undefined) := by
  cases hs : specs[opcode]? with
  | none => exact hundefined
  | some s => exact h s (Array.mem_toList_iff.mpr (Array.mem_of_getElem? hs))

theorem hasOneField_oneByte (opcode : Nat) : (oneByte opcode).HasOneField := by
  have hmap : ∀ s ∈ oneByteMap.toList, s.HasOneField := by decide +kernel
  exact forall_getD (by decide) hmap opcode

end Opcode

namespace Decode

/-- The sizes that operands and addresses have. -/
structure Layout.Sized (l : Layout) : Prop where
  operandSize_mem : l.operandSize ∈ [2, 4, 8]
  addressSize_mem : l.addressSize ∈ [2, 4, 8]

theorem operandSize_mem (w : Width) (s : OpcodeSpec) (p : Prefixes) (rex : Rex) :
    operandSize w s p rex ∈ [2, 4, 8] := by
  unfold operandSize
  repeat' split
  all_goals decide

theorem addressSize_mem (w : Width) (p : Prefixes) : addressSize w p ∈ [2, 4, 8] := by
  unfold addressSize
  split <;> decide

/-- The members of groups keep what the entries promise. -/
theorem namesRmOnce_completeSpec {s : OpcodeSpec} (h : NamesRmOnce s.operands) (m : ModRm) :
    NamesRmOnce (completeSpec s (some m)).operands := by
  unfold completeSpec
  cases s.group with
  | none => exact h
  | some g =>
      dsimp only [complete]
      split
      · exact h
      · exact Opcode.namesRmOnce_groupMember g _ (Nat.mod_lt _ (by decide)) _ _
          (Nat.mod_lt _ (by decide))

theorem hasOneField_oneByteSpec (w : Width) (p : Prefixes) (rex : Rex) (opcode : Nat) :
    (oneByteSpec w p rex opcode).HasOneField := by
  unfold oneByteSpec
  split
  · decide
  · split
    · decide
    · split
      · decide
      · exact Opcode.hasOneField_oneByte opcode

/-- Prefixes give entries of the two-byte map another name, or put one of two others in their
place. -/
theorem forall_twoByteSpec {P : OpcodeSpec → Prop} (hmap : ∀ s ∈ Opcode.twoByteMap.toList, P s)
    (hrenamed : ∀ s, P s → ∀ mnemonic, P { s with mnemonic }) (hundefined : P undefined)
    (hnop : P (Opcode.entry "nop" .nop [.ev] .untouched)) (p : Prefixes) (opcode : Nat) :
    P (twoByteSpec p opcode) := by
  have hentry : P (Opcode.twoByte opcode) := Opcode.forall_getD hundefined hmap opcode
  unfold twoByteSpec
  dsimp only
  split
  · split
    · exact hrenamed _ hentry _
    · exact hrenamed _ hentry _
    · exact hnop
    · exact hentry
  · split
    · exact hundefined
    · exact hentry

theorem hasOneField_twoByteSpec (p : Prefixes) (opcode : Nat) :
    (twoByteSpec p opcode).HasOneField := by
  have hmap : ∀ s ∈ Opcode.twoByteMap.toList, s.HasOneField := by decide +kernel
  exact forall_twoByteSpec hmap (fun _ => .renamed) (by decide) (by decide) p opcode

theorem hasOneField_threeByteSpec38 (p : Prefixes) (opcode : Nat) :
    (threeByteSpec38 p opcode).HasOneField := by
  unfold threeByteSpec38
  dsimp only
  repeat' split
  all_goals decide

theorem hasOneField_threeByteSpec3a (opcode : Nat) : (threeByteSpec3a opcode).HasOneField := by
  unfold threeByteSpec3a
  repeat' split
  all_goals decide

/-- In the one-byte map the lead bytes of vector extension encodings stand before ModRM. -/
theorem needsModRm_vectorLead {opcode : Nat} (h : opcode = 0xc4 ∨ opcode = 0xc5 ∨ opcode = 0x62)
    (w : Width) (p : Prefixes) (rex : Rex) : (oneByteSpec w p rex opcode).needsModRm = true := by
  have hplain : oneByteSpec w p rex opcode = Opcode.oneByte opcode := by
    unfold oneByteSpec
    rw [if_neg (by omega), if_neg (by omega), if_neg (by omega)]
  rw [hplain]
  rcases h with rfl | rfl | rfl <;> decide +kernel

end Decode

end BinTrace
