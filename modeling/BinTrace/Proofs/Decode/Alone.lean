import BinTrace.Proofs.Decode.Aim

/-!
A branch displacement is the only operand of its instruction. So an indirect jump, which takes its
target from a register or from memory, has no target that it names itself.
-/

namespace BinTrace

namespace Decode

namespace ByteReader

variable {α : Type} {c d : Cursor} {w : Width} {p : Prefixes} {rex : Rex} {spec : OpcodeSpec}
  {map : OpcodeMap} {opcode : Nat}

/-- Among the operands of what is read, a branch displacement stands alone. -/
def Alone (r : ByteReader Meaning) : Prop :=
  ∀ ⦃c m d⦄, r.run c = .ok (m, d) → (∃ o ∈ m.operands, o.kind = .relative) →
    m.operands.length = 1

theorem alone_reject : Alone reject := fun _ _ _ h => nomatch h

/-- None of the operands of what is read is a branch displacement. -/
def NoBranch (r : ByteReader Meaning) : Prop :=
  ∀ ⦃c m d⦄, r.run c = .ok (m, d) → ∀ o ∈ m.operands, o.kind ≠ .relative

theorem noBranch_reject : NoBranch reject := fun _ _ _ h => nomatch h

theorem NoBranch.alone {r : ByteReader Meaning} (h : NoBranch r) : Alone r :=
  fun _ _ _ hrun ⟨o, ho, hkind⟩ => absurd hkind (h hrun o ho)

theorem Alone.bind {r : ByteReader α} {f : α → ByteReader Meaning} (hf : ∀ a, Alone (f a)) :
    Alone (r >>= f) := by
  intro c m d h
  obtain ⟨a, e, -, hrest⟩ := run_bind_ok h
  exact hf a hrest

theorem NoBranch.bind {r : ByteReader α} {f : α → ByteReader Meaning} (hf : ∀ a, NoBranch (f a)) :
    NoBranch (r >>= f) := by
  intro c m d h
  obtain ⟨a, e, -, hrest⟩ := run_bind_ok h
  exact hf a hrest

/-- The r/m field never names a branch displacement. -/
def KeepsOff (m : ModRm) : Prop := ∀ o ∈ m.memory, o.kind ≠ .relative

theorem keepsOff_modRm {addressSize : Nat} {relativeToEnd forceRegister : Bool} {m : ModRm}
    (h : (modRm rex addressSize relativeToEnd forceRegister).run c = .ok (m, d)) :
    KeepsOff m := by
  have haddress {relativeToEnd : Bool} {mode rm : Nat} {o : Operand} {c d : Cursor}
      (h : (address rex addressSize relativeToEnd mode rm).run c = .ok (o, d)) :
      o.kind ≠ .relative := by
    unfold address at h
    dsimp only at h
    split at h
    · obtain ⟨sib, e, -, h⟩ := run_bind_ok h
      split at h <;> simp [kind_of_displaced h]
    · split at h <;> simp [kind_of_displaced h]
  unfold modRm at h
  obtain ⟨b, e, -, h⟩ := run_bind_ok h
  dsimp only at h
  split at h
  · cases h
    exact fun o ho => nomatch ho
  · split at h
    · obtain ⟨o, e, ho, h⟩ := run_bind_ok h
      cases h
      rintro _ ⟨⟩
      simp [kind_of_displaced ho]
    · obtain ⟨o, e, ho, h⟩ := run_bind_ok h
      cases h
      rintro _ ⟨⟩
      exact haddress ho

theorem NoBranch.modRm {addressSize : Nat} {relativeToEnd forceRegister : Bool}
    {g : ModRm → ByteReader Meaning} (hg : ∀ m, KeepsOff m → NoBranch (g m)) :
    NoBranch (ByteReader.modRm rex addressSize relativeToEnd forceRegister >>= g) := by
  intro c m d h
  obtain ⟨r, e, hr, hrest⟩ := run_bind_ok h
  exact hg r (keepsOff_modRm hr) hrest

/-- Without a branch template every operand is something else. -/
theorem kind_ne_of_mapM {l : Layout} {modRm? : Option ModRm} {ts : List Template}
    {os : List Operand} (h : (ts.mapM (operand l modRm?)).run c = .ok (os, d))
    (hbranch : ts.any Template.isBranch = false) (hm : ∀ m ∈ modRm?, KeepsOff m) :
    ∀ o ∈ os, o.kind ≠ .relative := by
  obtain ⟨-, hmem⟩ := mapM_relative h hbranch
  intro o ho hkind
  have hrelative : o.isRelative = true := by rw [Operand.isRelative, hkind]
  obtain ⟨m, hsome, hmemory⟩ :=
    Option.bind_eq_some_iff.mp (hmem o (List.mem_filter.mpr ⟨ho, hrelative⟩))
  exact hm m hsome o hmemory hkind

theorem noBranch_behindModRm_some (h : OpcodeSpec.NamesRmOnce spec.operands) {m : ModRm}
    (hm : KeepsOff m) : NoBranch (behindModRm w p rex spec map opcode (some m)) := by
  rcases behindModRm_eq w p rex spec map opcode (some m) with heq | ⟨l, s, mnemonic, count, -, heq⟩
  · rw [heq]
    exact noBranch_reject
  · rw [heq]
    intro c x d hrun
    obtain ⟨os, e, hos, hrun⟩ := run_bind_ok hrun
    cases hrun
    exact kind_ne_of_mapM hos (namesRmOnce_completeSpec h m).1 (by simpa using hm)

theorem alone_behindModRm_none (h : spec.HasOneField) (hneeds : spec.needsModRm = false) :
    Alone (behindModRm w p rex spec map opcode none) := by
  rcases behindModRm_eq w p rex spec map opcode none with heq | ⟨l, s, mnemonic, count, -, heq⟩
  · rw [heq]
    exact alone_reject
  · rw [heq, completeSpec_none]
    cases hbranch : spec.operands.any Template.isBranch with
    | true =>
        -- The displacement is all that the entry asks for.
        obtain ⟨t, ht⟩ := List.length_eq_one_iff.mp (h.branch_alone hneeds hbranch)
        intro c x d hrun _
        obtain ⟨os, e, hos, hrun⟩ := run_bind_ok hrun
        cases hrun
        rw [ht, List.mapM_cons] at hos
        obtain ⟨o, e, -, hos⟩ := run_bind_ok hos
        cases hos
        rfl
    | false =>
        refine NoBranch.alone fun c x d hrun => ?_
        obtain ⟨os, e, hos, hrun⟩ := run_bind_ok hrun
        cases hrun
        exact kind_ne_of_mapM hos hbranch (by simp)

theorem noBranch_tail_modRm (h : spec.HasOneField) (hneeds : spec.needsModRm = true) :
    NoBranch (tail w p rex spec map opcode) := by
  rw [tail, if_pos hneeds, bind_map_left]
  exact .modRm fun m hm => noBranch_behindModRm_some (h.rm_once hneeds) hm

theorem alone_tail (h : spec.HasOneField) : Alone (tail w p rex spec map opcode) := by
  cases hneeds : spec.needsModRm with
  | true => exact (noBranch_tail_modRm h hneeds).alone
  | false =>
      rw [tail, if_neg (by simp [hneeds]), pure_bind]
      exact alone_behindModRm_none h hneeds

theorem noBranch_floatTail (w : Width) (p : Prefixes) (rex : Rex) (opcode : Nat) :
    NoBranch (floatTail w p rex opcode) := by
  refine .bind fun modRmByte => .modRm fun m hm => ?_
  split
  · exact noBranch_reject
  · intro c x d hrun o ho
    cases hrun
    exact hm o (Option.mem_toList.mp ho)

theorem noBranch_vectorTail (w : Width) (h : VectorHead) : NoBranch (vectorTail w h) := by
  have hmeaning {m : ModRm} (hm : KeepsOff m) :
      ∀ o ∈ (h.meaning w m).operands, o.kind ≠ .relative := by
    intro o ho hkind
    have hrelative : o.isRelative = true := by rw [Operand.isRelative, hkind]
    have hmem := (relative_meaning h w m).subset (List.mem_filter.mpr ⟨ho, hrelative⟩)
    exact hm o (Option.mem_toList.mp hmem) hkind
  unfold vectorTail
  split
  · intro c x d hrun o ho
    cases hrun
    cases ho
  · refine .modRm fun m hm c x d hrun => ?_
    split at hrun
    · obtain ⟨immediate, e, himmediate, hrun⟩ := run_bind_ok hrun
      obtain ⟨_, _, -, himmediate⟩ := run_bind_ok himmediate
      cases himmediate
      cases hrun
      intro o ho hkind
      rcases List.mem_append.mp ho with ho | ho
      · exact hmeaning hm o ho hkind
      · obtain rfl := List.mem_singleton.mp ho
        cases hkind
    · cases hrun
      exact hmeaning hm

theorem noBranch_vex (w : Width) (lead : Nat) : NoBranch (vex w lead) := by
  refine .bind fun first => ?_
  dsimp only
  split
  · rw [pure_bind]
    split
    · exact noBranch_reject
    · exact .bind fun opcode => noBranch_vectorTail _ _
  · refine .bind fun second => ?_
    rw [pure_bind]
    dsimp only
    split
    · exact noBranch_reject
    · exact .bind fun opcode => noBranch_vectorTail _ _

theorem noBranch_evex (w : Width) : NoBranch (evex w) := by
  refine .bind fun first => .bind fun second => .bind fun _ => ?_
  dsimp only
  split
  · exact noBranch_reject
  · split
    · exact noBranch_reject
    · exact .bind fun opcode => noBranch_vectorTail _ _

theorem alone_instruction (w : Width) : Alone (instruction w) := by
  refine .bind fun p => .bind fun rex => .bind fun opcode => .bind fun isVector => ?_
  dsimp only
  split
  · split <;> split
    · exact alone_reject
    · exact alone_reject
    · exact (noBranch_evex w).alone
    · exact (noBranch_vex w opcode).alone
  · split
    · exact (noBranch_floatTail w p rex opcode).alone
    · split
      · refine .bind fun second => ?_
        split
        · exact .bind fun third => alone_tail (hasOneField_threeByteSpec38 p third)
        · split
          · exact .bind fun third => alone_tail (hasOneField_threeByteSpec3a third)
          · exact alone_tail (hasOneField_twoByteSpec p second)
      · exact alone_tail (hasOneField_oneByteSpec ..)

end ByteReader

end Decode

open Decode ByteReader

/-- A jump that takes its target from a register or from memory names none itself. -/
theorem controlTarget?_of_isTableJump {w : Width} {bytes : List UInt8} {a : Nat} {i : Instruction}
    (h : decode w bytes a = .ok i) (hjump : i.isTableJump = true) : i.controlTarget? = none := by
  obtain ⟨m, c, hrun, rfl⟩ := run_of_decode h
  simp only [Instruction.isTableJump, Instruction.isIndirectBranch, Bool.and_eq_true,
    List.any_eq_true] at hjump
  obtain ⟨-, -, source, hsource, hindirect⟩ := hjump
  have hnone : m.operands.find? (·.kind = .relative) = none := by
    refine List.find?_eq_none.mpr fun o ho hkind => ?_
    have hkind : o.kind = .relative := of_decide_eq_true hkind
    obtain ⟨only, honly⟩ := List.length_eq_one_iff.mp (alone_instruction w hrun ⟨o, ho, hkind⟩)
    have hsame : source = o := by
      rw [honly] at ho hsource
      exact (List.mem_singleton.mp hsource).trans (List.mem_singleton.mp ho).symm
    simp [hsame, Operand.register?, Operand.memory?, hkind] at hindirect
  simp [Instruction.controlTarget?, hnone]

end BinTrace
