import BinTrace.Proofs.Decode.Extent

/-!
The field of a relative displacement. Nothing that is decoded depends on it but the displacement
itself: with other bytes in the field the decoder reads the same instruction with another
displacement. So an instruction may be aimed at another target by writing over the field.
-/

namespace BinTrace

open LittleEndian (signedValue)

namespace Operand

/-- The operand with another displacement, if it is relative. -/
def aim (v : Int) (o : Operand) : Operand := if o.isRelative then { o with value := v } else o

variable {v : Int} {o : Operand}

theorem aim_of_not (h : o.isRelative = false) : o.aim v = o := by
  rw [aim, h]
  rfl

theorem aim_of_isRelative (h : o.isRelative = true) : o.aim v = { o with value := v } := by
  rw [aim, h]
  rfl

theorem kind_aim (v : Int) (o : Operand) : (o.aim v).kind = o.kind := by
  unfold aim
  split <;> rfl

theorem register?_aim (v : Int) (o : Operand) : (o.aim v).register? = o.register? := by
  rw [register?, kind_aim, register?]

theorem memory?_aim (v : Int) (o : Operand) : (o.aim v).memory? = o.memory? := by
  rw [memory?, kind_aim, memory?]

end Operand

namespace Template

/-- The operand is the one that the r/m field names. -/
def namesRm : Template → Bool
  | .eb | .ev | .ew | .ed | .ey | .m | .wx => true
  | _ => false

def isBranch : Template → Bool
  | .jb | .jz => true
  | _ => false

end Template

namespace Decode

open Operand (aim)

variable {v : Int}

def ModRm.aim (v : Int) (m : ModRm) : ModRm := { m with memory := m.memory.map (Operand.aim v) }

def Meaning.aim (v : Int) (m : Meaning) : Meaning :=
  { m with operands := m.operands.map (Operand.aim v) }

theorem ModRm.isRegister_aim (v : Int) (m : ModRm) : (m.aim v).isRegister = m.isRegister := by
  rw [isRegister, aim, Option.isNone_map, isRegister]

@[simp] theorem ModRm.rm_aim (v : Int) (m : ModRm) : (m.aim v).rm = m.rm := rfl

/-- The memory operand, or a register in its place. -/
theorem ModRm.getD_aim (v : Int) (m : ModRm) (r : Register) :
    (m.aim v).memory.getD (Operand.ofRegister r) =
      (m.memory.getD (Operand.ofRegister r)).aim v := by
  rw [aim]
  cases m.memory <;> rfl

theorem ModRm.memoryRef_aim (v : Int) (m : ModRm) :
    (m.aim v).memory.bind Operand.memory? = m.memory.bind Operand.memory? := by
  rw [aim]
  cases m.memory with
  | none => rfl
  | some o => exact Operand.memory?_aim v o

/-- What operands add to the registers that are read and written has nothing to do with their
displacements. -/
theorem unionOf_aim {f : Nat → Operand → RegSet} (hf : ∀ n o, f n (aim v o) = f n o) (n : Nat)
    (os : List Operand) : unionOf f n (os.map (aim v)) = unionOf f n os := by
  induction os generalizing n with
  | nil => rfl
  | cons o rest ih => rw [List.map_cons, unionOf, unionOf, hf, ih]

theorem operandUses_aim (a : Access) (n : Nat) (o : Operand) :
    operandUses a n (aim v o) = operandUses a n o := by
  rw [operandUses, Operand.kind_aim, operandUses]

theorem operandDefs_aim (a : Access) (n : Nat) (o : Operand) :
    operandDefs a n (aim v o) = operandDefs a n o := by
  rw [operandDefs, Operand.register?_aim, operandDefs]

theorem clearedRegister?_aim (mnemonic : String) (os : List Operand) :
    clearedRegister? mnemonic (os.map (aim v)) = clearedRegister? mnemonic os := by
  match os with
  | [] | [_] | _ :: _ :: _ :: _ => rfl
  | [a, b] => simp only [List.map_cons, List.map_nil, clearedRegister?, Operand.register?_aim]

theorem meaningOf_aim (w : Width) (s : OpcodeSpec) (mnemonic : String) (count : RegSet × RegSet)
    (os : List Operand) : meaningOf w s mnemonic count (os.map (aim v)) =
      (meaningOf w s mnemonic count os).aim v := by
  rw [meaningOf, usesOf, defsOf, clearedRegister?_aim, unionOf_aim (operandUses_aim s.access),
    unionOf_aim (operandDefs_aim s.access)]
  rfl

theorem completeSpec_none (s : OpcodeSpec) : completeSpec s none = s := by
  unfold completeSpec
  cases s.group <;> rfl

theorem completeSpec_aim (v : Int) (s : OpcodeSpec) (m : ModRm) :
    completeSpec s (some (m.aim v)) = completeSpec s (some m) := by
  unfold completeSpec
  cases s.group with
  | none => rfl
  | some g =>
      simp only [ModRm.isRegister_aim]
      rfl

theorem meaning_aim (h : VectorHead) (w : Width) (m : ModRm) (v : Int) :
    h.meaning w (m.aim v) = (h.meaning w m).aim v := by
  have hbit : h.bitManipulation w (m.aim v) = (h.bitManipulation w m).aim v := by
    rw [VectorHead.bitManipulation, ModRm.isRegister_aim, ModRm.getD_aim]
    rfl
  have hvector : h.vectorOperation w (m.aim v) = (h.vectorOperation w m).aim v := by
    unfold VectorHead.vectorOperation
    rw [ModRm.isRegister_aim]
    dsimp only
    split <;> rw [ModRm.getD_aim] <;> rfl
  unfold VectorHead.meaning
  rw [ModRm.memoryRef_aim, hbit, hvector]
  split <;> split <;> rfl

theorem operands_meaning (h : VectorHead) (w : Width) (m : ModRm) :
    ∃ r s, (h.meaning w m).operands =
      [Operand.ofRegister r, m.memory.getD (Operand.ofRegister s)] := by
  obtain ⟨r, s, hbase⟩ : ∃ r s, (if h.isBitManipulation then h.bitManipulation w m
      else h.vectorOperation w m).operands =
        [Operand.ofRegister r, m.memory.getD (Operand.ofRegister s)] := by
    split
    · exact ⟨_, _, rfl⟩
    · unfold VectorHead.vectorOperation
      dsimp only
      split <;> exact ⟨_, _, rfl⟩
  refine ⟨r, s, ?_⟩
  unfold VectorHead.meaning
  dsimp only
  cases m.memory.bind Operand.memory? <;> exact hbase

theorem relative_meaning (h : VectorHead) (w : Width) (m : ModRm) :
    ((h.meaning w m).operands.filter Operand.isRelative).Sublist m.memory.toList := by
  obtain ⟨r, s, hoperands⟩ := operands_meaning h w m
  have hregister (r : Register) : ¬(Operand.ofRegister r).isRelative = true := Bool.false_ne_true
  rw [hoperands, List.filter_cons_of_neg (hregister r)]
  cases m.memory with
  | none =>
      rw [Option.getD_none, List.filter_cons_of_neg (hregister s)]
      exact List.nil_sublist _
  | some o => exact List.filter_sublist

namespace ByteReader

variable {α β : Type} {c d : Cursor} {o : Operand} {t : Template} {l : Layout}
  {modRm? : Option ModRm} {os : List Operand} {ts : List Template}

theorem map_eq_self {f : α → α} {r : ByteReader α}
    (h : ∀ ⦃c a d⦄, r.run c = .ok (a, d) → f a = a) : f <$> r = r := by
  refine StateT.ext fun c => ?_
  rw [StateT.run_map]
  cases hrun : r.run c with
  | error e => rfl
  | ok p => exact congrArg (fun a => Except.ok (a, p.2)) (h hrun)

/-- The operand of the r/m field is relative only if it is in memory. -/
theorem memory_of_relative_getD {m : ModRm} {r : Register}
    (h : (m.memory.getD (Operand.ofRegister r)).isRelative = true) :
    m.memory = some (m.memory.getD (Operand.ofRegister r)) := by
  cases hm : m.memory with
  | none =>
      rw [hm] at h
      cases h
  | some o => rfl

/-- No run gives a relative operand. -/
def NeverRelative (r : ByteReader Operand) : Prop :=
  ∀ ⦃c o d⦄, r.run c = .ok (o, d) → o.isRelative = false

theorem neverRelative_pure (h : o.isRelative = false) : NeverRelative (pure o) := by
  intro c a d hrun
  cases hrun
  exact h

theorem NeverRelative.bind {r : ByteReader α} {f : α → ByteReader Operand}
    (hf : ∀ a, NeverRelative (f a)) : NeverRelative (r >>= f) := by
  intro c o d h
  obtain ⟨a, e, -, hrest⟩ := run_bind_ok h
  exact hf a hrest

theorem neverRelative_signedImmediate (width : Nat) : NeverRelative (signedImmediate width) :=
  .bind fun _ => neverRelative_pure rfl

theorem NeverRelative.map_aim {r : ByteReader Operand} (hr : NeverRelative r) (v : Int) :
    aim v <$> r = r :=
  map_eq_self fun _ _ _ h => Operand.aim_of_not (hr h)

theorem neverRelative_operand (hbranch : t.isBranch = false) (hnames : t.namesRm = false) :
    NeverRelative (operand l modRm? t) := by
  cases t
  case jb | jz => cases hbranch
  case eb | ev | ew | ed | ey | m | wx => cases hnames
  case ib | iz | iv => exact neverRelative_signedImmediate _
  case iw | ob | ov => exact .bind fun _ => neverRelative_pure rfl
  case ap => exact .bind fun _ => .bind fun _ => neverRelative_pure rfl
  case zb | zv | al | ax | cl | dx | one => exact neverRelative_pure rfl
  all_goals cases modRm? with
    | none => exact fun c o d h => nomatch h
    | some m => exact neverRelative_pure rfl

/-- A relative operand is the displacement of a branch, or the operand of the r/m field. -/
theorem operand_relative (h : (operand l modRm? t).run c = .ok (o, d)) (ho : o.isRelative = true)
    (hbranch : t.isBranch = false) : t.namesRm = true ∧ modRm?.bind ModRm.memory = some o := by
  cases hnames : t.namesRm with
  | false => exact absurd ho (by simp [neverRelative_operand hbranch hnames h])
  | true =>
      cases t
      case m =>
        cases modRm? with
        | none => cases h
        | some m =>
            simp only [operand] at h
            cases hm : m.memory with
            | none =>
                rw [hm] at h
                cases h
            | some memory =>
                rw [hm] at h
                cases h
                exact ⟨rfl, hm⟩
      case eb | ev | ew | ed | ey | wx =>
        cases modRm? with
        | none => cases h
        | some m =>
            cases h
            exact ⟨rfl, memory_of_relative_getD ho⟩
      all_goals cases hnames

theorem operand_branch (l : Layout) (modRm? : Option ModRm) (h : t.isBranch = true) :
    ∃ width ∈ [1, 2, 4], operand l modRm? t = branch width := by
  cases t
  case jb => exact ⟨1, by decide, rfl⟩
  case jz => exact ⟨l.branchSize, by unfold Layout.branchSize; split <;> decide, rfl⟩
  all_goals cases h

theorem operand_aim (ht : t.isBranch = false) (m : ModRm) :
    operand l (some (m.aim v)) t = aim v <$> operand l (some m) t := by
  cases hnames : t.namesRm with
  | false =>
      have hsame : operand l (some (m.aim v)) t = operand l (some m) t := by
        cases t <;> first | rfl | cases hnames
      rw [hsame, (neverRelative_operand ht hnames).map_aim]
  | true =>
      cases t
      case m =>
        simp only [operand, ModRm.aim]
        cases m.memory <;> rfl
      case eb | ev | ew | ed | ey | wx =>
        simp only [operand, Layout.rmOperand, Layout.gprOperand, ModRm.getD_aim, ModRm.rm_aim,
          map_pure]
      all_goals cases hnames

theorem mapM_aim (h : ts.any Template.isBranch = false) (m : ModRm) :
    ts.mapM (operand l (some (m.aim v))) =
      List.map (aim v) <$> ts.mapM (operand l (some m)) := by
  induction ts with
  | nil => rfl
  | cons t rest ih =>
      rw [List.any_cons, Bool.or_eq_false_iff] at h
      rw [List.mapM_cons, List.mapM_cons, operand_aim h.1, ih h.2]
      simp only [map_eq_pure_bind, bind_assoc, pure_bind, List.map_cons]

/-- The relative operands that templates without a branch give: the r/m field is named at most as
often as they say, and each time it is the same operand. -/
theorem mapM_relative (h : (ts.mapM (operand l modRm?)).run c = .ok (os, d))
    (hbranch : ts.any Template.isBranch = false) :
    (os.filter Operand.isRelative).length ≤ ts.countP Template.namesRm ∧
      ∀ o ∈ os.filter Operand.isRelative, modRm?.bind ModRm.memory = some o := by
  induction ts generalizing os c d with
  | nil =>
      cases h
      exact ⟨Nat.le_refl _, fun o ho => nomatch ho⟩
  | cons t rest ih =>
      rw [List.any_cons, Bool.or_eq_false_iff] at hbranch
      rw [List.mapM_cons] at h
      obtain ⟨o, e, ho, h⟩ := run_bind_ok h
      obtain ⟨others, e', hothers, h⟩ := run_bind_ok h
      cases h
      obtain ⟨hlen, hmem⟩ := ih hothers hbranch.2
      cases hrelative : o.isRelative with
      | false =>
          rw [List.filter_cons_of_neg (by simp [hrelative])]
          exact ⟨by rw [List.countP_cons]; omega, hmem⟩
      | true =>
          obtain ⟨hnames, hmemory⟩ := operand_relative ho hrelative hbranch.1
          rw [List.filter_cons_of_pos hrelative, List.countP_cons_of_pos hnames]
          exact ⟨Nat.succ_le_succ hlen, List.forall_mem_cons.mpr ⟨hmemory, hmem⟩⟩

end ByteReader

end Decode

end BinTrace
