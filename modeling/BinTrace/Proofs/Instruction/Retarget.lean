import BinTrace.Encode
import Mathlib.Data.List.Basic

/-!
Changing what an instruction refers to changes nothing else of it: the new relative operand refers
to the target, and what the instruction does and how many bytes it has stay as they were.
-/

namespace BinTrace.Instruction

/-- The second instruction does what the first one does: at most address, bytes and operands have
changed. -/
structure SameDeed (i j : Instruction) : Prop where
  opcodeClass_eq : j.opcodeClass = i.opcodeClass
  mnemonic_eq : j.mnemonic = i.mnemonic
  source_eq : j.source = i.source
  uses_eq : j.uses = i.uses
  defs_eq : j.defs = i.defs

theorem SameDeed.trans {i j k : Instruction} (hij : i.SameDeed j) (hjk : j.SameDeed k) :
    i.SameDeed k :=
  ⟨hjk.opcodeClass_eq.trans hij.opcodeClass_eq, hjk.mnemonic_eq.trans hij.mnemonic_eq,
    hjk.source_eq.trans hij.source_eq, hjk.uses_eq.trans hij.uses_eq,
    hjk.defs_eq.trans hij.defs_eq⟩

/-- The operands that refer to no address of their own. -/
def otherOperands (i : Instruction) : List Operand := i.operands.filter fun o => !o.isRelative

/-- The same instruction with another relative target: everything but its displacement is kept. -/
structure Retargeted (i j : Instruction) : Prop where
  deed : i.SameDeed j
  address_eq : j.address = i.address
  size_eq : j.size = i.size
  kinds_eq : j.operands.map Operand.kind = i.operands.map Operand.kind
  others_eq : j.otherOperands = i.otherOperands

variable {i j : Instruction} {target : Nat}

theorem find?_set_findIdx? {α : Type} {p : α → Bool} {as : List α} {n : Nat} {a b : α}
    (hn : as.findIdx? p = some n) (ha : as.find? p = some a) (hb : p b = true) :
    (as.set n b).find? p = some b := by
  induction as generalizing n with
  | nil => cases ha
  | cons c rest ih =>
      rw [List.findIdx?_cons] at hn
      by_cases hc : p c = true
      · rw [if_pos hc, Option.some.injEq] at hn
        subst hn
        simp [hb]
      · rw [if_neg hc, Option.map_eq_some_iff] at hn
        obtain ⟨m, hm, rfl⟩ := hn
        rw [List.find?_cons_of_neg hc] at ha
        rw [List.set_cons_succ, List.find?_cons_of_neg hc]
        exact ih hm ha

theorem offsetAddress_displacement (origin target : Nat) :
    offsetAddress origin (displacement origin target) = target % addressSpace := by
  have hsum : ((origin : Int) + ((target : Int) - origin).bmod addressSpace).emod addressSpace =
      ((target % addressSpace : Nat) : Int) := by
    change (_ : Int) % _ = _
    rw [Int.add_emod_eq_add_emod_left (origin : Int) Int.bmod_emod, Int.natCast_emod]
    congr 1
    omega
  rw [offsetAddress, displacement, hsum, Int.toNat_natCast]

theorem isRelative_of_relativeOperand? {o : Operand} (h : i.relativeOperand? = some o) :
    o.isRelative = true :=
  List.find?_some h

@[simp] theorem isRelative_with_value (o : Operand) (value : Int) :
    ({ o with value } : Operand).isRelative = o.isRelative := rfl

theorem relativeIndex?_isSome {o : Operand} (ho : i.relativeOperand? = some o) :
    ∃ index, i.relativeIndex? = some index := by
  rw [← Option.isSome_iff_exists, relativeIndex?, List.findIdx?_isSome]
  exact List.any_eq_true.mpr
    ⟨o, List.mem_of_find?_eq_some ho, isRelative_of_relativeOperand? ho⟩

theorem getElem?_relativeIndex? {o : Operand} {index : Nat} (hindex : i.relativeIndex? = some index)
    (ho : i.relativeOperand? = some o) : i.operands[index]? = some o := by
  rw [relativeIndex?, List.findIdx?_eq_some_iff_getElem] at hindex
  obtain ⟨hlt, hhere, hbefore⟩ := hindex
  rw [relativeOperand?, List.find?_eq_some_iff_getElem] at ho
  obtain ⟨ho, n, hn, rfl, hfirst⟩ := ho
  have heq : n = index := by
    rcases Nat.lt_trichotomy n index with hlt' | heq | hlt'
    · exact absurd ho (by simpa using hbefore n hlt')
    · exact heq
    · exact absurd hhere (by simpa using hfirst index hlt')
  subst heq
  exact List.getElem?_eq_getElem hlt

/-- The outcome of retargeting an instruction whose relative operand is `o`. -/
theorem run_setRelativeTarget {o : Operand} {n : Nat} (hn : i.relativeIndex? = some n)
    (ho : i.relativeOperand? = some o) : (setRelativeTarget target).run i =
      if fitsField o.width (displacement i.stop target) then
        .ok () { i with
          bytes := Bytes.overwrite i.bytes o.offset
            (LittleEndian.bytesOfInt o.width (displacement i.stop target))
          operands := i.operands.set n { o with value := displacement i.stop target } }
      else .error (.overflow (displacement i.stop target) o.width) i := by
  simp only [setRelativeTarget, EStateM.run_bind, EStateM.run_get, hn, ho]
  split <;> rfl

/-- Exchanging an element for one with the same image. -/
theorem map_set_eq {α β : Type} {f : α → β} {as : List α} {n : Nat} {a b : α}
    (hn : as[n]? = some a) (hf : f b = f a) : (as.set n b).map f = as.map f := by
  refine List.ext_getElem? fun m => ?_
  rw [List.getElem?_map, List.getElem?_map, List.getElem?_set]
  split
  · rename_i heq
    subst heq
    split
    · simp [hn, hf]
    · rename_i hlen
      rw [List.getElem?_eq_none (by omega)] at hn
      cases hn
  · rfl

theorem filter_set {α : Type} {p : α → Bool} {as : List α} {n : Nat} {a b : α}
    (hn : as[n]? = some a) (ha : p a = false) (hb : p b = false) :
    (as.set n b).filter p = as.filter p := by
  induction as generalizing n with
  | nil => rfl
  | cons c rest ih =>
      cases n with
      | zero =>
          cases hn
          simp [ha, hb]
      | succ n =>
          rw [List.set_cons_succ, List.filter_cons, List.filter_cons, ih hn]

theorem setRelativeTarget_ok (h : (setRelativeTarget target).run i = .ok () j) :
    i.Retargeted j ∧ j.relativeTarget? = some (target % addressSpace) := by
  cases ho : i.relativeOperand? with
  | none =>
      simp only [setRelativeTarget, EStateM.run_bind, EStateM.run_get, ho] at h
      cases hindex : i.relativeIndex? <;> rw [hindex] at h <;> cases h
  | some o =>
      obtain ⟨index, hindex⟩ := relativeIndex?_isSome ho
      rw [run_setRelativeTarget hindex ho] at h
      split at h
      · cases h
        have hrelative : o.isRelative = true := isRelative_of_relativeOperand? ho
        have hat := getElem?_relativeIndex? hindex ho
        refine ⟨⟨⟨rfl, rfl, rfl, rfl, rfl⟩, rfl, Bytes.length_overwrite .., map_set_eq hat rfl,
          filter_set hat (by simp [hrelative]) (by simp [hrelative])⟩, ?_⟩
        have hfind := find?_set_findIdx? hindex ho
          (b := { o with value := displacement i.stop target }) hrelative
        rw [relativeTarget?, relativeOperand?, hfind, Option.map_some,
          ← offsetAddress_displacement i.stop target, stop, size, Bytes.length_overwrite]
        rfl
      · cases h

theorem relativeTarget?_lt {a : Nat} (h : i.relativeTarget? = some a) : a < addressSpace := by
  obtain ⟨o, -, rfl⟩ := Option.map_eq_some_iff.mp h
  have hpos : (0 : Int) < addressSpace := by decide
  have := Int.emod_lt_of_pos (i.stop + o.value) hpos
  have := Int.emod_nonneg (i.stop + o.value) (b := addressSpace) (by decide)
  rw [offsetAddress]
  change ((_ : Int) % _).toNat < _
  omega

theorem relativeTarget?_eq_none : i.relativeTarget? = none ↔ i.relativeOperand? = none :=
  Option.map_eq_none_iff

/-- Widening keeps what the instruction does, and all of an instruction that refers to nothing. -/
theorem widenTarget_ok (h : widenTarget.run i = .ok () j) :
    i.SameDeed j ∧ j.address = i.address ∧ j.operands.map Operand.kind = i.operands.map Operand.kind ∧
      j.otherOperands = i.otherOperands ∧ (i.relativeTarget? = none → j = i) := by
  cases ho : i.relativeOperand? with
  | none =>
      have hsame : j = i := by
        simp only [widenTarget, EStateM.run_bind, EStateM.run_get, ho] at h
        cases hindex : i.relativeIndex? <;> rw [hindex] at h <;> cases h <;> rfl
      subst hsame
      exact ⟨⟨rfl, rfl, rfl, rfl, rfl⟩, rfl, rfl, rfl, fun _ => rfl⟩
  | some o =>
      obtain ⟨index, hindex⟩ := relativeIndex?_isSome ho
      have htarget : i.relativeTarget? ≠ none := by simp [relativeTarget?, ho]
      have hat := getElem?_relativeIndex? hindex ho
      have hrelative : o.isRelative = true := isRelative_of_relativeOperand? ho
      simp only [widenTarget, EStateM.run_bind, EStateM.run_get, hindex, ho] at h
      split at h
      · cases h
        exact ⟨⟨rfl, rfl, rfl, rfl, rfl⟩, rfl, rfl, rfl, fun _ => rfl⟩
      · rename_i hshort
        have hkind : o.kind = .relative := by
          by_contra hne
          exact hshort (.inr hne)
        split at h
        · rename_i opcode hopcode
          obtain ⟨hretargeted, -⟩ := setRelativeTarget_ok h
          refine ⟨⟨hretargeted.deed.opcodeClass_eq, hretargeted.deed.mnemonic_eq,
            hretargeted.deed.source_eq, hretargeted.deed.uses_eq, hretargeted.deed.defs_eq⟩,
            hretargeted.address_eq, ?_, ?_, fun hnone => absurd hnone htarget⟩
          · exact hretargeted.kinds_eq.trans (map_set_eq hat hkind.symm)
          · exact hretargeted.others_eq.trans (filter_set hat (by simp [hrelative]) rfl)
        · cases h

/-- Widening keeps the target, and instructions that are no short branches. -/
theorem relativeTarget?_widenTarget (h : widenTarget.run i = .ok () j) :
    j.relativeTarget? = i.relativeTarget? ∧ (j = i ∨ i.targetWidth < 4 ∧ 0 < j.size) := by
  cases ho : i.relativeOperand? with
  | none =>
      obtain rfl := (widenTarget_ok h).2.2.2.2 (relativeTarget?_eq_none.mpr ho)
      exact ⟨rfl, .inl rfl⟩
  | some o =>
      obtain ⟨index, hindex⟩ := relativeIndex?_isSome ho
      have hold : i.relativeTarget? = some (offsetAddress i.stop o.value) := by
        rw [relativeTarget?, ho, Option.map_some]
      simp only [widenTarget, EStateM.run_bind, EStateM.run_get, hindex, ho] at h
      split at h
      · cases h
        exact ⟨rfl, .inl rfl⟩
      · rename_i hshort
        split at h
        · obtain ⟨hsame, htarget⟩ := setRelativeTarget_ok h
          refine ⟨?_, .inr ⟨?_, ?_⟩⟩
          · rw [htarget, hold, Nat.mod_eq_of_lt (relativeTarget?_lt hold)]
          · rw [targetWidth, ho, Option.map_some, Option.getD_some]
            omega
          · rw [hsame.size_eq, size, List.length_append, List.length_replicate]
            omega
        · cases h

end BinTrace.Instruction

namespace BinTrace.Encode

theorem edited_eq_ok {change : Instruction.Edit Unit} {i j : Instruction} :
    edited change i = .ok j ↔ change.run i = .ok () j := by
  unfold edited
  cases change.run i with
  | ok u k => simp
  | error e k => simp

/-- A near jump holds the distance to its target. -/
theorem jumpNear_ok {place target : Nat} {i : Instruction} (h : jumpNear place target = .ok i) :
    ∃ v, LittleEndian.FitsSigned 4 v ∧
      Instruction.offsetAddress (place + jumpSize) v = target % addressSpace ∧
      i = { generated (0xe9 :: LittleEndian.bytesOfInt 4 v) .uncondBranch "jmp"
        [Operand.relative v 1 4] with address := place } := by
  have hrun := edited_eq_ok.mp h
  rw [Instruction.run_setRelativeTarget (o := Operand.relative 0 1 4) (n := 0) rfl rfl] at hrun
  split at hrun
  · rename_i hfits
    cases hrun
    refine ⟨_, ?_, Instruction.offsetAddress_displacement .., rfl⟩
    have hfield : Instruction.fitsField 4
      (Instruction.displacement (place + jumpSize) target) = true := hfits
    simpa [Instruction.fitsField] using hfield
  · cases hrun

end BinTrace.Encode
