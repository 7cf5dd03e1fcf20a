import BinTrace.Proofs.Decode.Aim
import BinTrace.Proofs.Instruction.Retarget
import Mathlib

/-!
Retargeting and decoding agree. An instruction that was decoded and is made to refer to another
address is what the decoder reads from its new bytes, and it can be made to refer to every address
whose distance fits into the field.
-/

namespace BinTrace

open LittleEndian (signedValue bytesOfInt FitsSigned)
open Decode (Meaning maxSize)

variable {w : Width} {bytes : List UInt8} {a : Nat} {i j : Instruction} {o : Operand}

/-- A decoded instruction with a relative operand, and what is decoded if other bytes stand in the
operand's field. -/
theorem decode_aim (h : decode w bytes a = .ok i) (ho : i.relativeOperand? = some o) :
    ∃ front field back, i.bytes = front ++ (field ++ back) ∧ o.offset = front.length ∧
      o.width = field.length ∧ o.width ∈ [1, 2, 4] ∧
      i.operands.filter Operand.isRelative = [o] ∧
      ∀ other, other.length = field.length → decode w (front ++ (other ++ back)) a = .ok
        { i with bytes := front ++ (other ++ back)
                 operands := i.operands.map (Operand.aim (signedValue other)) } := by
  obtain ⟨m, e, hrun, rfl⟩ := Decode.run_of_decode h
  obtain ⟨front, field, back, -, hat⟩ := Decode.ByteReader.aims_instruction w hrun o
    (List.mem_of_find?_eq_some ho) (Instruction.isRelative_of_relativeOperand? ho)
  have hunread : bytes.take maxSize = front ++ (field ++ back) ++ e.unread := by
    simpa only [List.append_assoc] using hat.unread_eq
  have hposition : e.position = (front ++ (field ++ back)).length := by
    simpa only [List.length_append, Nat.zero_add] using hat.position_eq hrun
  have hsize : (front ++ (field ++ back)).length ≤ maxSize := by
    have hlength := congrArg List.length hunread
    rw [List.length_take, List.length_append] at hlength
    omega
  refine ⟨front, field, back, ?_, ?_, hat.width_eq, hat.width_mem, hat.alone, ?_⟩
  · have htaken := congrArg (List.take e.position) hunread
    rwa [List.take_take, Nat.min_eq_left (hposition ▸ hsize), hposition, List.take_left,
      ← hposition] at htaken
  · simpa only [Nat.zero_add] using hat.offset_eq
  · intro other hother
    have hend : front.length + (field.length + back.length) =
        (front ++ (other ++ back)).length := by
      simp only [List.length_append, hother]
    have hfits : (front ++ (other ++ back)).take maxSize = front ++ (other ++ back) := by
      refine List.take_of_length_le ?_
      simpa only [← hend, List.length_append] using hsize
    have hagain := hat.run_eq other [] hother
    rw [List.append_nil, ← hfits, Nat.zero_add, hend] at hagain
    rw [Decode.decode_of_run a hagain, List.take_length]
    rfl

theorem LittleEndian.length_bytesOfInt (width : Nat) (n : Int) :
    (bytesOfInt width n).length = width := length_bytesOf ..

theorem overwrite_append (front field back : List UInt8) {other : List UInt8}
    (h : other.length = field.length) :
    Bytes.overwrite (front ++ (field ++ back)) front.length other = front ++ (other ++ back) := by
  rw [Bytes.overwrite_eq (by simp only [List.length_append]; omega), List.take_left, h,
    List.append_assoc, ← List.drop_drop, List.drop_left, List.drop_left]

/-- Changing the only relative operand. -/
theorem set_eq_map_aim {os : List Operand} {n : Nat} {v : Int}
    (halone : os.filter Operand.isRelative = [o]) (hn : os[n]? = some o) :
    os.set n { o with value := v } = os.map (Operand.aim v) := by
  have hrelative : o.isRelative = true :=
    (List.mem_filter.mp (halone ▸ List.mem_singleton_self o)).2
  induction os generalizing n with
  | nil => cases hn
  | cons c rest ih =>
      cases hc : c.isRelative with
      | false =>
          rw [List.filter_cons_of_neg (by simp [hc])] at halone
          cases n with
          | zero =>
              cases hn
              rw [hc] at hrelative
              cases hrelative
          | succ n => rw [List.set_cons_succ, List.map_cons, Operand.aim_of_not hc, ih halone hn]
      | true =>
          rw [List.filter_cons_of_pos hc] at halone
          obtain ⟨rfl, hnone⟩ := List.cons.inj halone
          have hrest : rest.map (Operand.aim v) = rest :=
            (List.map_congr_left fun b hb => Operand.aim_of_not
              (by simpa using List.filter_eq_nil_iff.mp hnone b hb)).trans (List.map_id rest)
          cases n with
          | zero => rw [List.set_cons_zero, List.map_cons, Operand.aim_of_isRelative hc, hrest]
          | succ n =>
              rw [List.getElem?_cons_succ] at hn
              have hmem := List.mem_filter.mpr ⟨List.mem_of_getElem? hn, hc⟩
              rw [hnone] at hmem
              cases hmem

theorem fitsField_iff {width : Nat} {v : Int} (h : width ∈ [1, 2, 4]) :
    Instruction.fitsField width v = true ↔ FitsSigned width v := by
  simp [Instruction.fitsField, h]

open Instruction (displacement setRelativeTarget) in
/-- A decoded instruction can be made to refer to an address exactly if the distance from its end
fits into the field of its relative operand. Then the new bytes are decoded to the new instruction,
which takes all of them and refers to the address; otherwise the instruction stays as it was. -/
theorem decode_setRelativeTarget (h : decode w bytes a = .ok i)
    (ho : i.relativeOperand? = some o) {t : Nat} (ht : t < addressSpace) :
    ((∃ j, (setRelativeTarget t).run i = .ok () j) ↔
      FitsSigned o.width (displacement i.stop t)) ∧
    (∀ j, (setRelativeTarget t).run i = .ok () j →
      decode w j.bytes a = .ok j ∧ j.relativeTarget? = some t) ∧
    ∀ e j, (setRelativeTarget t).run i = .error e j → j = i := by
  obtain ⟨n, hn⟩ := Instruction.relativeIndex?_isSome ho
  obtain ⟨front, field, back, hbytes, hoffset, hwidth, hmem, halone, haim⟩ := decode_aim h ho
  have hrun : (setRelativeTarget t).run i = _ := Instruction.run_setRelativeTarget hn ho
  refine ⟨?_, fun j hj => ?_, fun e j hj => ?_⟩
  · rw [hrun, ← fitsField_iff hmem]
    split
    · exact iff_of_true ⟨_, rfl⟩ ‹_›
    · exact iff_of_false (fun ⟨j, hj⟩ => nomatch hj) ‹_›
  · have hrefers := (Instruction.setRelativeTarget_ok hj).2
    rw [Nat.mod_eq_of_lt ht] at hrefers
    refine ⟨?_, hrefers⟩
    rw [hrun] at hj
    split at hj
    · rename_i hfits
      cases hj
      have hlen : (bytesOfInt o.width (displacement i.stop t)).length = field.length := by
        rw [LittleEndian.length_bytesOfInt, hwidth]
      have hpos : 0 < o.width := by
        simp only [List.mem_cons, List.not_mem_nil, or_false] at hmem
        omega
      have hdecode := haim _ hlen
      rw [LittleEndian.signedValue_bytesOfInt hpos ((fitsField_iff hmem).mp hfits)] at hdecode
      rw [set_eq_map_aim halone (Instruction.getElem?_relativeIndex? hn ho), hoffset, hbytes,
        overwrite_append front field back hlen]
      exact hdecode
    · cases hj
  · rw [hrun] at hj
    split at hj <;> cases hj
    rfl

/-- A comparison of memory behind the instruction with an immediate, which follows the field of the
displacement. -/
def comparison : Instruction :=
  { address := 0x401000
    bytes := [0x81, 0x3d, 0x10, 0, 0, 0, 0x78, 0x56, 0x34, 0x12]
    opcodeClass := .int
    mnemonic := "cmp"
    operands := [Operand.memory { relativeToEnd := true } 0x10 2 4,
      Operand.immediate 0x12345678 6 4]
    defs := RegSet.statusFlags }

set_option maxRecDepth 4096 in
theorem decode_comparison : decode .bits64 comparison.bytes 0x401000 = .ok comparison := by cbv

open Instruction (setRelativeTarget) in
theorem decode_setRelativeTarget_comparison :
    (∃ j, (setRelativeTarget 0x402000).run comparison = .ok () j ∧
      decode .bits64 j.bytes 0x401000 = .ok j ∧ j.relativeTarget? = some 0x402000) ∧
    ¬∃ j, (setRelativeTarget 0x180000000).run comparison = .ok () j := by
  obtain ⟨hnear, hok, -⟩ := decode_setRelativeTarget (t := 0x402000) decode_comparison rfl
    (by decide)
  obtain ⟨hfar, -⟩ := decode_setRelativeTarget (t := 0x180000000) decode_comparison rfl
    (by decide)
  obtain ⟨j, hj⟩ := hnear.mpr (by decide)
  exact ⟨⟨j, hj, hok j hj⟩, fun hsome => absurd (hfar.mp hsome) (by decide)⟩

end BinTrace
