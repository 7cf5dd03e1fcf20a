import BinTrace.Proofs.Decode.Forms
import BinTrace.Proofs.Patch.Link
import BinTrace.Proofs.Patch.Writing

/-!
The bytes that a detour puts into the text: the decoder reads them as a jump to the trampoline and
no-ops up to the end of the displaced instructions.
-/

namespace BinTrace

open Outcome

/-- In a buffer at `base` the range of a detour reads as a jump to `target`, and no-ops behind it. -/
structure Detour.IsWritten (d : Detour) (w : Width) (base : Nat) (text : List UInt8)
    (target : Nat) : Prop where
  reads : ∃ jump nops, decode w (text.drop (d.site - base)) d.site = .ok jump ∧
    jump.address = d.site ∧ jump.JumpsTo target ∧ Contiguous jump.stop nops ∧
    jump.size + totalSize nops = d.range.size ∧
    ∀ i ∈ nops, i.isNop = true ∧ decode w (text.drop (i.address - base)) i.address = .ok i

namespace Encode

/-- Filling up takes no-ops of sizes that the encoder has. -/
theorem mem_nops {size : Nat} {i : Instruction} (h : i ∈ nops size) :
    ∃ n, 1 ≤ n ∧ n ≤ maxNop ∧ i = nopOfSize n := by
  rcases List.mem_append.mp h with h | h
  · exact ⟨maxNop, by decide, Nat.le_refl _, List.eq_of_mem_replicate h⟩
  · split at h
    · cases h
    · rename_i hne
      have hlt : size % maxNop < maxNop := Nat.mod_lt _ (by decide)
      exact ⟨size % maxNop, by omega, by omega, List.mem_singleton.mp h⟩

theorem size_nopOfSize {n : Nat} (hpos : 1 ≤ n) (hle : n ≤ maxNop) : (nopOfSize n).size = n := by
  have hall : ∀ n ≤ maxNop, 1 ≤ n → (nopOfSize n).size = n := by decide
  exact hall n hle hpos

theorem totalSize_replicate (n : Nat) (i : Instruction) :
    totalSize (List.replicate n i) = n * i.size := by
  induction n with
  | zero => simp
  | succ n ih =>
      rw [List.replicate_succ, totalSize_cons, ih, Nat.succ_mul, Nat.add_comm]

theorem totalSize_nops (size : Nat) : totalSize (nops size) = size := by
  have hfull : totalSize (List.replicate (size / maxNop) (nopOfSize maxNop)) =
      maxNop * (size / maxNop) := by
    rw [totalSize_replicate, size_nopOfSize (by decide) (Nat.le_refl _), Nat.mul_comm]
  have hdiv := Nat.div_add_mod size maxNop
  rw [nops, totalSize_append, hfull]
  split
  · rw [totalSize_nil]
    omega
  · rename_i hne
    have hlt : size % maxNop < maxNop := Nat.mod_lt _ (by decide)
    rw [totalSize_cons, totalSize_nil, size_nopOfSize (by omega) (by omega)]
    omega

end Encode

open Decode in
/-- No-ops one behind the other are read one after the other, whatever follows them. -/
theorem decode_nops (w : Width) {is : List Instruction}
    (his : ∀ i ∈ is, ∃ n, 1 ≤ n ∧ n ≤ Encode.maxNop ∧ i = Encode.nopOfSize n)
    (rest : List UInt8) (a : Nat) :
    ∃ nops, Contiguous a nops ∧ totalSize nops = totalSize is ∧
      ∀ j ∈ nops, j.isNop = true ∧
        decode w ((bytesOfAll is ++ rest).drop (j.address - a)) j.address = .ok j := by
  induction is generalizing a with
  | nil => exact ⟨[], trivial, rfl, by simp⟩
  | cons i is ih =>
      obtain ⟨⟨n, hpos, hle, rfl⟩, hrest⟩ := List.forall_mem_cons.mp his
      obtain ⟨j, hj, haddress, hbytes, hnop, hform⟩ :=
        startsNop_nopOfSize w hpos hle (bytesOfAll is ++ rest) a
      have hsize : j.size = n := by rw [Instruction.size, hbytes, hform]
      have hlength : (Encode.nopOfSize n).bytes.length = n := hform
      obtain ⟨nops, hcontiguous, htotal, hall⟩ := ih hrest (a + n)
      have hstop : j.stop = a + n := by rw [Instruction.stop, haddress, hsize]
      refine ⟨j :: nops, ⟨haddress, hstop ▸ hcontiguous⟩, ?_, List.forall_mem_cons.mpr ⟨⟨hnop, ?_⟩,
        fun k hk => ⟨(hall k hk).1, ?_⟩⟩⟩
      · rw [totalSize_cons, totalSize_cons, htotal, hsize, Instruction.size, hlength]
      · rw [haddress, Nat.sub_self, List.drop_zero, bytesOfAll_cons, List.append_assoc]
        exact hj
      · have hbehind := hcontiguous.address_le k hk
        have hoffset : k.address - a = n + (k.address - (a + n)) := by omega
        rw [bytesOfAll_cons, List.append_assoc, hoffset, ← List.drop_drop, List.drop_left' hlength]
        exact (hall k hk).2

namespace PatchSet

variable {d : Detour} {patch : List Instruction}

/-- What is written at a site is a near jump and no-ops. -/
theorem sitePatch_ok (h : sitePatch d = .ok patch) : ∃ a jump, d.trampoline.address = some a ∧
    Encode.jumpNear d.site a = .ok jump ∧
    bytesOfAll patch = jump.bytes ++ bytesOfAll (Encode.nops (d.range.size - Encode.jumpSize)) := by
  obtain ⟨jump, hjump, h⟩ := bind_eq_ok.mp h
  cases h
  unfold siteJump at hjump
  split at hjump
  · rename_i a ha
    refine ⟨a, jump, ha, mapError_eq_ok.mp hjump, ?_⟩
    rw [bytesOfAll_layOutFrom, bytesOfAll_cons]
  · cases hjump

/-- The patch is as long as what it is put in the place of. -/
theorem length_sitePatch (h : sitePatch d = .ok patch) (hroom : Encode.jumpSize ≤ d.range.size) :
    (bytesOfAll patch).length = d.range.size := by
  obtain ⟨a, jump, -, hjump, hbytes⟩ := sitePatch_ok h
  obtain ⟨v, -, -, rfl⟩ := Encode.jumpNear_ok hjump
  have hsize : (0xe9 :: LittleEndian.bytesOfInt 4 v).length = Encode.jumpSize := rfl
  rw [hbytes, List.length_append, length_bytesOfAll, Encode.totalSize_nops]
  change (0xe9 :: LittleEndian.bytesOfInt 4 v).length + _ = _
  omega

end PatchSet

/-- The near jump that the encoder makes is one for the decoder too. -/
theorem decode_jumpNear (w : Width) {place target : Nat} {i : Instruction}
    (h : Encode.jumpNear place target = .ok i) (rest : List UInt8) :
    ∃ j, decode w (i.bytes ++ rest) place = .ok j ∧ j.address = place ∧
      j.JumpsTo (target % addressSpace) := by
  obtain ⟨v, hfits, htarget, rfl⟩ := Encode.jumpNear_ok h
  obtain ⟨b₀, b₁, b₂, b₃, hbytes⟩ : ∃ b₀ b₁ b₂ b₃, LittleEndian.bytesOfInt 4 v = [b₀, b₁, b₂, b₃] :=
    ⟨_, _, _, _, rfl⟩
  obtain ⟨j, hj, haddress, hform, hclass, hname, hoperands⟩ :=
    Decode.decode_jump w b₀ b₁ b₂ b₃ rest place
  have hsize : j.size = Encode.jumpSize := by rw [Instruction.size, hform]; rfl
  refine ⟨j, by simpa [Encode.generated, hbytes] using hj, haddress, hclass, hname, hsize, ?_⟩
  rw [controlTarget?_eq hclass (by rw [hoperands]; rfl), ← htarget,
    ← LittleEndian.signedValue_bytesOfInt (by decide) hfits, hbytes]
  simp [Instruction.relativeTarget?, Instruction.relativeOperand?, hoperands, Operand.isRelative,
    Operand.relative, Instruction.stop, haddress, hsize]

/-- A text that has the patch at the site of a detour is patched there. -/
theorem Detour.isWritten_of_drop_eq {d : Detour} {patch : List Instruction} {base : Nat}
    {text rest : List UInt8} (w : Width) (hpatch : PatchSet.sitePatch d = .ok patch)
    (hroom : Encode.jumpSize ≤ d.range.size) (hbase : base ≤ d.site)
    (htext : text.drop (d.site - base) = bytesOfAll patch ++ rest) :
    ∃ a, d.trampoline.address = some a ∧ d.IsWritten w base text (a % addressSpace) := by
  obtain ⟨a, jump, ha, hjump, hbytes⟩ := PatchSet.sitePatch_ok hpatch
  rw [hbytes, List.append_assoc] at htext
  obtain ⟨j, hj, haddress, hjumps⟩ := decode_jumpNear w hjump
    (bytesOfAll (Encode.nops (d.range.size - Encode.jumpSize)) ++ rest)
  have hlength : jump.bytes.length = Encode.jumpSize := by
    obtain ⟨v, -, -, rfl⟩ := Encode.jumpNear_ok hjump
    rfl
  obtain ⟨nops, hcontiguous, htotal, hall⟩ := decode_nops w
    (fun i (hi : i ∈ Encode.nops (d.range.size - Encode.jumpSize)) => Encode.mem_nops hi) rest j.stop
  rw [Encode.totalSize_nops] at htotal
  have hstop : j.stop = d.site + Encode.jumpSize := by
    rw [Instruction.stop, haddress, hjumps.size_eq]
  refine ⟨a, ha, ⟨j, nops, htext ▸ hj, haddress, hjumps, hcontiguous, ?_, fun i hi => ?_⟩⟩
  · rw [htotal, hjumps.size_eq]
    omega
  · obtain ⟨hnop, hdecode⟩ := hall i hi
    refine ⟨hnop, ?_⟩
    have hbehind := hcontiguous.address_le i hi
    have hoffset : i.address - base = d.site - base + (Encode.jumpSize + (i.address - j.stop)) := by
      omega
    rw [hoffset, ← List.drop_drop, htext, ← List.drop_drop, List.drop_left' hlength]
    exact hdecode

end BinTrace
