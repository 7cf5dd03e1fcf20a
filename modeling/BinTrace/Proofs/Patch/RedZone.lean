import BinTrace.Proofs.Patch.Preservation
import BinTrace.Proofs.Patch.Rewrite

/-!
What trampolines do to the stack of the code that they interrupt. In 64-bit code that may be using
bytes below the stack pointer, and in 32-bit code a point can forbid that anything is pushed.
-/

namespace BinTrace

open Outcome

variable {w : Width}

/-- The instruction puts something on the stack. -/
def Instruction.Pushes (i : Instruction) : Prop :=
  i.isCall = true ∨ i.mnemonic ∈ ["push", "pushf", "pusha", "enter"]

/-- The first instruction moves the stack pointer below the red zone and does nothing else. -/
def Trampoline.SkipsRedZone (w : Width) (t : Trampoline) : Prop :=
  ∃ first rest, t.instructions = first :: rest ∧
    ∀ m : Machine w, m.step first = some (m.setGpr .sp (m.gpr .sp - 128))

/-- The trampoline of the point may push. -/
def PatchPoint.MayPush (p : PatchPoint) (w : Width) (t : Trampoline) : Prop :=
  match w with
  | .bits64 => t.SkipsRedZone .bits64
  | .bits32 => p.hasUnsafeStack = false

namespace InsertedCode

/-- The instructions of the code if its body is a snippet. -/
def around (c : InsertedCode) (snippet : List Instruction) : List Instruction :=
  c.precursors ++ snippet ++ c.postcursors

theorem instructions_of_emit {c : InsertedCode} {is : List Instruction} {es : List Emission}
    (hbody : c.body = .snippet is) (h : c.emit w = .ok es) :
    es.map Emission.instruction = c.around is := by
  obtain ⟨body, hemit, h⟩ := bind_eq_ok.mp h
  rw [hbody] at hemit
  cases hemit
  cases h
  simp [around, Emission.anchored, Function.comp_def]

end InsertedCode

namespace Protection

variable {p : Protection} {is : List Instruction}

/-- Code that steps over the red zone does so at once. -/
theorem enter_of_skipRedZone (hskip : p.skipRedZone = true) (h : p.enter w = .ok is) :
    ∃ first rest, is = first :: rest ∧ Encode.adjustStack w (-redZone) = .ok first := by
  obtain ⟨skip, hmove, h⟩ := bind_eq_ok.mp h
  obtain ⟨saves, -, h⟩ := bind_eq_ok.mp h
  obtain ⟨flags, -, h⟩ := bind_eq_ok.mp h
  cases h
  rw [moveStack, if_pos hskip] at hmove
  obtain ⟨first, hfirst, rfl⟩ := map_eq_ok.mp hmove
  exact ⟨first, saves ++ flags, rfl, hfirst⟩

/-- A protection that has nothing to preserve adds no code. -/
theorem enter_leave_eq_nil (huse : p.usesStack = false) (hskip : p.skipRedZone = false) :
    p.enter w = .ok [] ∧ p.leave w = .ok [] := by
  simp only [usesStack, Bool.or_eq_false_iff, Bool.not_eq_false', List.isEmpty_iff,
    decide_eq_false_iff_not, not_not] at huse
  obtain ⟨hsaves, hflags⟩ := huse
  rw [enter, leave, moveStack, moveStack, hsaves, hflags, hskip]
  exact ⟨rfl, rfl⟩

theorem skipRedZone_covering (live atRisk : RegSet) :
    (covering live atRisk).skipRedZone = false := by
  unfold covering
  dsimp only
  split <;> rfl

end Protection

namespace PatchPoint

variable {f : Function} {l : Liveness} {p analyzed generated : PatchPoint}

/-- The red zone is stepped over in 64-bit code whenever there is something to preserve or to be
called, and in 32-bit code the point must allow that. -/
theorem skipRedZone_of_protectionFor {live : RegSet} {protection : Protection}
    (h : p.protectionFor w live = .ok protection) :
    protection.skipRedZone = (w.is64 && (protection.usesStack || p.code.body.isCall)) ∧
      ((protection.usesStack || p.code.body.isCall) = true → w = .bits32 →
        p.hasUnsafeStack = false) := by
  have hcovering := Protection.skipRedZone_covering live (p.atRisk w live)
  unfold protectionFor at h
  dsimp only at h
  split at h
  · rename_i huse
    split at h
    · cases h
      exact ⟨huse.symm, by simp⟩
    · split at h
      · cases h
      · rename_i hsafe
        cases h
        exact ⟨hcovering, fun _ _ => Bool.eq_false_iff.mpr hsafe⟩
  · rename_i huse
    cases h
    rw [Bool.not_eq_true] at huse
    rw [huse, hcovering]
    simp

theorem skipsRedZone_of_enter {protection : Protection} {enter rest : List Instruction}
    {t : Trampoline} (hskip : protection.skipRedZone = true)
    (henter : protection.enter w = .ok enter) (ht : t.instructions = enter ++ rest) :
    t.SkipsRedZone w := by
  obtain ⟨first, others, rfl, hfirst⟩ := Protection.enter_of_skipRedZone hskip henter
  refine ⟨first, others ++ rest, ht, fun m => ?_⟩
  have hzone : BitVec.ofInt (8 * w.wordSize) (-Protection.redZone) = -128 := by
    cases w <;> rfl
  rw [Machine.step_adjustStack hfirst, hzone, BitVec.sub_eq_add_neg]

/-- If an instruction in front of the displaced ones pushes, then the trampoline may push, unless
nothing is preserved there and the instruction is from a snippet or the code around it. -/
theorem mayPush_of_pushes (ha : (analyze w f l).run p = .ok () analyzed)
    (hg : (generate w f).run analyzed = .ok () generated) :
    ∃ d enter inserted leave tail, generated.progress = .generated d ∧
      d.protection.enter w = .ok enter ∧ p.code.emit w = .ok inserted ∧
      d.protection.leave w = .ok leave ∧
      Trampoline.tail (relocated p.location d.displaced)
        (resume? d.site d.displaced (relocated p.location d.displaced)) = .ok tail ∧
      d.trampoline.instructions = enter ++ inserted.map Emission.instruction ++ leave ++
        tail.map Emission.instruction ∧
      ∀ i ∈ enter ++ inserted.map Emission.instruction ++ leave, i.Pushes →
        p.MayPush w d.trampoline ∨
          (d.protection.usesStack = false ∧
            ∃ is, p.code.body = .snippet is ∧ i ∈ p.code.around is) := by
  obtain ⟨d, enter, inserted, leave, tail, hd, hprotection, henter, hinserted, hleave, htail, ht⟩ :=
    exists_parts ha hg
  refine ⟨d, enter, inserted, leave, tail, hd, henter, hinserted, hleave, htail, ht,
    fun i hi _ => ?_⟩
  obtain ⟨hskip, hsafe⟩ := skipRedZone_of_protectionFor hprotection
  cases huse : d.protection.usesStack || p.code.body.isCall with
  | true =>
      left
      cases w with
      | bits64 =>
          have hskip' : d.protection.skipRedZone = true := by rw [hskip, huse]; rfl
          rw [List.append_assoc, List.append_assoc] at ht
          exact skipsRedZone_of_enter hskip' henter ht
      | bits32 => exact hsafe huse rfl
  | false =>
      right
      rw [huse, Bool.and_false] at hskip
      obtain ⟨hstack, hcall⟩ := Bool.or_eq_false_iff.mp huse
      obtain ⟨henter', hleave'⟩ := Protection.enter_leave_eq_nil (w := w) hstack hskip
      cases henter.symm.trans henter'
      cases hleave.symm.trans hleave'
      cases hbody : p.code.body with
      | call target =>
          rw [hbody] at hcall
          cases hcall
      | snippet is =>
          rw [List.nil_append, List.append_nil, InsertedCode.instructions_of_emit hbody hinserted]
            at hi
          exact ⟨hstack, is, rfl, hi⟩

/-- A call in front of a load starts behind the red zone. -/
theorem mayPush_callAtLoad : ∃ analyzed generated,
    (analyze .bits64 constantFunction ⟨[], 0⟩).run callAtLoad = .ok () analyzed ∧
      (generate .bits64 constantFunction).run analyzed = .ok () generated ∧
      ∃ d, generated.progress = .generated d ∧ callAtLoad.MayPush .bits64 d.trampoline := by
  refine ⟨_, _, rfl, rfl, ?_⟩
  obtain ⟨d, enter, inserted, leave, tail, hd, -, hinserted, -, -, -, hpush⟩ :=
    mayPush_of_pushes (p := callAtLoad) (w := .bits64) (f := constantFunction) (l := ⟨[], 0⟩) rfl
      rfl
  obtain ⟨call, hcall, hisCall⟩ : ∃ call, callAtLoad.code.emit .bits64 = .ok [call] ∧
      call.instruction.isCall = true := ⟨_, rfl, rfl⟩
  cases hcall.symm.trans hinserted
  rcases hpush call.instruction (by simp) (.inl hisCall) with hmay | ⟨-, is, hbody, -⟩
  · exact ⟨d, hd, hmay⟩
  · cases hbody

end PatchPoint

/-! A snippet that pushes and drops a register, in front of a jump. -/

namespace PushingSnippet

def push : Instruction :=
  Encode.generated [0x50] .int "push" [Encode.wordOperand .bits64 .ax] (RegSet.ofGprs [.ax, .sp])
    (RegSet.ofGprs [.sp])

/-- Moves the stack pointer up by one slot. -/
def drop : Instruction :=
  Encode.generated [0x48, 0x8d, 0x64, 0x24, 0x08] .int "lea"
    [Encode.wordOperand .bits64 .sp,
      Operand.memory { base := some (Encode.wordRegister .bits64 .sp) } 8 4 1]
    (RegSet.ofGprs [.sp]) (RegSet.ofGprs [.sp])

def point : PatchPoint :=
  { address := 0x1000, location := .before, code := { body := .snippet [push, drop] } }

def detour : Detour :=
  ⟨0x1000, [JumpOut.jump], LoneJump.protection,
    .ofEmissions [.free push, .free drop, .anchored JumpOut.jump]⟩

theorem protectionFor_point :
    point.protectionFor .bits64 (LoneJump.liveness.liveAt 0x1000 .before) =
      .ok LoneJump.protection := by
  cbv

theorem not_skipsRedZone : ¬ detour.trampoline.SkipsRedZone .bits64 := by
  rintro ⟨first, rest, hsplit, hstep⟩
  obtain rfl : push = first := (List.cons.inj hsplit).1
  let m : Machine .bits64 := ⟨fun _ => 0, fun _ => false, fun _ => 0⟩
  have hpush : m.step push = some (m.push 0) := Machine.step_push (r := .ax) rfl m
  -- A push lowers the stack pointer by a slot only.
  have hsp := congrArg (Machine.gpr · .sp) (Option.some.inj (hpush.symm.trans (hstep m)))
  rw [Machine.gpr_push_sp, Machine.gpr_setGpr_self] at hsp
  exact absurd hsp (by decide)

/-- The trampoline of the snippet pushes where the code that it interrupts may have its data. -/
theorem exists_push_in_redZone : ∃ analyzed generated d ahead,
    Encode.push .bits64 .ax = .ok push ∧ Encode.adjustStack .bits64 8 = .ok drop ∧
    JumpOut.function.Digested ∧
    (PatchPoint.analyze .bits64 JumpOut.function LoneJump.liveness).run point = .ok () analyzed ∧
    (PatchPoint.generate .bits64 JumpOut.function).run analyzed = .ok () generated ∧
    generated.progress = .generated d ∧
    d.trampoline.instructions = ahead ++ [JumpOut.jump] ∧
    (∃ i ∈ ahead, i.Pushes) ∧ ¬ point.MayPush .bits64 d.trampoline := by
  obtain ⟨g, b, h⟩ := JumpOut.function_spec
  refine ⟨_, _, detour, [push, drop], rfl, rfl, h.digested,
    h.run_analyze rfl rfl rfl protectionFor_point, h.run_generate rfl rfl rfl, rfl, rfl,
    ⟨push, List.mem_cons_self, .inr (by decide)⟩, not_skipsRedZone⟩

end PushingSnippet

end BinTrace
