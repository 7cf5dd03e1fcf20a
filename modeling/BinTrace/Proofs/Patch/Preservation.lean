import BinTrace.Proofs.Instruction.Retarget
import BinTrace.Proofs.Patch.SaveRestore
import BinTrace.Proofs.Patch.Steps

/-!
Inserted code does not disturb the program. When the displaced instructions of a trampoline are
reached, every register and flag that is live at the point has the value that it had on entry,
whatever the inserted code has put into those that it writes. Only the overflow flag is left out,
if the point asks for that.
-/

namespace BinTrace

open Outcome

variable {w : Width}

namespace RegSet

theorem mem_gprs {s : RegSet} {r : Gpr} : r ∈ s.gprs ↔ .gpr r ∈ s := by
  rw [gprs, List.mem_filter]
  exact and_iff_right r.mem_all

theorem flag_mem_allFlags (f : Flag) : .flag f ∈ allFlags := by
  rw [allFlags, ofFlags, mem_ofList]
  exact List.mem_map_of_mem f.mem_all

theorem flag_mem_onlyFlags {s : RegSet} {f : Flag} : .flag f ∈ s.onlyFlags ↔ .flag f ∈ s := by
  rw [onlyFlags, mem_inter]
  exact and_iff_left (flag_mem_allFlags f)

theorem mem_foldl_union {is : List Instruction} {s : RegSet} {c : Cell} :
    c ∈ is.foldl (fun set i => set ∪ i.defs) s ↔ c ∈ s ∨ ∃ i ∈ is, c ∈ i.defs := by
  induction is generalizing s with
  | nil => simp
  | cons i rest ih =>
      rw [List.foldl_cons, ih, mem_union, or_assoc]
      simp

end RegSet

/-- The protection is enough for what is at risk where `live` is live. -/
structure Protection.Covers (p : Protection) (live atRisk : RegSet) : Prop where
  gprs : ∀ r ≠ .sp, .gpr r ∈ atRisk → r ∈ p.saves
  flags : ∀ f, .flag f ∈ atRisk →
    p.flags = .full ∨ (p.flags = .light ∧ .flag f ∈ RegSet.lowFlags)
  /-- The register that carries the flags is not lost. -/
  carrier : p.flags = .light → .gpr .ax ∈ live → .ax ∈ p.saves
  sp_notMem : .sp ∉ p.saves
  length_le : p.saves.length ≤ 17

namespace FlagsProtection

theorem covering_flags {s : RegSet} {f : Flag} (hf : .flag f ∈ s) :
    covering s = .full ∨ (covering s = .light ∧ .flag f ∈ RegSet.lowFlags) := by
  have hmem : .flag f ∈ s.onlyFlags := RegSet.flag_mem_onlyFlags.mpr hf
  unfold covering
  split
  · rename_i hempty
    rw [hempty] at hmem
    exact absurd hmem (RegSet.not_mem_empty _)
  · split
    · rename_i hlow
      refine .inr ⟨rfl, ?_⟩
      by_contra hnot
      have hleft : .flag f ∈ s.onlyFlags \ RegSet.lowFlags :=
        (RegSet.mem_sdiff _ _ _).mpr ⟨hmem, hnot⟩
      rw [hlow] at hleft
      exact RegSet.not_mem_empty _ hleft
    · exact .inl rfl

end FlagsProtection

namespace Protection

theorem covers_covering (live atRisk : RegSet) : (covering live atRisk).Covers live atRisk := by
  have hmem {r : Gpr} : r ∈ atRisk.gprs.filter (· ≠ .sp) ↔ .gpr r ∈ atRisk ∧ r ≠ .sp := by
    rw [List.mem_filter, RegSet.mem_gprs]
    simp
  have hlength : (atRisk.gprs.filter (· ≠ .sp)).length ≤ 16 :=
    calc (atRisk.gprs.filter (· ≠ .sp)).length ≤ atRisk.gprs.length := List.length_filter_le ..
      _ ≤ Gpr.all.length := List.length_filter_le ..
  have hflags (f : Flag) (hf : .flag f ∈ atRisk) := FlagsProtection.covering_flags hf
  unfold covering
  dsimp only
  split
  · exact ⟨fun r hr hrisk => List.mem_cons_of_mem _ (hmem.mpr ⟨hrisk, hr⟩), hflags,
      fun _ _ => List.mem_cons_self, by simp, Nat.succ_le_succ hlength⟩
  · rename_i hcarry
    refine ⟨fun r hr hrisk => hmem.mpr ⟨hrisk, hr⟩, hflags, fun hlight hlive => ?_, by simp,
      Nat.le_succ_of_le hlength⟩
    by_contra hnot
    exact hcarry ⟨hlight, hlive, hnot⟩

/-- Which bytes below the stack pointer are left alone does not matter for what is preserved. -/
theorem Covers.skipping {p : Protection} {live atRisk : RegSet} (h : p.Covers live atRisk)
    (skip : Bool) : ({ p with skipRedZone := skip } : Protection).Covers live atRisk :=
  ⟨h.gprs, h.flags, h.carrier, h.sp_notMem, h.length_le⟩

/-- Code that writes what it may write, and leaves stack pointer and saved slots as it found them,
does no harm between entering and leaving. -/
theorem run_around {p : Protection} {live atRisk : RegSet} (defs : RegSet) (hp : p.Covers live atRisk)
    {enter leave : List Instruction} (henter : p.enter w = .ok enter) (hleave : p.leave w = .ok leave)
    (entry : Machine w) :
    ∃ before, entry.run enter = some before ∧ ∀ after : Machine w,
      (∀ c ∉ defs, c ≠ .gpr .sp → before.Agrees after c) →
      after.gpr .sp = before.gpr .sp →
      Memory.SameFrom (before.gpr .sp) (Memory.slotBytes w p.slotCount) before.memory after.memory →
      ∃ final, after.run leave = some final ∧ entry.Agrees final (.gpr .sp) ∧
        ∀ c ∈ live, (c ∈ defs → c ≠ .gpr .sp → c ∈ atRisk) → entry.Agrees final c := by
  obtain ⟨before, hbefore, hstack, hflag, hsp, hgpr⟩ :=
    run_enter henter hp.sp_notMem hp.length_le entry
  refine ⟨before, hbefore, fun after hafter hbalanced hsame => ?_⟩
  have hcount : (p.flags.copies entry ++ (p.saves.map entry.gpr).reverse).length = p.slotCount := by
    have hcopies : (p.flags.copies entry).length = p.flags.slotCount := by
      cases p.flags <;> rfl
    simp [slotCount, hcopies]
  have hstack' : after.Stacked (p.flags.copies entry ++ (p.saves.map entry.gpr).reverse) := by
    rw [Machine.Stacked, hbalanced]
    exact hstack.of_sameFrom (hcount.symm ▸ hsame)
  obtain ⟨final, hfinal, hsp', hin, hout, hflags⟩ := run_leave hleave hp.sp_notMem hstack'
  have hback : final.gpr .sp = entry.gpr .sp := by rw [hsp', hbalanced, hsp]
  refine ⟨final, hfinal, hback, fun c hlive hrisk => ?_⟩
  cases c with
  | gpr r =>
      by_cases hr : r = .sp
      · subst hr
        exact hback
      by_cases hsaved : r ∈ p.saves
      · exact hin r hsaved
      -- A live register that was not saved is neither written nor does it carry the flags.
      have hne : (Cell.gpr r) ≠ .gpr .sp := fun heq => hr (Cell.gpr.inj heq)
      have hax : p.flags = .light → r ≠ .ax := fun hlight heq =>
        hsaved (heq ▸ hp.carrier hlight (heq ▸ hlive))
      have hunwritten : Cell.gpr r ∉ defs := fun hdef => hsaved (hp.gprs r hr (hrisk hdef hne))
      have hkept : after.gpr r = before.gpr r := hafter _ hunwritten hne
      exact ((hout r hsaved hr hax).trans hkept).trans (hgpr r hr hax)
  | flag f =>
      by_cases hcovered : p.flags = .full ∨ (p.flags = .light ∧ .flag f ∈ RegSet.lowFlags)
      · exact (hflags f).1 hcovered
      have hne : (Cell.flag f) ≠ .gpr .sp := by simp
      have hunwritten : Cell.flag f ∉ defs := fun hdef => hcovered (hp.flags f (hrisk hdef hne))
      have hkept : after.flag f = before.flag f := hafter _ hunwritten hne
      have hleft : p.flags = .none ∨ (p.flags = .light ∧ .flag f ∉ RegSet.lowFlags) := by
        cases hkind : p.flags with
        | none => exact .inl rfl
        | light => exact .inr ⟨rfl, fun hlow => hcovered (.inr ⟨hkind, hlow⟩)⟩
        | full => exact absurd (.inl hkind) hcovered
      exact ((hflags f).2 hleft).trans (hkept.trans (congrFun hflag f))

end Protection

namespace InsertedCode

theorem mem_defs {code : InsertedCode} {c : Cell} : c ∈ code.defs w ↔
    (match code.body with
      | .call _ => c ∈ CallingConvention.callDefs w
      | .snippet is => ∃ i ∈ is, c ∈ i.defs) ∨
    ∃ i ∈ code.precursors ++ code.postcursors, c ∈ i.defs := by
  rw [defs, RegSet.mem_foldl_union]
  cases code.body with
  | call target => rfl
  | snippet is =>
      rw [RegSet.mem_foldl_union]
      simp only [RegSet.not_mem_empty, false_or]

theorem defs_call {place target : Nat} {i : Instruction}
    (h : Encode.call w place target = .ok i) : i.defs = CallingConvention.callDefs w := by
  have hrun := Encode.edited_eq_ok.mp h
  exact (Instruction.setRelativeTarget_ok hrun).1.deed.defs_eq

/-- What an inserted instruction of the trampoline writes is written by the code. -/
theorem defs_subset_of_emit {code : InsertedCode} {es : List Emission} (h : code.emit w = .ok es) :
    ∀ e ∈ es, ∀ c ∈ e.instruction.defs, c ∈ code.defs w := by
  obtain ⟨body, hbody, h⟩ := bind_eq_ok.mp h
  obtain rfl := (Except.ok.inj h).symm
  intro e he c hc
  rw [mem_defs]
  rw [List.mem_append, List.mem_append] at he
  rcases he with (he | he) | he
  · obtain ⟨i, hi, rfl⟩ := List.mem_map.mp he
    exact .inr ⟨i, List.mem_append_left _ hi, hc⟩
  · left
    cases hkind : code.body with
    | call target =>
        rw [hkind, Insertion.emit, map_eq_ok] at hbody
        obtain ⟨i, hi, rfl⟩ := hbody
        obtain rfl := List.mem_singleton.mp he
        exact defs_call hi ▸ hc
    | snippet is =>
        rw [hkind] at hbody
        cases hbody
        obtain ⟨i, hi, rfl⟩ := List.mem_map.mp he
        exact ⟨i, hi, hc⟩
  · obtain ⟨i, hi, rfl⟩ := List.mem_map.mp he
    exact .inr ⟨i, List.mem_append_right _ hi, hc⟩

end InsertedCode

/-- From every state on entry, `enter` can be executed, and once the inserted code has left stack
pointer and saved slots as they were, `leave` can be executed and the stack pointer and the members
of `live` have their values back. -/
def Preserves (w : Width) (p : Protection) (enter inserted leave : List Instruction)
    (live : Cell → Prop) : Prop :=
  ∀ entry : Machine w, ∃ before, entry.run enter = some before ∧
    ∀ after, Machine.Inserted inserted before after → after.gpr .sp = before.gpr .sp →
      Memory.SameFrom (before.gpr .sp) (Memory.slotBytes w p.slotCount) before.memory after.memory →
      ∃ final, after.run leave = some final ∧ entry.Agrees final (.gpr .sp) ∧
        ∀ c, live c → entry.Agrees final c

namespace PatchPoint

variable {f : Function} {l : Liveness} {p analyzed generated : PatchPoint}

theorem covers_of_protectionFor {live : RegSet} {protection : Protection}
    (h : p.protectionFor w live = .ok protection) : protection.Covers live (p.atRisk w live) := by
  obtain ⟨skip, rfl⟩ := protectionFor_ok h
  exact (Protection.covers_covering _ _).skipping skip

/-- What is live and written is at risk, the overflow flag apart if it may be lost. -/
theorem mem_atRisk {live : RegSet} {c : Cell} (hlive : c ∈ live) (hdef : c ∈ p.code.defs w)
    (hexempt : p.ignoresOverflow = true → c ≠ .flag .overflow) : c ∈ p.atRisk w live := by
  have hboth : c ∈ live ∩ p.code.defs w := (RegSet.mem_inter _ _ _).mpr ⟨hlive, hdef⟩
  unfold atRisk
  dsimp only
  split
  · rename_i hignored
    exact (RegSet.mem_erase _ _ _).mpr ⟨hboth, hexempt hignored⟩
  · exact hboth

/-- A generated trampoline, taken apart. -/
theorem exists_parts (ha : (analyze w f l).run p = .ok () analyzed)
    (hg : (generate w f).run analyzed = .ok () generated) :
    ∃ d enter inserted leave tail, generated.progress = .generated d ∧
      p.protectionFor w (l.liveAt p.address p.location) = .ok d.protection ∧
      d.protection.enter w = .ok enter ∧ p.code.emit w = .ok inserted ∧
      d.protection.leave w = .ok leave ∧
      Trampoline.tail (relocated p.location d.displaced)
        (resume? d.site d.displaced (relocated p.location d.displaced)) = .ok tail ∧
      d.trampoline.instructions = enter ++ inserted.map Emission.instruction ++ leave ++
        tail.map Emission.instruction := by
  obtain ⟨protection, hprotection, rfl⟩ := analyze_ok ha
  obtain ⟨protection', d, hprogress, hd, rfl⟩ := generate_ok hg
  obtain rfl : protection = protection' := PatchProgress.analyzed.inj hprogress
  obtain ⟨-, -, rfl, hbuild⟩ := buildDetour_ok hd
  obtain ⟨enter, inserted, leave, tail, henter, hinserted, hleave, htail, ht⟩ :=
    Trampoline.build_ok hbuild
  refine ⟨d, enter, inserted, leave, tail, rfl, hprotection, henter, hinserted, hleave, htail, ?_⟩
  rw [ht]
  simp [Trampoline.ofEmissions, Emission.free, Function.comp_def]

/-- Whatever is live at a point keeps its value up to the displaced instructions of the trampoline
that is generated for the point. -/
theorem live_preserved (ha : (analyze w f l).run p = .ok () analyzed)
    (hg : (generate w f).run analyzed = .ok () generated) :
    ∃ d enter inserted leave tail, generated.progress = .generated d ∧
      d.protection.enter w = .ok enter ∧ p.code.emit w = .ok inserted ∧
      d.protection.leave w = .ok leave ∧
      Trampoline.tail (relocated p.location d.displaced)
        (resume? d.site d.displaced (relocated p.location d.displaced)) = .ok tail ∧
      d.trampoline.instructions = enter ++ inserted.map Emission.instruction ++ leave ++
        tail.map Emission.instruction ∧
      Preserves w d.protection enter (inserted.map Emission.instruction) leave fun c =>
        c ∈ l.liveAt p.address p.location ∧ (p.ignoresOverflow = true → c ≠ .flag .overflow) := by
  obtain ⟨d, enter, inserted, leave, tail, hd, hprotection, henter, hinserted, hleave, htail, ht⟩ :=
    exists_parts ha hg
  refine ⟨d, enter, inserted, leave, tail, hd, henter, hinserted, hleave, htail, ht,
    fun entry => ?_⟩
  obtain ⟨before, hbefore, hrun⟩ :=
    Protection.run_around (p.code.defs w) (covers_of_protectionFor hprotection) henter
      hleave entry
  refine ⟨before, hbefore, fun after hinsert hsp hslots => ?_⟩
  have hwrites : ∀ c ∉ p.code.defs w, c ≠ .gpr .sp → before.Agrees after c := by
    intro c hc hne
    refine hinsert.agrees (fun i hi hdef => hc ?_) hne
    obtain ⟨e, he, rfl⟩ := List.mem_map.mp hi
    exact InsertedCode.defs_subset_of_emit hinserted e he c hdef
  obtain ⟨final, hfinal, hback, hlive⟩ := hrun after hwrites hsp hslots
  exact ⟨final, hfinal, hback, fun c hc =>
    hlive c hc.1 fun hdef _ => mem_atRisk hc.1 hdef hc.2⟩

/-- A function that loads a constant and returns, and a call in front of the load. Nothing is known
of what is live there, so that everything the call may change has to be preserved. -/
def constantFunction : Function :=
  let load : Instruction :=
    { address := 0x1000, bytes := [0xb8, 1, 0, 0, 0], opcodeClass := .int, mnemonic := "mov"
      operands := [Operand.ofRegister ⟨.dword, 0⟩, Operand.immediate 1 1 4]
      defs := RegSet.ofGprs [.ax] }
  let ret : Instruction := { Encode.ret with address := 0x1005, source := .application }
  { name := "constant", base := 0x1000, bytes := load.bytes ++ ret.bytes
    graph := some
      { base := 0x1000, size := 6
        pieces := [.code { address := 0x1000, instructions := [load, ret] }] } }

def callAtLoad : PatchPoint :=
  { address := 0x1000, location := .before, code := { body := .call 0x9000 } }

theorem live_preserved_around_call : ∃ analyzed generated,
    (analyze .bits64 constantFunction ⟨[], 0⟩).run callAtLoad = .ok () analyzed ∧
      (generate .bits64 constantFunction).run analyzed = .ok () generated ∧
      ∃ d enter inserted leave tail, generated.progress = .generated d ∧
        d.trampoline.instructions = enter ++ inserted ++ leave ++ tail ∧
        Preserves .bits64 d.protection enter inserted leave fun _ => True := by
  refine ⟨_, _, rfl, rfl, ?_⟩
  obtain ⟨d, enter, inserted, leave, tail, hd, -, -, -, -, ht, hlive⟩ :=
    live_preserved (p := callAtLoad) (w := .bits64) (f := constantFunction) (l := ⟨[], 0⟩) rfl rfl
  refine ⟨d, enter, _, leave, _, hd, ht, fun entry => ?_⟩
  obtain ⟨before, hbefore, hrun⟩ := hlive entry
  refine ⟨before, hbefore, fun after hinsert hsp hslots => ?_⟩
  obtain ⟨final, hfinal, hback, hcells⟩ := hrun after hinsert hsp hslots
  exact ⟨final, hfinal, hback, fun c _ => hcells c ⟨RegSet.mem_full c, nofun⟩⟩

end PatchPoint

end BinTrace
