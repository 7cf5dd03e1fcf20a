import BinTrace.Proofs.Flow.WellFormed
import BinTrace.Proofs.Instruction.Retarget
import BinTrace.Proofs.Patch.Steps

/-!
Placing and linking a trampoline. Its instructions lie one behind the other from its address on,
and each refers to what it was anchored to; apart from that they are as they were emitted.
-/

namespace BinTrace

open Outcome Instruction

@[simp] theorem bytesOfAll_layOutFrom (a : Nat) (is : List Instruction) :
    bytesOfAll (layOutFrom a is) = bytesOfAll is := by
  induction is generalizing a with
  | nil => rfl
  | cons i rest ih => rw [layOutFrom, bytesOfAll_cons, ih, bytesOfAll_cons]

/-- What has become of an emitted instruction once the trampoline has been placed and linked. -/
structure Emission.Becomes (e : Emission) (j : Instruction) : Prop where
  deed : e.instruction.SameDeed j
  size_eq : j.size = e.instruction.size
  kinds_eq : j.operands.map Operand.kind = e.instruction.operands.map Operand.kind
  others_eq : j.otherOperands = e.instruction.otherOperands
  /-- An instruction that is not anchored gets an address, and that is all. -/
  free : e.target = none → j = { e.instruction with address := j.address }
  anchored : ∀ a, e.target = some a → j.relativeTarget? = some (a % addressSpace)

/-- An emitted instruction at a place, which may have been given its target or not yet. -/
structure Emission.Carried (e : Emission) (j : Instruction) : Prop where
  deed : e.instruction.SameDeed j
  size_eq : j.size = e.instruction.size
  kinds_eq : j.operands.map Operand.kind = e.instruction.operands.map Operand.kind
  others_eq : j.otherOperands = e.instruction.otherOperands
  free : e.target = none → j = { e.instruction with address := j.address }

theorem Emission.Becomes.carried {e : Emission} {j : Instruction} (h : e.Becomes j) : e.Carried j :=
  ⟨h.deed, h.size_eq, h.kinds_eq, h.others_eq, h.free⟩

/-- What has no target to be given needs none. -/
theorem Emission.Carried.becomes {e : Emission} {j : Instruction} (h : e.Carried j)
    (ht : e.target = none) : e.Becomes j :=
  ⟨h.deed, h.size_eq, h.kinds_eq, h.others_eq, h.free, by simp [ht]⟩

/-- Giving an instruction its target keeps the rest of it, also when it has been given one
before. -/
theorem Emission.Carried.retarget {e : Emission} {i j : Instruction} {a : Nat} (h : e.Carried i)
    (ht : e.target = some a) (hj : (setRelativeTarget a).run i = .ok () j) : e.Becomes j := by
  obtain ⟨hsame, htarget⟩ := setRelativeTarget_ok hj
  refine ⟨h.deed.trans hsame.deed, hsame.size_eq.trans h.size_eq,
    hsame.kinds_eq.trans h.kinds_eq, hsame.others_eq.trans h.others_eq, by simp [ht],
    fun b hb => ?_⟩
  cases ht.symm.trans hb
  exact htarget

theorem Emission.carried_placed (e : Emission) (a : Nat) :
    e.Carried { e.instruction with address := a } :=
  ⟨⟨rfl, rfl, rfl, rfl, rfl⟩, rfl, rfl, rfl, fun _ => rfl⟩

theorem Emission.carried_layOutFrom (a : Nat) (es : List Emission) :
    List.Forall₂ Emission.Carried es (layOutFrom a (es.map Emission.instruction)) := by
  induction es generalizing a with
  | nil => exact .nil
  | cons e rest ih => exact .cons (e.carried_placed a) (ih _)

theorem contiguous_layOutFrom (a : Nat) (is : List Instruction) :
    Contiguous a (layOutFrom a is) := by
  induction is generalizing a with
  | nil => trivial
  | cons i rest ih => exact ⟨rfl, ih _⟩

/-- A displaced instruction at its new place: it does the same and refers to the same address, and
if it refers to none then nothing but its own address has changed. -/
structure Instruction.MovedTo (i j : Instruction) : Prop where
  deed : i.SameDeed j
  kinds_eq : j.operands.map Operand.kind = i.operands.map Operand.kind
  others_eq : j.otherOperands = i.otherOperands
  target_eq : j.relativeTarget? = i.relativeTarget?
  same : i.relativeTarget? = none → j = { i with address := j.address }

/-- A direct near jump to an address. -/
structure Instruction.JumpsTo (i : Instruction) (a : Nat) : Prop where
  opcodeClass_eq : i.opcodeClass = .uncondBranch
  mnemonic_eq : i.mnemonic = "jmp"
  size_eq : i.size = Encode.jumpSize
  target_eq : i.controlTarget? = some a

/-- Of a branch whose only operand is a displacement, the target is what that refers to. -/
theorem controlTarget?_eq {i : Instruction} (hclass : i.opcodeClass = .uncondBranch)
    (hkinds : i.operands.map Operand.kind = [.relative]) :
    i.controlTarget? = i.relativeTarget? := by
  obtain ⟨o, ho⟩ : ∃ o, i.operands = [o] := by
    have hlength := congrArg List.length hkinds
    simp only [List.length_map, List.length_singleton] at hlength
    exact List.length_eq_one_iff.mp hlength
  have hkind : o.kind = .relative := by
    rw [ho] at hkinds
    simpa using hkinds
  simp [controlTarget?, relativeTarget?, relativeOperand?, isBranch, hclass, ho, hkind,
    Operand.isRelative]

namespace Trampoline

/-- The anchor of an emission at a position. -/
def anchor? (e : Emission × Nat) : Option Anchor := e.1.target.map fun a => ⟨e.2, .address a⟩

variable {places : List (Option Nat)} {t t' : Trampoline}

/-- Linking one instruction behind others: it is given its target, or all stays as it is. -/
theorem linkAnchor_cases (places : List (Option Nat)) (a : Nat) {front rest : List Instruction}
    {i : Instruction} (ht : t.instructions = front ++ i :: rest) :
    (∃ j, (setRelativeTarget a).run i = .ok () j ∧
      (linkAnchor places ⟨front.length, .address a⟩).run t =
        .ok () { t with instructions := front ++ j :: rest }) ∨
    ∃ e, (linkAnchor places ⟨front.length, .address a⟩).run t = .error e t := by
  have hget : t.instructions[front.length]? = some i := by simp [ht]
  simp only [linkAnchor, EStateM.run_bind, EStateM.run_get, hget, Anchor.resolve?]
  cases hrun : (setRelativeTarget a).run i with
  | ok u j => exact .inl ⟨j, rfl, by rw [ht]; simp [EStateM.run_set]⟩
  | error e j => exact .inr ⟨_, rfl⟩

/-- Linking neither moves a trampoline nor changes its size, even if it fails. -/
theorem linkAnchor_frame {a : Anchor} (h : Leaves (linkAnchor places a) t t') :
    t'.address = t.address ∧ t'.anchors = t.anchors ∧ t'.size = t.size := by
  rcases h with ⟨u, h⟩ | ⟨e, h⟩
  · simp only [linkAnchor, EStateM.run_bind, EStateM.run_get] at h
    split at h
    · rename_i i hi
      split at h
      · split at h
        · rename_i u j hj
          cases h
          have hsize : j.size = i.size := (setRelativeTarget_ok hj).1.size_eq
          exact ⟨rfl, rfl, congrArg List.sum (map_set_eq hi hsize)⟩
        · cases h
      · cases h
    · cases h
      exact ⟨rfl, rfl, rfl⟩
  · simp only [linkAnchor, EStateM.run_bind, EStateM.run_get] at h
    split at h
    · split at h
      · split at h <;> cases h
        exact ⟨rfl, rfl, rfl⟩
      · cases h
        exact ⟨rfl, rfl, rfl⟩
    · cases h

theorem linkAnchors_frame {anchors : List Anchor}
    (h : Leaves (anchors.forM (linkAnchor places)) t t') :
    t'.address = t.address ∧ t'.anchors = t.anchors ∧ t'.size = t.size := by
  induction anchors generalizing t with
  | nil =>
      rcases h with ⟨u, h⟩ | ⟨e, h⟩ <;> cases h
      exact ⟨rfl, rfl, rfl⟩
  | cons a rest ih =>
      rcases leaves_bind.mp h with ⟨u, next, hnext, hrest⟩ | ⟨e, hfailed⟩
      · obtain ⟨haddress, hsame, hsize⟩ := linkAnchor_frame (.inl ⟨u, hnext⟩)
        obtain ⟨haddress', hsame', hsize'⟩ := ih hrest
        exact ⟨haddress'.trans haddress, hsame'.trans hsame, hsize'.trans hsize⟩
      · exact linkAnchor_frame (.inr ⟨e, hfailed⟩)

theorem link_frame (h : Leaves (link places) t t') :
    t'.address = t.address ∧ t'.anchors = t.anchors ∧ t'.size = t.size :=
  linkAnchors_frame (show Leaves (t.anchors.forM (linkAnchor places)) t t' from h)

/-- Linking the emissions from a position on, in front of which everything has been linked. It may
have been begun before, and it may stop on the way. -/
theorem linkAnchors_cases {es : List Emission} {front is : List Instruction} {a : Nat}
    (ht : t.instructions = front ++ is) (his : List.Forall₂ Emission.Carried es is)
    (hc : Contiguous a is) :
    ∃ js, List.Forall₂ Emission.Carried es js ∧ Contiguous a js ∧
      (((((es.zipIdx front.length).filterMap anchor?).forM (linkAnchor places)).run t =
          .ok () { t with instructions := front ++ js } ∧ List.Forall₂ Emission.Becomes es js) ∨
        ∃ e, (((es.zipIdx front.length).filterMap anchor?).forM (linkAnchor places)).run t =
          .error e { t with instructions := front ++ js }) := by
  induction es generalizing front is a t with
  | nil =>
      cases his
      exact ⟨[], .nil, trivial, .inl ⟨by rw [← ht]; rfl, .nil⟩⟩
  | cons e rest ih =>
      obtain ⟨i, is, hi, hrest, rfl⟩ := List.forall₂_cons_left_iff.mp his
      obtain ⟨rfl, hc⟩ := hc
      rw [List.zipIdx_cons, List.filterMap_cons]
      cases htarget : e.target with
      | none =>
          have hanchor : anchor? (e, front.length) = none := by simp [anchor?, htarget]
          have hsplit : t.instructions = (front ++ [i]) ++ is := by simpa using ht
          have hlength : (front ++ [i]).length = front.length + 1 := by simp
          obtain ⟨js, hjs, hcontiguous, h⟩ := ih hsplit hrest hc
          rw [hlength, List.append_assoc] at h
          rw [hanchor]
          exact ⟨i :: js, .cons hi hjs, ⟨rfl, hcontiguous⟩,
            h.imp_left (And.imp_right (.cons (hi.becomes htarget)))⟩
      | some target =>
          have hanchor : anchor? (e, front.length) = some ⟨front.length, .address target⟩ := by
            simp [anchor?, htarget]
          rw [hanchor]
          dsimp only
          rw [List.forM_eq_forM, List.forM_cons, EStateM.run_bind]
          rcases linkAnchor_cases places target ht with ⟨j, hj, hrun⟩ | ⟨x, hrun⟩
          · have hbecomes : e.Becomes j := hi.retarget htarget hj
            obtain ⟨hsame, -⟩ := setRelativeTarget_ok hj
            have hstop : j.stop = i.stop := by rw [stop, stop, hsame.address_eq, hsame.size_eq]
            have hsplit : ({ t with instructions := front ++ j :: is } : Trampoline).instructions =
                (front ++ [j]) ++ is := by simp
            have hlength : (front ++ [j]).length = front.length + 1 := by simp
            obtain ⟨js, hjs, hcontiguous, h⟩ := ih hsplit hrest hc
            rw [hlength, List.append_assoc] at h
            rw [hrun]
            exact ⟨j :: js, .cons hbecomes.carried hjs,
              ⟨hsame.address_eq, by rw [hstop]; exact hcontiguous⟩,
              h.imp_left (And.imp_right (.cons hbecomes))⟩
          · rw [hrun]
            exact ⟨i :: is, his, ⟨rfl, hc⟩, .inr ⟨x, by rw [← ht]⟩⟩

theorem forall₂_append {α β : Type} {R : α → β → Prop} {as bs : List α} {cs : List β}
    (h : List.Forall₂ R (as ++ bs) cs) :
    ∃ cs₁ cs₂, cs = cs₁ ++ cs₂ ∧ List.Forall₂ R as cs₁ ∧ List.Forall₂ R bs cs₂ := by
  induction as generalizing cs with
  | nil => exact ⟨[], cs, rfl, .nil, h⟩
  | cons a rest ih =>
      obtain ⟨c, cs, hc, hrest, rfl⟩ := List.forall₂_cons_left_iff.mp h
      obtain ⟨cs₁, cs₂, rfl, h₁, h₂⟩ := ih hrest
      exact ⟨c :: cs₁, cs₂, rfl, .cons hc h₁, h₂⟩

theorem movedTo_of_becomes {i j : Instruction} {e : Emission} (he : moved i = .ok e)
    (hj : e.Becomes j) : i.MovedTo j := by
  obtain ⟨k, hk, rfl⟩ := map_eq_ok.mp he
  obtain ⟨hdeed, -, hkinds, hothers, hsame⟩ := widenTarget_ok (Encode.edited_eq_ok.mp hk)
  refine ⟨hdeed.trans hj.deed, hj.kinds_eq.trans hkinds, hj.others_eq.trans hothers, ?_,
    fun hnone => ?_⟩
  · cases htarget : i.relativeTarget? with
    | none =>
        have hfree := hj.free htarget
        rw [hsame htarget] at hfree
        -- Without a relative operand the address does not matter.
        rw [hfree]
        exact relativeTarget?_eq_none.mpr (relativeTarget?_eq_none.mp htarget :)
    | some a =>
        rw [hj.anchored a htarget, Nat.mod_eq_of_lt (relativeTarget?_lt htarget)]
  · have hfree := hj.free hnone
    rwa [hsame hnone] at hfree

/-- The jump behind the displaced instructions. -/
theorem jumpsTo_of_becomes {i j : Instruction} {a : Nat} (hi : Encode.jumpNear 0 0 = .ok i)
    (hj : Emission.Becomes ⟨i, some a⟩ j) : j.JumpsTo (a % addressSpace) := by
  obtain ⟨v, -, -, rfl⟩ := Encode.jumpNear_ok hi
  have hclass : j.opcodeClass = .uncondBranch := hj.deed.opcodeClass_eq
  refine ⟨hclass, hj.deed.mnemonic_eq, hj.size_eq, ?_⟩
  rw [controlTarget?_eq hclass hj.kinds_eq]
  exact hj.anchored a rfl

theorem forall₂_movedTo {is js : List Instruction} {es : List Emission}
    (hes : List.Forall₂ (fun i e => moved i = .ok e) is es)
    (hjs : List.Forall₂ Emission.Becomes es js) : List.Forall₂ MovedTo is js := by
  induction hes generalizing js with
  | nil =>
      cases hjs
      exact .nil
  | cons he _ ih =>
      obtain ⟨j, js, hj, hrest, rfl⟩ := List.forall₂_cons_left_iff.mp hjs
      exact .cons (movedTo_of_becomes he hj) (ih hrest)

/-- The code for what was displaced, and the way back if there is one. -/
theorem tail_ok {relocated : List Instruction} {resume : Option Nat} {es : List Emission}
    (h : tail relocated resume = .ok es) {js : List Instruction}
    (hjs : List.Forall₂ Emission.Becomes es js) :
    ∃ displaced back, js = displaced ++ back ∧
      List.Forall₂ MovedTo (relocated.filter fun i => !i.isNop) displaced ∧
      (∀ a, resume = some a → ∃ jump, back = [jump] ∧ jump.JumpsTo (a % addressSpace)) ∧
      (resume = none → back = []) := by
  obtain ⟨code, hcode, h⟩ := bind_eq_ok.mp h
  have hmoved := forall₂_of_mapM hcode
  cases resume with
  | none =>
      cases h
      exact ⟨js, [], by simp, forall₂_movedTo hmoved hjs, by simp, fun _ => rfl⟩
  | some a =>
      obtain ⟨jump, hjump, h⟩ := bind_eq_ok.mp h
      cases h
      obtain ⟨front, back, rfl, hfront, hback⟩ := forall₂_append hjs
      obtain ⟨j, js, hj, hnil, rfl⟩ := List.forall₂_cons_left_iff.mp hback
      cases hnil
      refine ⟨front, [j], rfl, forall₂_movedTo hmoved hfront, fun b hb => ⟨j, rfl, ?_⟩, by simp⟩
      cases hb
      exact jumpsTo_of_becomes hjump hj

theorem totalSize_layOutFrom (a : Nat) (is : List Instruction) :
    totalSize (layOutFrom a is) = totalSize is := by
  rw [← length_bytesOfAll, bytesOfAll_layOutFrom, length_bytesOfAll]

/-- Linking a trampoline of certain emissions, also one that has been begun before: on success every
instruction has its target. -/
theorem link_cases {es : List Emission} {a : Nat} (hanchors : t.anchors = (ofEmissions es).anchors)
    (his : List.Forall₂ Emission.Carried es t.instructions) (hc : Contiguous a t.instructions)
    (h : Leaves (link places) t t') :
    List.Forall₂ Emission.Carried es t'.instructions ∧ Contiguous a t'.instructions ∧
      ((link places).run t = .ok () t' → List.Forall₂ Emission.Becomes es t'.instructions) := by
  have hrun : (link places).run t =
      (((es.zipIdx ([] : List Instruction).length).filterMap anchor?).forM
        (linkAnchor places)).run t := by
    change (t.anchors.forM (linkAnchor places)).run t = _
    rw [hanchors]
    rfl
  have hsplit : t.instructions = [] ++ t.instructions := rfl
  obtain ⟨js, hjs, hcontiguous, hcases⟩ := linkAnchors_cases hsplit his hc
  rw [← hrun] at hcases
  rcases hcases with ⟨hok, hbecomes⟩ | ⟨e, herror⟩
  · rcases h with ⟨u, h⟩ | ⟨e, h⟩
    · cases hok.symm.trans h
      exact ⟨hjs, hcontiguous, fun _ => hbecomes⟩
    · cases hok.symm.trans h
  · rcases h with ⟨u, h⟩ | ⟨e, h⟩
    · cases herror.symm.trans h
    · cases herror.symm.trans h
      exact ⟨hjs, hcontiguous, fun hok => by cases herror.symm.trans hok⟩

end Trampoline

/-- The second instruction is the first one at another address. -/
def Instruction.PlacedFrom (i j : Instruction) : Prop := j = { i with address := j.address }

theorem forall₂_placedFrom {is js : List Instruction}
    (h : List.Forall₂ Emission.Becomes (is.map .free) js) : List.Forall₂ PlacedFrom is js :=
  (List.forall₂_map_left_iff.mp h).imp fun _ _ h => h.free rfl

/-- The trampoline of a detour runs the code of a point between saving and restoring what is to be
preserved, then the displaced instructions without no-ops and without the one that is replaced, and
then jumps back to behind them, unless execution cannot go on behind the last of them. -/
structure Detour.CarriesOut (d : Detour) (w : Width) (p : PatchPoint) (a : Nat) : Prop where
  address_eq : d.trampoline.address = some a
  contiguous : Contiguous a d.trampoline.instructions
  parts : ∃ enter inserted leave moved back,
    d.trampoline.instructions = enter ++ inserted ++ leave ++ moved ++ back ∧
    (∃ is, d.protection.enter w = .ok is ∧ List.Forall₂ PlacedFrom is enter) ∧
    (∃ es, p.code.emit w = .ok es ∧ List.Forall₂ Emission.Becomes es inserted) ∧
    (∃ is, d.protection.leave w = .ok is ∧ List.Forall₂ PlacedFrom is leave) ∧
    List.Forall₂ MovedTo
      ((PatchPoint.relocated p.location d.displaced).filter fun i => !i.isNop) moved ∧
    ((∀ i ∈ (PatchPoint.relocated p.location d.displaced).getLast?, i.fallsThrough = true) →
      ∃ jump, back = [jump] ∧ jump.JumpsTo (d.range.stop % addressSpace)) ∧
    ((∃ i ∈ (PatchPoint.relocated p.location d.displaced).getLast?, i.fallsThrough = false) →
      back = [])

/-- The detour with its trampoline at an address, where it may have been linked, in part or not at
all. -/
structure Detour.LaidFrom (d e : Detour) (a : Nat) : Prop where
  site_eq : e.site = d.site
  displaced_eq : e.displaced = d.displaced
  protection_eq : e.protection = d.protection
  address_eq : e.trampoline.address = some a
  anchors_eq : e.trampoline.anchors = d.trampoline.anchors
  contiguous : Contiguous a e.trampoline.instructions
  carried : ∀ es, d.trampoline = .ofEmissions es →
    List.Forall₂ Emission.Carried es e.trampoline.instructions

namespace Detour.LaidFrom

variable {d e : Detour} {a : Nat} {places : List (Option Nat)} {t : Trampoline}

/-- Linking once more, whether it succeeds or fails. -/
theorem link (h : d.LaidFrom e a) {es : List Emission} (hes : d.trampoline = .ofEmissions es)
    (ht : Leaves (Trampoline.link places) e.trampoline t) :
    d.LaidFrom { e with trampoline := t } a := by
  have hanchors {es : List Emission} (hes : d.trampoline = .ofEmissions es) :
      e.trampoline.anchors = (Trampoline.ofEmissions es).anchors := by rw [h.anchors_eq, hes]
  obtain ⟨haddress, hsame, -⟩ := Trampoline.link_frame ht
  exact ⟨h.site_eq, h.displaced_eq, h.protection_eq, haddress.trans h.address_eq,
    hsame.trans h.anchors_eq,
    (Trampoline.link_cases (hanchors hes) (h.carried es hes) h.contiguous ht).2.1,
    fun es hes => (Trampoline.link_cases (hanchors hes) (h.carried es hes) h.contiguous ht).1⟩

/-- A linked trampoline carries out the point that its detour was built for. -/
theorem carriesOut (h : d.LaidFrom e a) {w : Width} {f : Function} {p : PatchPoint}
    {protection : Protection} (hd : p.buildDetour w f protection = .ok d)
    (ht : (Trampoline.link places).run e.trampoline = .ok () t) :
    ({ e with trampoline := t } : Detour).CarriesOut w p a := by
  obtain ⟨-, -, rfl, hbuild⟩ := PatchPoint.buildDetour_ok hd
  obtain ⟨enter, inserted, leave, tail, henter, hinserted, hleave, htail, hes⟩ :=
    Trampoline.build_ok hbuild
  have hlinked := h.link hes (.inl ⟨(), ht⟩)
  obtain ⟨-, -, hbecomes⟩ := Trampoline.link_cases (by rw [h.anchors_eq, hes]) (h.carried _ hes)
    h.contiguous (.inl ⟨(), ht⟩)
  obtain ⟨js, ks, hjs, hbecomes, hks⟩ := Trampoline.forall₂_append (hbecomes ht)
  obtain ⟨js, leave', rfl, hbecomes, hleave'⟩ := Trampoline.forall₂_append hbecomes
  obtain ⟨enter', inserted', rfl, henter', hinserted'⟩ := Trampoline.forall₂_append hbecomes
  obtain ⟨moved, back, rfl, hmoved, hsome, hnone⟩ := Trampoline.tail_ok htail hks
  rw [← h.protection_eq] at henter hleave
  rw [← h.displaced_eq] at hmoved hsome hnone
  rw [← h.site_eq] at hsome hnone
  refine ⟨hlinked.address_eq, hlinked.contiguous, enter', inserted', leave', moved, back,
    by simp [hjs], ⟨enter, henter, forall₂_placedFrom henter'⟩, ⟨inserted, hinserted, hinserted'⟩,
    ⟨leave, hleave, forall₂_placedFrom hleave'⟩, hmoved, fun hfalls => ?_, fun hstops => ?_⟩
  · refine hsome _ (if_pos ?_)
    cases hlast : (PatchPoint.relocated p.location e.displaced).getLast? with
    | none => rfl
    | some i => simpa using hfalls i hlast
  · obtain ⟨i, hi, hstop⟩ := hstops
    refine hnone (if_neg ?_)
    rw [Option.mem_def] at hi
    simp [hi, hstop]

end Detour.LaidFrom

end BinTrace
