import BinTrace.Proofs.Patch.Calls

/-!
Runs over a set of points. Points are added, functions are instrumented, and what is pending is
written out, in any order and as often as one likes; each of these calls may fail on the way. What
holds of the detours after every run is proved step by step.
-/

namespace BinTrace

open Outcome

/-- What becomes of a point when points are written out and that may stop halfway. -/
inductive PatchPoint.Touched (p : PatchPoint) : PatchPoint → Prop
  | same : p.Touched p
  | placed {d e : Detour} (hplaced : p.progress = .placed d) (h : d.Relinked e) :
      p.Touched (p.withProgress (.placed e))
  | dumped {d e : Detour} (hplaced : p.progress = .placed d) (h : d.Relinked e) :
      p.Touched (p.withProgress (.dumped e))

namespace Detour

variable {d e e' : Detour} {a : Nat}

theorem Relinked.displaces {f : Function} (h : d.Relinked e) (hd : d.Displaces f) :
    e.Displaces f := by
  cases h with
  | same => exact hd
  | linked _ => exact hd.withTrampoline _

theorem LaidFrom.relinked (h : d.LaidFrom e a) {es : List Emission}
    (hes : d.trampoline = .ofEmissions es) (he : e.Relinked e') : d.LaidFrom e' a := by
  cases he with
  | same => exact h
  | linked ht => exact h.link hes ht

theorem LaidFrom.range_eq (h : d.LaidFrom e a) : e.range = d.range := by
  rw [range, range, h.site_eq, h.displaced_eq]

/-- Where a trampoline lies makes no difference to what is displaced. -/
theorem LaidFrom.displaces {f : Function} (h : d.LaidFrom e a) (hd : d.Displaces f) :
    e.Displaces f := by
  have he : e = { d with trampoline := e.trampoline } := by
    cases e
    obtain ⟨rfl, rfl, rfl, -⟩ := h
    rfl
  rw [he]
  exact hd.withTrampoline _

/-- The first detour lies in a function that begins before the function of the second one, and
reaches over the first byte of that. -/
def Straddles (fs : List Function) (d e : Detour) : Prop :=
  ∃ g ∈ fs, ∃ f ∈ fs, d.Displaces g ∧ e.Displaces f ∧ d.site < f.base ∧ f.base < d.range.stop

/-- The ranges have no address in common, or one reaches into the function of the other. -/
def Clear (fs : List Function) (d e : Detour) : Prop :=
  d.range.Apart e.range ∨ d.Straddles fs e ∨ e.Straddles fs d

variable {fs : List Function}

theorem Clear.symm (h : d.Clear fs e) : e.Clear fs d :=
  h.imp AddressRange.Apart.symm Or.symm

theorem Straddles.relinked {d' : Detour} (h : d.Straddles fs e) (hd : d.Relinked d')
    (he : e.Relinked e') : d'.Straddles fs e' := by
  obtain ⟨g, hg, f, hf, hdg, hef, hbefore, hbehind⟩ := h
  refine ⟨g, hg, f, hf, hd.displaces hdg, he.displaces hef, ?_, ?_⟩
  · rwa [hd.frame.1]
  · rwa [hd.frame.2.1]

theorem Clear.relinked {d' : Detour} (h : d.Clear fs e) (hd : d.Relinked d') (he : e.Relinked e') :
    d'.Clear fs e' := by
  refine h.imp (fun hapart => ?_) (Or.imp (·.relinked hd he) (·.relinked he hd))
  rwa [hd.frame.2.1, he.frame.2.1]

/-- A detour of a function keeps off another one that begins outside of the function, unless that
one straddles the beginning of the function. -/
theorem clear_of_outside {f g : Function} (hg : g ∈ fs) (hf : f ∈ fs) (hd : d.Displaces g)
    (he : e.Displaces f) (hsize : f.size = f.bytes.length)
    (hout : f.range.contains d.site = false) : d.Clear fs e := by
  have hbase : f.base ≤ e.site := he.base_le
  have hstop : e.range.stop ≤ f.base + f.bytes.length := he.stop_le
  rw [AddressRange.contains_eq_false_iff] at hout
  simp only [Function.range, AddressRange.stop, hsize] at hout
  rcases hout with hbefore | hbehind
  · by_cases hreach : d.range.stop ≤ f.base
    · exact .inl (.inl (hreach.trans hbase))
    · exact .inr (.inl ⟨g, hg, f, hf, hd, he, hbefore, Nat.lt_of_not_le hreach⟩)
  · exact .inl (.inr (hstop.trans hbehind))

end Detour

theorem PatchPoint.Detours.displaces {w : Width} {f : Function} {p : PatchPoint} {d e : Detour}
    {a : Nat} (h : p.Detours w f d) (hf : f.Digested) (he : d.LaidFrom e a) :
    e.Displaces f ∧ (p.location ≠ .after → e.site = p.address) := by
  obtain ⟨-, protection, hd⟩ := h
  obtain ⟨hdisplaces, hsite⟩ := PatchPoint.displaces_of_buildDetour hf hd
  exact ⟨he.displaces hdisplaces, fun hlocation => he.site_eq.trans (hsite hlocation)⟩

theorem PatchPoint.Detours.emissions {w : Width} {f : Function} {p : PatchPoint} {d : Detour}
    (h : p.Detours w f d) : ∃ es, d.trampoline = .ofEmissions es := by
  obtain ⟨-, protection, hd⟩ := h
  obtain ⟨-, -, -, ht⟩ := PatchPoint.buildDetour_ok hd
  obtain ⟨enter, inserted, leave, tail, -, -, -, -, hes⟩ := Trampoline.build_ok ht
  exact ⟨_, hes⟩

namespace PatchPoint

variable {places : List (Option Nat)} {base : Nat} {region : List UInt8} {p q : PatchPoint}

theorem touched_of_dump_error {d : Detour} {x : PatchError} (hp : p.progress = .placed d)
    (h : (dump region base places).run p = .error x q) : p.Touched q := by
  unfold dump at h
  simp only [EStateM.run_bind, EStateM.run_get, hp] at h
  split at h
  · rename_i e t hlink
    cases h
    exact .placed hp (.linked (.inr ⟨_, hlink⟩))
  · rename_i u t hlink
    rw [EStateM.run_bind, EStateM.run_set] at h
    dsimp only at h
    split at h
    · cases h
      exact .placed hp (.linked (.inl ⟨u, hlink⟩))
    · cases h

/-- Which point a detour belongs to and what it was built from do not change. -/
theorem Touched.placedDetour? (h : p.Touched q) :
    Option.Rel Detour.Relinked p.progress.placedDetour? q.progress.placedDetour? ∧
      ∀ w f d, p.Detours w f d → q.Detours w f d := by
  cases h with
  | same =>
      refine ⟨?_, fun _ _ _ hd => hd⟩
      cases p.progress.placedDetour? with
      | none => exact .none
      | some d => exact .some .same
  | placed hplaced h =>
      rw [hplaced]
      exact ⟨.some h, fun _ _ _ hd => hd⟩
  | dumped hplaced h =>
      rw [hplaced]
      exact ⟨.some h, fun _ _ _ hd => hd⟩

end PatchPoint

namespace PatchSet

/-- Also where writing out stops halfway, each point is as it was or has been linked. -/
theorem touched_dumpPoints (base : Nat) (places : List (Option Nat)) (region : List UInt8)
    (ps : List PatchPoint) :
    List.Forall₂ PatchPoint.Touched ps (dumpPoints base places region ps).1 := by
  induction ps generalizing region with
  | nil => exact .nil
  | cons p rest ih =>
      rw [dumpPoints]
      cases hpending : pending? p with
      | none => simpa only [Option.isNone_none, if_true] using .cons .same (ih region)
      | some d =>
          have hplaced := pending?_eq_some.mp hpending
          simp only [Option.isNone_some, Bool.false_eq_true, if_false]
          cases hdump : (PatchPoint.dump region base places).run p with
          | error x q =>
              exact .cons (PatchPoint.touched_of_dump_error hplaced hdump)
                (List.forall₂_same.mpr fun _ _ => .same)
          | ok next q =>
              obtain ⟨e, hde, rfl, -⟩ := dumpPoint_ok hplaced hdump
              exact .cons (.dumped hplaced hde.relinked) (ih next)

/-- Writing out changes nothing but the pending points. -/
theorem exists_touched (s : PatchSet) (text : List UInt8) (base : Nat) : ∃ points,
    (s.dump text base).patches = { s with points } ∧
      List.Forall₂ PatchPoint.Touched s.points points := by
  have hsame : List.Forall₂ PatchPoint.Touched s.points s.points :=
    List.forall₂_same.mpr fun _ _ => .same
  have htouched :=
    touched_dumpPoints s.regionBase s.places (List.replicate s.regionSize 0) s.points
  unfold dump
  split
  · exact ⟨s.points, rfl, hsame⟩
  · refine ⟨_, ?_, htouched⟩
    dsimp only
    split <;> rfl

/-- The states after runs of calls on a set of points, with the text that the next call is to write
to, and whether writing out has failed on the way. After such a failure one may go on with any
text. -/
inductive Reached (w : Width) (regionBase base : Nat) (fs : List Function) :
    Bool → PatchSet → List UInt8 → Prop
  | start (text : List UInt8) : Reached w regionBase base fs false { width := w, regionBase } text
  | add {failed : Bool} {s : PatchSet} {text : List UInt8} {p : PatchPoint}
      (hp : p.progress.placedDetour? = none) (h : Reached w regionBase base fs failed s text) :
      Reached w regionBase base fs failed (s.add p) text
  | instrument {failed : Bool} {s s' : PatchSet} {text : List UInt8} {f : Function} {l : Liveness}
      (hf : f ∈ fs) (hrun : Leaves (PatchSet.instrument f l) s s')
      (h : Reached w regionBase base fs failed s text) : Reached w regionBase base fs failed s' text
  | dump {failed : Bool} {s s' : PatchSet} {text text' region : List UInt8}
      (hdump : s.dump text base = ⟨s', text', .ok region⟩)
      (h : Reached w regionBase base fs failed s text) :
      Reached w regionBase base fs failed s' text'
  | dumpFailed {failed : Bool} {s s' : PatchSet} {text buffer left : List UInt8} {base' : Nat}
      {e : PatchError} (text' : List UInt8) (hdump : s.dump buffer base' = ⟨s', left, .error e⟩)
      (h : Reached w regionBase base fs failed s text) : Reached w regionBase base fs true s' text'

/-- What every call keeps: each detour that has a place was built for its point and leads out of one
of the functions, the trampolines fill the region one behind the other, and the detours are clear of
each other. -/
structure Sound (s : PatchSet) (w : Width) (regionBase : Nat) (fs : List Function) : Prop where
  width_eq : s.width = w
  regionBase_eq : s.regionBase = regionBase
  built : ∀ p ∈ s.points, ∀ e, p.progress.placedDetour? = some e →
    ∃ f ∈ fs, ∃ d a, p.Detours w f d ∧ d.LaidFrom e a
  laid : ∃ order, order.Perm s.detours ∧ Detour.Laid regionBase order ∧
    (order.map fun d => d.trampoline.size).sum = s.regionSize
  clear : s.detours.Pairwise (Detour.Clear fs)

variable {s s' : PatchSet} {w : Width} {regionBase : Nat} {fs : List Function}

theorem sound_start : Sound { width := w, regionBase } w regionBase fs :=
  ⟨rfl, rfl, by simp, ⟨[], .refl _, trivial, rfl⟩, .nil⟩

theorem detours_add {p : PatchPoint} (hp : p.progress.placedDetour? = none) :
    (s.add p).detours = s.detours := by
  simp [detours, add, List.filterMap_append, hp]

theorem Sound.add (h : s.Sound w regionBase fs) {p : PatchPoint}
    (hp : p.progress.placedDetour? = none) : (s.add p).Sound w regionBase fs := by
  refine ⟨h.width_eq, h.regionBase_eq, fun q hq e he => ?_, ?_, ?_⟩
  · rcases List.mem_append.mp hq with hq | hq
    · exact h.built q hq e he
    · rw [List.mem_singleton.mp hq, hp] at he
      cases he
  · rw [detours_add hp]
    exact h.laid
  · rw [detours_add hp]
    exact h.clear

/-- A detour that has a place lies in one of the functions. -/
theorem Sound.displaces (h : s.Sound w regionBase fs) (hfs : ∀ f ∈ fs, f.Digested) :
    ∀ d ∈ s.detours, ∃ f ∈ fs, d.Displaces f := by
  intro e he
  obtain ⟨p, hp, hpe⟩ := List.mem_filterMap.mp he
  obtain ⟨f, hf, d, a, hdetour, hlaid⟩ := h.built p hp e hpe
  exact ⟨f, hf, (hdetour.displaces (hfs f hf) hlaid).1⟩

/-- The new detours keep off those that begin in the function, and so they are clear of all. -/
theorem Sound.grows (h : s.Sound w regionBase fs) (hfs : ∀ f ∈ fs, f.Digested) {f : Function}
    (hf : f ∈ fs) {new : List Detour} (hnew : s.Grows s' f new) : s'.Sound w regionBase fs := by
  have hwidth : s.width = w := h.width_eq
  refine ⟨hnew.width_eq.trans hwidth, hnew.regionBase_eq.trans h.regionBase_eq,
    fun q hq e he => ?_, ?_, ?_⟩
  · rcases hnew.placed_from q hq e he with hold | ⟨p, -, d, a, hdetour, rfl, rfl⟩
    · exact h.built q hold e he
    · exact ⟨f, hf, d, a, hwidth ▸ hdetour, d.laidFrom_placedAt a⟩
  · obtain ⟨order, hperm, hlaid, hsize⟩ := h.laid
    refine ⟨order ++ new, (hperm.append_right new).trans hnew.detours_perm.symm, ?_, ?_⟩
    · rw [Detour.laid_append, hsize, ← h.regionBase_eq]
      exact ⟨h.regionBase_eq ▸ hlaid, hnew.laid⟩
    · rw [List.map_append, List.sum_append, hsize, hnew.regionSize_eq]
  · rw [hnew.detours_perm.pairwise_iff fun h => Detour.Clear.symm h, List.pairwise_append]
    refine ⟨h.clear, hnew.apart.imp .inl, fun d hd e he => ?_⟩
    obtain ⟨g, hg, hdg⟩ := h.displaces hfs d hd
    obtain ⟨p, d', a, hdetour, rfl⟩ := hnew.built e he
    obtain ⟨hef, -⟩ := hdetour.displaces (hfs f hf) (d'.laidFrom_placedAt a)
    cases hin : f.range.contains d.site with
    | true => exact .inl (hnew.apart_taken d hd hin _ he).symm
    | false => exact Detour.clear_of_outside hg hf hdg hef (hfs f hf).size_eq hin

theorem forall₂_relinked {points : List PatchPoint}
    (h : List.Forall₂ PatchPoint.Touched s.points points) :
    List.Forall₂ Detour.Relinked s.detours ({ s with points } : PatchSet).detours :=
  List.rel_filterMap (fun _ _ hpq => hpq.placedDetour?.1) h

/-- Linking trampolines, in part or in whole, moves none of them. -/
theorem Sound.touched (h : s.Sound w regionBase fs) {points : List PatchPoint}
    (hpoints : List.Forall₂ PatchPoint.Touched s.points points) :
    ({ s with points } : PatchSet).Sound w regionBase fs := by
  have hdetours := forall₂_relinked hpoints
  refine ⟨h.width_eq, h.regionBase_eq, fun q hq e' he' => ?_, ?_, ?_⟩
  · obtain ⟨p, hp, hpq⟩ := (exists_mem_of_forall₂ hpoints).2 q hq
    obtain ⟨hrel, hsame⟩ := hpq.placedDetour?
    rw [he'] at hrel
    cases hpe : p.progress.placedDetour? with
    | none =>
        rw [hpe] at hrel
        cases hrel
    | some e =>
        rw [hpe] at hrel
        obtain ⟨hee'⟩ := hrel
        obtain ⟨f, hf, d, a, hdetour, hlaid⟩ := h.built p hp e hpe
        obtain ⟨es, hes⟩ := hdetour.emissions
        exact ⟨f, hf, d, a, hsame w f d hdetour, hlaid.relinked hes hee'⟩
  · obtain ⟨order, hperm, hlaid, hsize⟩ := h.laid
    obtain ⟨order', horder, hperm'⟩ := List.perm_comp_forall₂ hperm hdetours
    exact ⟨order', hperm', Detour.laid_of_relinked horder hlaid,
      Detour.sizes_of_relinked horder ▸ hsize⟩
  · exact pairwise_of_forall₂ hdetours (fun _ _ _ _ hd he hclear => hclear.relinked hd he) h.clear

variable {base : Nat} {failed : Bool} {text : List UInt8}

theorem Reached.sound (hfs : ∀ f ∈ fs, f.Digested)
    (h : Reached w regionBase base fs failed s text) : s.Sound w regionBase fs := by
  induction h with
  | start text => exact sound_start
  | add hp _ ih => exact ih.add hp
  | instrument hf hrun _ ih =>
      obtain ⟨new, hnew⟩ := exists_grows hrun
      exact ih.grows hfs hf hnew
  | @dump failed s s' text text' region hdump _ ih =>
      obtain ⟨points, hs', hpoints⟩ := s.exists_touched text base
      rw [hdump] at hs'
      obtain rfl : s' = _ := hs'
      exact ih.touched hpoints
  | @dumpFailed failed s s' text buffer left base' e text' hdump _ ih =>
      obtain ⟨points, hs', hpoints⟩ := s.exists_touched buffer base'
      rw [hdump] at hs'
      obtain rfl : s' = _ := hs'
      exact ih.touched hpoints

end PatchSet

theorem JumpOut.reached {fs : List Function} (hf : JumpOut.function ∈ fs) (text : List UInt8) :
    PatchSet.Reached .bits64 0x10000 0x1000 fs false
      { JumpOut.points with regionSize := 5, points := [JumpOut.placedPoint] } text :=
  .instrument hf (.inl ⟨_, JumpOut.instrument_eq⟩) <| .add rfl <| .start text

end BinTrace
