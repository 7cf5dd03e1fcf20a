import BinTrace.Proofs.Patch.Runs

/-!
Which displaced ranges can have an address in common. While a function is instrumented the ranges
count as taken that begin in it; a range that begins in front of it and reaches into it does not.
-/

namespace BinTrace

/-- No function begins behind the first byte of another one and in front of its end. -/
def Function.NoneBeginsInside (fs : List Function) : Prop :=
  ∀ g ∈ fs, ∀ f ∈ fs, ¬(g.base < f.base ∧ f.base < g.range.stop)

namespace Detour

variable {fs : List Function} {d e : Detour}

theorem not_straddles (hfs : ∀ f ∈ fs, f.Digested) (hnone : Function.NoneBeginsInside fs) :
    ¬ d.Straddles fs e := by
  rintro ⟨g, hg, f, hf, hdg, -, hbefore, hbehind⟩
  have hbase : g.base ≤ d.site := hdg.base_le
  have hstop : d.range.stop ≤ g.base + g.bytes.length := hdg.stop_le
  have hsize : g.range.stop = g.base + g.bytes.length := by
    rw [AddressRange.stop, Function.range, (hfs g hg).size_eq]
  exact hnone g hg f hf ⟨by omega, by omega⟩

theorem Clear.apart_of_not_straddles (hnone : ∀ d e : Detour, ¬ d.Straddles fs e)
    (h : d.Clear fs e) : d.range.Apart e.range := by
  rcases h with hapart | hstraddles | hstraddles
  · exact hapart
  · exact absurd hstraddles (hnone d e)
  · exact absurd hstraddles (hnone e d)

theorem Clear.apart (hfs : ∀ f ∈ fs, f.Digested) (hnone : Function.NoneBeginsInside fs)
    (h : d.Clear fs e) : d.range.Apart e.range :=
  h.apart_of_not_straddles fun _ _ => not_straddles hfs hnone

end Detour

namespace PatchSet

variable {w : Width} {regionBase base : Nat} {fs : List Function} {failed : Bool} {s : PatchSet}
  {text : List UInt8}

/-- No two displaced ranges have an address in common. -/
def KeepsApart (s : PatchSet) : Prop := s.detours.Pairwise fun d e => d.range.Apart e.range

theorem Reached.keepsApart (hfs : ∀ f ∈ fs, f.Digested) (hnone : Function.NoneBeginsInside fs)
    (h : Reached w regionBase base fs failed s text) : s.KeepsApart :=
  (h.sound hfs).clear.imp (Detour.Clear.apart hfs hnone)

/-- After every run two ranges that are displaced have no address in common, except where one of
them begins in front of the function of the other and reaches into it. If no function begins inside
of another one, then no two ranges have. -/
theorem detours_apart_or_straddle (hfs : ∀ f ∈ fs, f.Digested)
    (h : Reached w regionBase base fs failed s text) :
    s.detours.Pairwise (fun d e =>
        d.range.Apart e.range ∨ d.Straddles fs e ∨ e.Straddles fs d) ∧
      (Function.NoneBeginsInside fs → s.KeepsApart) :=
  ⟨(h.sound hfs).clear, fun hnone => h.keepsApart hfs hnone⟩

end PatchSet

/-! The second of two functions begins inside of the first. -/

namespace Overlapping

open LoneJump

def outerJump : Instruction := jumpAt 0x1000 [0xe9, 0xe9, 0x10, 0, 0] 0x10e9

def innerJump : Instruction := jumpAt 0x1001 [0xe9, 0x10, 0, 0, 0] 0x10

def outer : Function := functionOf outerJump

def inner : Function := functionOf innerJump

def points : PatchSet := { width := .bits64, regionBase := 0x10000 }

/-- After the outer function has been instrumented. -/
def outerPoints : PatchSet := { points with regionSize := 5, points := [placed outerJump 0x10000] }

def bothPoints : PatchSet :=
  { points with
    regionSize := 10
    points := [placed outerJump 0x10000, placed innerJump 0x10005] }

set_option maxRecDepth 4096 in
theorem single_outer : ∃ g b, outer.Single g b outerJump :=
  single_functionOf (by cbv) (by decide) (by rfl)

set_option maxRecDepth 4096 in
theorem single_inner : ∃ g b, inner.Single g b innerJump :=
  single_functionOf (by cbv) (by decide) (by rfl)

theorem instrument_outer : (PatchSet.instrument outer liveness).run
    (points.add (pointAt 0x1000)) = .ok 1 outerPoints := by
  obtain ⟨g, b, h⟩ := single_outer
  exact instrument_eq (s := points) h rfl (List.mergeSort_singleton ..) (by simp [points]) rfl rfl

/-- The range of the outer detour does not count as taken, as it begins in front of the inner
function. -/
theorem instrument_inner : (PatchSet.instrument inner liveness).run
    (outerPoints.add (pointAt 0x1001)) = .ok 1 bothPoints := by
  obtain ⟨g, b, h⟩ := single_inner
  have hrange : (functionOf innerJump).range = ⟨0x1001, 5⟩ := h.range_eq
  exact instrument_eq (s := outerPoints) h rfl (List.mergeSort_of_pairwise (by decide)) (by decide)
    (by rw [PatchSet.takenIn, hrange]; rfl) rfl

/-- The bytes of both functions. -/
def text : List UInt8 := [0xe9, 0xe9, 0x10, 0, 0, 0]

theorem reached : PatchSet.Reached .bits64 0x10000 0x1000 [outer, inner] false bothPoints text :=
  .instrument (by simp) (.inl ⟨_, instrument_inner⟩) <| .add rfl <|
    .instrument (by simp) (.inl ⟨_, instrument_outer⟩) <| .add rfl <| .start text

theorem digested : ∀ f ∈ [outer, inner], f.Digested := by
  obtain ⟨g, b, houter⟩ := single_outer
  obtain ⟨g', b', hinner⟩ := single_inner
  simpa using ⟨houter.digested, hinner.digested⟩

theorem liesIn : ∀ f ∈ [outer, inner], f.LiesIn 0x1000 text := by
  obtain ⟨g, b, houter⟩ := single_outer
  obtain ⟨g', b', hinner⟩ := single_inner
  refine List.forall_mem_cons.mpr ⟨houter.liesIn ?_, List.forall_mem_singleton.mpr
    (hinner.liesIn ?_)⟩
  · exact ⟨by decide, by decide, by decide⟩
  · exact ⟨by decide, by decide, by decide⟩

theorem detours_eq :
    bothPoints.detours =
      [(detour outerJump).placedAt 0x10000, (detour innerJump).placedAt 0x10005] := rfl

theorem not_apart :
    ¬ ((detour outerJump).placedAt 0x10000).range.Apart
      ((detour innerJump).placedAt 0x10005).range := by
  simp only [AddressRange.Apart, AddressRange.stop, Detour.range]
  decide

theorem straddles_overlapping :
    ((detour outerJump).placedAt 0x10000).Straddles [outer, inner]
      ((detour innerJump).placedAt 0x10005) := by
  have hpairs := (PatchSet.detours_apart_or_straddle digested reached).1
  rw [detours_eq] at hpairs
  rcases List.rel_of_pairwise_cons hpairs List.mem_cons_self with hapart | hstraddles | hstraddles
  · exact absurd hapart not_apart
  · exact hstraddles
  · -- The inner detour does not begin in front of the function of the outer one.
    obtain ⟨g, -, f, -, -, hf, hbefore, -⟩ := hstraddles
    have hbase : f.base ≤ 0x1000 := hf.base_le
    have hsite : 0x1001 < f.base := hbefore
    omega

/-- With a function that begins inside of another one, one patch can destroy another. -/
theorem exists_overlapping_patches : ∃ f g : Function, f.Digested ∧ g.Digested ∧
    f.LiesIn 0x1000 text ∧ g.LiesIn 0x1000 text ∧
    ∃ s, PatchSet.Reached .bits64 0x10000 0x1000 [f, g] false s text ∧
      ¬ s.KeepsApart := by
  refine ⟨outer, inner, digested _ (by simp), digested _ (by simp), liesIn _ (by simp),
    liesIn _ (by simp), bothPoints, reached, fun hpairs => ?_⟩
  rw [PatchSet.KeepsApart, detours_eq] at hpairs
  exact not_apart (List.rel_of_pairwise_cons hpairs List.mem_cons_self)

end Overlapping

end BinTrace
