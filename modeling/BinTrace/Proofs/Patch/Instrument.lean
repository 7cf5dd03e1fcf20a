import BinTrace.Proofs.Patch.Link
import BinTrace.Proofs.Patch.Site
import BinTrace.Proofs.Patch.Writing

/-!
Placing the points of a function. What a run over the points does is told by a relation with one
case for each fate of a point; the facts about all detours follow by induction on it.
-/

namespace BinTrace

open Outcome

/-- The detour once its trampoline lies at an address. -/
def Detour.placedAt (d : Detour) (a : Nat) : Detour := { d with trampoline := d.trampoline.place a }

@[simp] theorem Detour.range_placedAt (d : Detour) (a : Nat) : (d.placedAt a).range = d.range := rfl

@[simp] theorem Detour.size_placedAt (d : Detour) (a : Nat) :
    (d.placedAt a).trampoline.size = d.trampoline.size :=
  Trampoline.totalSize_layOutFrom ..

theorem Detour.laidFrom_placedAt (d : Detour) (a : Nat) : d.LaidFrom (d.placedAt a) a := by
  refine ⟨rfl, rfl, rfl, rfl, rfl, contiguous_layOutFrom a _, fun es hes => ?_⟩
  change List.Forall₂ Emission.Carried es (layOutFrom a d.trampoline.instructions)
  rw [hes]
  exact Emission.carried_layOutFrom a es

/-- The trampolines lie one behind the other from `a` on. -/
def Detour.Laid (a : Nat) : List Detour → Prop
  | [] => True
  | d :: rest => d.trampoline.address = some a ∧ Laid (a + d.trampoline.size) rest

/-- The detour of a point leads out of the function. -/
def PatchPoint.Detours (w : Width) (f : Function) (p : PatchPoint) (d : Detour) : Prop :=
  f.range.contains p.address = true ∧ ∃ protection, p.buildDetour w f protection = .ok d

namespace PatchSet

/-- Another detour behind those that have been placed. -/
def Placement.grow (c : Placement) (d : Detour) : Placement :=
  { c with
    taken := c.taken ++ [d.range], regionSize := c.regionSize + d.trampoline.size,
    placed := c.placed + 1 }

@[simp] theorem Placement.regionSize_grow (c : Placement) (d : Detour) :
    (c.grow d).regionSize = c.regionSize + d.trampoline.size := rfl

/-- Where the next trampoline goes. -/
def Placement.next (c : Placement) : Nat := c.regionBase + c.regionSize

theorem Placement.next_grow (c : Placement) (d : Detour) :
    (c.grow d).next = c.next + d.trampoline.size :=
  (Nat.add_assoc ..).symm

/-- A run over points that ends without a failure: the points that are kept, and the detours that
are placed on the way. -/
inductive Advances : Placement → List PatchPoint → Placement → List PatchPoint → List Detour → Prop
  | nil (c : Placement) : Advances c [] c [] []
  | other {c c' : Placement} {p : PatchPoint} {ps kept : List PatchPoint} {new : List Detour}
      (hother : concerns c.function p = false) (rest : Advances c ps c' kept new) :
      Advances c (p :: ps) c' (p :: kept) new
  | dropped {c c' : Placement} {p : PatchPoint} {ps kept : List PatchPoint} {new : List Detour}
      (hconcerns : concerns c.function p = true) (rest : Advances c ps c' kept new) :
      Advances c (p :: ps) c' kept new
  | placed {c c' : Placement} {p : PatchPoint} {ps kept : List PatchPoint} {new : List Detour}
      {d : Detour} (hconcerns : concerns c.function p = true)
      (hdetour : p.Detours c.width c.function d) (hapart : ∀ r ∈ c.taken, d.range.Apart r)
      (rest : Advances (c.grow d) ps c' kept new) :
      Advances c (p :: ps) c' (p.withProgress (.placed (d.placedAt c.next)) :: kept)
        (d.placedAt c.next :: new)

variable {c c' : Placement} {p q : PatchPoint} {ps kept : List PatchPoint} {new : List Detour}

theorem prepare_ok {r : AddressRange} (h : (prepare c).run p = .ok r q) :
    ∃ protection d, p.buildDetour c.width c.function protection = .ok d ∧ r = d.range ∧
      (∀ t ∈ c.taken, d.range.Apart t) ∧ q = p.withProgress (.generated d) := by
  unfold prepare at h
  rw [EStateM.run_bind] at h
  split at h
  · rename_i u p₁ hanalyze
    rw [EStateM.run_bind] at h
    split at h
    · rename_i u p₂ hgenerate
      obtain ⟨protection, -, rfl⟩ := PatchPoint.analyze_ok hanalyze
      obtain ⟨protection, d, -, hd, rfl⟩ := PatchPoint.generate_ok hgenerate
      simp only [EStateM.run_bind, EStateM.run_get] at h
      split at h
      · cases h
      · rename_i hfree
        cases h
        refine ⟨protection, d, hd, rfl, fun t ht => ?_, rfl⟩
        rw [Bool.not_eq_true, List.any_eq_false] at hfree
        have hover : ¬ d.range.overlaps t = true := hfree t ht
        exact AddressRange.overlaps_eq_false_iff.mp (Bool.eq_false_iff.mpr hover)
    · cases h
  · cases h

/-- Preparing a point that has no place does not give it one, even if it stops halfway. -/
theorem placedDetour?_of_prepare_error {e : PatchError} (hp : p.progress.placedDetour? = none)
    (h : (prepare c).run p = .error e q) : q.progress.placedDetour? = none := by
  unfold prepare at h
  rw [EStateM.run_bind] at h
  split at h
  · rename_i u p₁ hanalyze
    obtain ⟨protection, -, rfl⟩ := PatchPoint.analyze_ok hanalyze
    rw [EStateM.run_bind] at h
    split at h
    · rename_i u p₂ hgenerate
      obtain ⟨protection, d, -, -, rfl⟩ := PatchPoint.generate_ok hgenerate
      simp only [EStateM.run_bind, EStateM.run_get] at h
      split at h
      · cases h
        rfl
      · cases h
    · rename_i hgenerate
      cases h
      cases PatchPoint.generate_error hgenerate
      rfl
  · rename_i hanalyze
    cases h
    cases PatchPoint.analyze_error hanalyze
    exact hp

theorem requested_of_concerns {f : Function} (h : concerns f p = true) :
    p.progress = .requested := by
  simp only [concerns, Bool.and_eq_true, decide_eq_true_eq] at h
  cases hp : p.progress <;> simp [PatchPoint.stage, PatchProgress.stage, hp] at h ⊢

theorem placedDetour?_of_concerns {f : Function} (h : concerns f p = true) :
    p.progress.placedDetour? = none := by
  rw [requested_of_concerns h]
  rfl

/-- What has no place is not to be written. -/
theorem pending?_eq_none (h : p.progress.placedDetour? = none) : pending? p = none := by
  unfold pending?
  split
  · rename_i hplaced
    rw [hplaced] at h
    cases h
  · rfl

/-- The three things that can become of a point. -/
theorem advance_cases (c : Placement) (p : PatchPoint) :
    (concerns c.function p = false ∧ advance c p = (c, p, .kept)) ∨
    (concerns c.function p = true ∧ ∃ q e, q.progress.placedDetour? = none ∧ advance c p =
      (c, q, if PatchError.dropsPoint e then .dropped else .failed e)) ∨
    (concerns c.function p = true ∧ ∃ d, p.Detours c.width c.function d ∧
      (∀ r ∈ c.taken, d.range.Apart r) ∧
      advance c p = (c.grow d, p.withProgress (.placed (d.placedAt c.next)), .kept)) := by
  cases hconcerns : concerns c.function p with
  | false => exact .inl ⟨rfl, by simp [advance, hconcerns]⟩
  | true =>
      have hinside : c.function.range.contains p.address = true := by
        simp only [concerns, Bool.and_eq_true] at hconcerns
        exact hconcerns.2
      right
      cases hprepare : (prepare c).run p with
      | error e q =>
          refine .inl ⟨rfl, q, e, placedDetour?_of_prepare_error
            (placedDetour?_of_concerns hconcerns) hprepare, ?_⟩
          simp [advance, hconcerns, EStateM.run_bind, hprepare]
      | ok r q =>
          obtain ⟨protection, d, hd, rfl, hapart, rfl⟩ := prepare_ok hprepare
          refine .inr ⟨rfl, d, ⟨hinside, protection, hd⟩, hapart, ?_⟩
          have hplace : (PatchPoint.place (c.regionBase + c.regionSize)).run
              (p.withProgress (.generated d)) = .ok d.trampoline.size
                (p.withProgress (.placed (d.placedAt c.next))) := rfl
          simp only [advance, hconcerns, EStateM.run_bind, hprepare, hplace, EStateM.run_pure]
          rfl

/-- The points of a run that are kept. -/
def keptOf (done : List (PatchPoint × Verdict)) : List PatchPoint :=
  (done.filter fun (_, verdict) => verdict matches .kept).map Prod.fst

theorem advances_of_advanceAll (h : failure? (advanceAll c ps).2 = none) :
    ∃ new, Advances c ps (advanceAll c ps).1 (keptOf (advanceAll c ps).2) new := by
  induction ps generalizing c with
  | nil => exact ⟨[], .nil c⟩
  | cons p rest ih =>
      rw [advanceAll] at h ⊢
      rcases advance_cases c p with ⟨hother, hp⟩ | ⟨hconcerns, q, e, -, hp⟩ |
        ⟨hconcerns, d, hdetour, hapart, hp⟩
      · simp only [hp] at h ⊢
        obtain ⟨new, hnew⟩ := ih (by simpa [failure?] using h)
        exact ⟨new, by simpa [keptOf] using hnew.other hother⟩
      · simp only [hp] at h ⊢
        cases hdrops : e.dropsPoint with
        | true =>
            simp only [hdrops, if_true] at h ⊢
            obtain ⟨new, hnew⟩ := ih (by simpa [failure?] using h)
            exact ⟨new, by simpa [keptOf] using hnew.dropped hconcerns⟩
        | false =>
            simp [hdrops, failure?] at h
      · simp only [hp] at h ⊢
        obtain ⟨new, hnew⟩ := ih (by simpa [failure?] using h)
        exact ⟨d.placedAt c.next :: new, by
          simpa [keptOf] using Advances.placed hconcerns hdetour hapart hnew⟩

/-! What a run does to the placement, and what the new detours have to do with each other. -/

theorem Advances.placement (h : Advances c ps c' kept new) : c'.regionBase = c.regionBase ∧
    c'.regionSize = c.regionSize + (new.map fun d => d.trampoline.size).sum := by
  induction h with
  | nil c => simp
  | other _ _ ih => exact ih
  | dropped _ _ ih => exact ih
  | @placed c c' p ps kept new d _ _ _ _ ih =>
      obtain ⟨hbase, hsize⟩ := ih
      refine ⟨hbase, ?_⟩
      rw [hsize, List.map_cons, List.sum_cons, Detour.size_placedAt, Placement.regionSize_grow,
        Nat.add_assoc]

theorem Advances.laid (h : Advances c ps c' kept new) : Detour.Laid c.next new := by
  induction h with
  | nil c => trivial
  | other _ _ ih => exact ih
  | dropped _ _ ih => exact ih
  | @placed c c' p ps kept new d _ _ _ _ ih =>
      refine ⟨rfl, ?_⟩
      rwa [Detour.size_placedAt, ← Placement.next_grow]

theorem Advances.apart (h : Advances c ps c' kept new) :
    new.Pairwise (fun d e => d.range.Apart e.range) ∧
      ∀ d ∈ new, ∀ r ∈ c.taken, d.range.Apart r := by
  -- A detour that is placed is taken from then on, and so those behind it keep off it.
  induction h with
  | nil c => simp
  | other _ _ ih => exact ih
  | dropped _ _ ih => exact ih
  | @placed c c' p ps kept new d _ _ hapart _ ih =>
      obtain ⟨hpairs, htaken⟩ := ih
      have hbehind : ∀ e ∈ new, (d.placedAt c.next).range.Apart e.range := fun e he =>
        (htaken e he d.range (List.mem_append_right _ (List.mem_singleton.mpr rfl))).symm
      refine ⟨List.pairwise_cons.mpr ⟨hbehind, hpairs⟩, List.forall_mem_cons.mpr ⟨hapart, ?_⟩⟩
      exact fun e he r hr => htaken e he r (List.mem_append_left _ hr)

/-- The detours of the points that are kept are those from before and the new ones, whichever points
are looked at, as long as those that have just been placed are among them. -/
theorem Advances.perm_filterMap (h : Advances c ps c' kept new)
    (detour? : PatchPoint → Option Detour)
    (hrequested : ∀ p, p.progress = .requested → detour? p = none)
    (hplaced : ∀ (p : PatchPoint) d, detour? (p.withProgress (.placed d)) = some d) :
    (kept.filterMap detour?).Perm (ps.filterMap detour? ++ new) := by
  induction h with
  | nil c => exact List.Perm.refl _
  | @other c c' p ps kept new hother _ ih =>
      rw [List.filterMap_cons, List.filterMap_cons]
      cases detour? p with
      | none => exact ih
      | some d => exact ih.cons d
  | @dropped c c' p ps kept new hconcerns _ ih =>
      rw [List.filterMap_cons, hrequested p (requested_of_concerns hconcerns)]
      exact ih
  | @placed c c' p ps kept new d hconcerns _ _ _ ih =>
      rw [List.filterMap_cons, List.filterMap_cons, hrequested p (requested_of_concerns hconcerns),
        hplaced]
      exact (ih.cons _).trans List.perm_middle.symm

theorem Advances.perm (h : Advances c ps c' kept new) :
    (kept.filterMap pending?).Perm (ps.filterMap pending? ++ new) :=
  h.perm_filterMap pending? (fun p hp => by simp [pending?, hp]) fun _ _ => rfl

/-- A point that is kept was there before or has been given a new detour. -/
theorem Advances.mem_kept (h : Advances c ps c' kept new) : ∀ q ∈ kept, q ∈ ps ∨
    ∃ p ∈ ps, ∃ d a, p.Detours c.width c.function d ∧ d.placedAt a ∈ new ∧
      q = p.withProgress (.placed (d.placedAt a)) := by
  induction h with
  | nil c => simp
  | other _ _ ih =>
      refine List.forall_mem_cons.mpr ⟨.inl List.mem_cons_self, fun q hq => ?_⟩
      rcases ih q hq with hmem | ⟨p, hp, d, a, h⟩
      · exact .inl (List.mem_cons_of_mem _ hmem)
      · exact .inr ⟨p, List.mem_cons_of_mem _ hp, d, a, h⟩
  | dropped _ _ ih =>
      intro q hq
      rcases ih q hq with hmem | ⟨p, hp, d, a, h⟩
      · exact .inl (List.mem_cons_of_mem _ hmem)
      · exact .inr ⟨p, List.mem_cons_of_mem _ hp, d, a, h⟩
  | @placed c c' p ps kept new d _ hdetour _ _ ih =>
      refine List.forall_mem_cons.mpr
        ⟨.inr ⟨p, List.mem_cons_self, d, c.next, hdetour, List.mem_cons_self, rfl⟩,
          fun q hq => ?_⟩
      rcases ih q hq with hmem | ⟨p, hp, e, a, he, hnew, h⟩
      · exact .inl (List.mem_cons_of_mem _ hmem)
      · exact .inr ⟨p, List.mem_cons_of_mem _ hp, e, a, he, List.mem_cons_of_mem _ hnew, h⟩

theorem Advances.mem_new (h : Advances c ps c' kept new) :
    ∀ e ∈ new, ∃ (p : PatchPoint) (d : Detour) (a : Nat),
      p.Detours c.width c.function d ∧ e = d.placedAt a := by
  induction h with
  | nil c => simp
  | other _ _ ih => exact ih
  | dropped _ _ ih => exact ih
  | @placed c c' p ps kept new d _ hdetour _ _ ih =>
      exact List.forall_mem_cons.mpr ⟨⟨p, d, c.next, hdetour, rfl⟩, ih⟩

end PatchSet

/-- A detour lies in its function, and it is not empty. -/
theorem PatchPoint.Detours.range_subset {w : Width} {f : Function} {p : PatchPoint} {d : Detour}
    (h : p.Detours w f d) (hf : f.Digested) :
    (f.range.base ≤ d.range.base ∧ d.range.stop ≤ f.range.stop) ∧ 0 < d.range.size := by
  obtain ⟨-, protection, hd⟩ := h
  obtain ⟨hdisplaces, -⟩ := displaces_of_buildDetour hf hd
  have hstop : f.range.stop = f.base + f.bytes.length := by
    rw [AddressRange.stop, Function.range, hf.size_eq]
  exact ⟨⟨hdisplaces.base_le, hstop ▸ hdisplaces.stop_le⟩,
    Nat.lt_of_lt_of_le (by decide) hdisplaces.room⟩

theorem Detour.laid_append {a : Nat} {ds es : List Detour} : Laid a (ds ++ es) ↔
    Laid a ds ∧ Laid (a + (ds.map fun d => d.trampoline.size).sum) es := by
  induction ds generalizing a with
  | nil => simp [Laid]
  | cons d rest ih =>
      rw [List.cons_append, Laid, Laid, ih, List.map_cons, List.sum_cons, Nat.add_assoc, and_assoc]

namespace PatchSet

/-- The state of a set of points between instrumenting functions, those of `fs` so far: a point has
a detour out of one of them or no place yet, the trampolines fill the region one behind the other,
and no two detours touch. -/
structure Arranged (s : PatchSet) (fs : List Function) : Prop where
  progress : ∀ p ∈ s.points, p.progress.placedDetour? = none ∨
    ∃ f ∈ fs, ∃ d a, p.Detours s.width f d ∧ p.progress = .placed (d.placedAt a)
  laid : ∃ order, order.Perm (s.points.filterMap pending?) ∧ Detour.Laid s.regionBase order ∧
    (order.map fun d => d.trampoline.size).sum = s.regionSize
  apart : (s.points.filterMap pending?).Pairwise fun d e => d.range.Apart e.range

variable {s s' : PatchSet} {f : Function} {l : Liveness} {fs : List Function}

/-- Where placing the points of a function starts. -/
def initial (s : PatchSet) (f : Function) (l : Liveness) : Placement :=
  { width := s.width, function := f, liveness := l, regionBase := s.regionBase,
    regionSize := s.regionSize, taken := takenIn f (s.points.mergeSort precedes) }

/-- Instrumenting a function is a run over the points in the order of their addresses. -/
theorem instrument_ok {n : Nat} (h : (instrument f l).run s = .ok n s') :
    ∃ c new, Advances (s.initial f l) (s.points.mergeSort precedes) c s'.points new ∧
      s'.regionSize = c.regionSize ∧ s'.width = s.width ∧ s'.regionBase = s.regionBase := by
  simp only [instrument, EStateM.run_bind, EStateM.run_get] at h
  split at h
  · cases h
  · rename_i hnone
    cases h
    obtain ⟨new, hnew⟩ := advances_of_advanceAll hnone
    exact ⟨_, new, hnew, rfl, rfl, rfl⟩

/-- Nothing that was arranged is disturbed by instrumenting another function. -/
theorem Arranged.instrument {n : Nat} (hs : s.Arranged fs) (hfs : ∀ g ∈ fs, g.Digested)
    (hf : f.Digested) (hdisjoint : ∀ g ∈ fs, g.range.Disjoint f.range)
    (h : (PatchSet.instrument f l).run s = .ok n s') :
    s'.Arranged (f :: fs) ∧ s'.width = s.width ∧ s'.regionBase = s.regionBase := by
  obtain ⟨c, new, hadvances, hsize, hwidth, hbase⟩ := instrument_ok h
  have hpoints : (s.points.mergeSort precedes).Perm s.points := List.mergeSort_perm ..
  have hpending : (s'.points.filterMap pending?).Perm (s.points.filterMap pending? ++ new) :=
    hadvances.perm.trans ((hpoints.filterMap pending?).append_right new)
  refine ⟨⟨fun q hq => ?_, ?_, ?_⟩, hwidth, hbase⟩
  · rcases hadvances.mem_kept q hq with hmem | ⟨p, -, d, a, hdetour, -, rfl⟩
    · rcases hs.progress q (hpoints.mem_iff.mp hmem) with hnone | ⟨g, hg, d, a, hd, hplaced⟩
      · exact .inl hnone
      · exact .inr ⟨g, List.mem_cons_of_mem _ hg, d, a, hwidth ▸ hd, hplaced⟩
    · exact .inr ⟨f, List.mem_cons_self, d, a, hwidth ▸ hdetour, rfl⟩
  · obtain ⟨order, horder, hlaid, hsum⟩ := hs.laid
    refine ⟨order ++ new, (horder.append_right new).trans hpending.symm, ?_, ?_⟩
    · rw [hbase, Detour.laid_append, hsum]
      exact ⟨hlaid, hadvances.laid⟩
    · rw [List.map_append, List.sum_append, hsum, hsize, hadvances.placement.2]
      rfl
  · rw [hpending.pairwise_iff fun h => AddressRange.Apart.symm h, List.pairwise_append]
    refine ⟨hs.apart, hadvances.apart.1, fun d hd e he => ?_⟩
    -- The old detour lies in another function than the new one.
    obtain ⟨p, hp, hpd⟩ := List.mem_filterMap.mp hd
    obtain ⟨q, e, a, hdetour, rfl⟩ := hadvances.mem_new e he
    obtain ⟨hnew, hnewpos⟩ := hdetour.range_subset hf
    rcases hs.progress p hp with hnone | ⟨g, hg, d', b, hd', hplaced⟩
    · rw [pending?_eq_none hnone] at hpd
      cases hpd
    · simp only [pending?, hplaced, Option.some.injEq] at hpd
      subst hpd
      obtain ⟨hold, holdpos⟩ := hd'.range_subset (hfs g hg)
      exact (hdisjoint g hg).apart hold hnew holdpos hnewpos

/-- Instruments functions one after the other, each with what is live in it. -/
def instrumentEach (fs : List (Function × Liveness)) : EStateM PatchError PatchSet Unit :=
  fs.forM fun (f, l) => do let _ ← PatchSet.instrument f l

theorem Arranged.instrumentEach {gs : List (Function × Liveness)} (hs : s.Arranged fs)
    (hfs : ∀ g ∈ fs, g.Digested) (hgs : ∀ g ∈ gs, g.1.Digested)
    (hdisjoint : ∀ f ∈ fs, ∀ g ∈ gs, f.range.Disjoint g.1.range)
    (hpairs : gs.Pairwise fun f g => f.1.range.Disjoint g.1.range)
    (h : (PatchSet.instrumentEach gs).run s = .ok () s') :
    s'.Arranged ((gs.map Prod.fst).reverse ++ fs) ∧ s'.width = s.width ∧
      s'.regionBase = s.regionBase := by
  -- With each function the functions that detours may go out of become one more.
  induction gs generalizing s fs with
  | nil =>
      cases h
      exact ⟨hs, rfl, rfl⟩
  | cons g rest ih =>
      obtain ⟨f, l⟩ := g
      rw [PatchSet.instrumentEach, List.forM_eq_forM, List.forM_cons, EStateM.run_bind] at h
      split at h
      · rename_i u next hnext
        obtain ⟨n, hn⟩ : ∃ n, (PatchSet.instrument f l).run s = .ok n next := by
          rw [EStateM.run_bind] at hnext
          split at hnext
          · rename_i n t ht
            cases hnext
            exact ⟨n, ht⟩
          · cases hnext
        obtain ⟨hhead, hrest⟩ := List.pairwise_cons.mp hpairs
        obtain ⟨hf, hgs⟩ := List.forall_mem_cons.mp hgs
        obtain ⟨hnext', hwidth, hbase⟩ :=
          hs.instrument hfs hf (fun g hg => hdisjoint g hg _ List.mem_cons_self) hn
        obtain ⟨hfinal, hwidth', hbase'⟩ := ih hnext' (List.forall_mem_cons.mpr ⟨hf, hfs⟩) hgs
          (List.forall_mem_cons.mpr ⟨fun g hg => hhead g hg,
            fun f hf g hg => hdisjoint f hf g (List.mem_cons_of_mem _ hg)⟩) hrest h
        refine ⟨?_, hwidth'.trans hwidth, hbase'.trans hbase⟩
        simpa using hfinal
      · cases h

end PatchSet

end BinTrace
