import BinTrace.Proofs.Patch.Rewrite

/-!
What instrumenting a function does to a set of points, whether it succeeds or fails. Points that
have a place keep it, and those that have got one lie behind the trampolines from before and off
the ranges that are taken in the function.
-/

namespace BinTrace

open Outcome

namespace PatchSet

/-- The trampoline of the point lies somewhere. -/
def hasPlace (p : PatchPoint) : Bool := p.progress.placedDetour?.isSome

theorem hasPlace_eq_false {p : PatchPoint} (h : p.progress.placedDetour? = none) :
    ¬ hasPlace p = true := by
  simp [hasPlace, h]

theorem detour?_of_placedDetour? {progress : PatchProgress} {d : Detour}
    (h : progress.placedDetour? = some d) : progress.detour? = some d := by
  cases progress <;> first | exact h | cases h

theorem mem_filter_hasPlace {p : PatchPoint} {ps : List PatchPoint} {d : Detour}
    (hd : p.progress.placedDetour? = some d) : p ∈ ps.filter hasPlace ↔ p ∈ ps := by
  simp [List.mem_filter, hasPlace, hd]

theorem filterMap_filter_hasPlace (ps : List PatchPoint) :
    (ps.filter hasPlace).filterMap (fun p => p.progress.placedDetour?) =
      ps.filterMap fun p => p.progress.placedDetour? := by
  rw [List.filterMap_filter]
  congr 1
  funext p
  cases hp : p.progress.placedDetour? <;> simp [hasPlace, hp]

/-- A run over points up to its end or to a failure: all points in front of the failure are taken
on, and of the points with a place none is lost. -/
theorem exists_advances (c : Placement) (ps : List PatchPoint) : ∃ front rest kept new,
    ps = front ++ rest ∧ Advances c front (advanceAll c ps).1 kept new ∧
      ((advanceAll c ps).2.map Prod.fst).filter hasPlace = (kept ++ rest).filter hasPlace := by
  induction ps generalizing c with
  | nil => exact ⟨[], [], [], [], rfl, .nil c, rfl⟩
  | cons p ps ih =>
      rw [advanceAll]
      rcases advance_cases c p with ⟨hother, hp⟩ | ⟨hconcerns, q, e, hq, hp⟩ |
        ⟨hconcerns, d, hdetour, hapart, hp⟩
      · obtain ⟨front, rest, kept, new, hsplit, hadvances, hfilter⟩ := ih c
        refine ⟨p :: front, rest, p :: kept, new, by rw [hsplit]; rfl, ?_, ?_⟩
        · simpa only [hp] using hadvances.other hother
        · simp only [hp, List.map_cons, List.cons_append, List.filter_cons, hfilter]
      · cases hdrops : e.dropsPoint with
        | true =>
            obtain ⟨front, rest, kept, new, hsplit, hadvances, hfilter⟩ := ih c
            refine ⟨p :: front, rest, kept, new, by rw [hsplit]; rfl, ?_, ?_⟩
            · simpa only [hp, hdrops, if_true] using hadvances.dropped hconcerns
            · simp only [hp, hdrops, if_true, List.map_cons,
                List.filter_cons_of_neg (hasPlace_eq_false hq), hfilter]
        | false =>
            -- Neither the point that failed nor what it has become has a place.
            have hsame : (ps.map fun q => (q, Verdict.kept)).map Prod.fst = ps := by
              simp [Function.comp_def]
            refine ⟨[], p :: ps, [], [], rfl, ?_, ?_⟩
            · simpa only [hp, hdrops, Bool.false_eq_true, if_false] using Advances.nil c
            · simp only [hp, hdrops, Bool.false_eq_true, if_false, List.map_cons, List.nil_append,
                hsame, List.filter_cons_of_neg (hasPlace_eq_false hq),
                List.filter_cons_of_neg (hasPlace_eq_false (placedDetour?_of_concerns hconcerns))]
      · obtain ⟨front, rest, kept, new, hsplit, hadvances, hfilter⟩ := ih (c.grow d)
        refine ⟨p :: front, rest, p.withProgress (.placed (d.placedAt c.next)) :: kept,
          d.placedAt c.next :: new, by rw [hsplit]; rfl, ?_, ?_⟩
        · simpa only [hp] using Advances.placed hconcerns hdetour hapart hadvances
        · simp only [hp, List.map_cons, List.cons_append, List.filter_cons, hfilter]

/-- What instrumenting a function does to a set of points: the detours of `new` come in. -/
structure Grows (s s' : PatchSet) (f : Function) (new : List Detour) : Prop where
  width_eq : s'.width = s.width
  regionBase_eq : s'.regionBase = s.regionBase
  regionSize_eq : s'.regionSize = s.regionSize + (new.map fun d => d.trampoline.size).sum
  detours_perm : s'.detours.Perm (s.detours ++ new)
  /-- A point with a place had it before or has been given it for the function. -/
  placed_from : ∀ q ∈ s'.points, ∀ e, q.progress.placedDetour? = some e → q ∈ s.points ∨
    ∃ p ∈ s.points, ∃ d a, p.Detours s.width f d ∧ e = d.placedAt a ∧
      q = p.withProgress (.placed e)
  built : ∀ e ∈ new, ∃ (p : PatchPoint) (d : Detour) (a : Nat),
    p.Detours s.width f d ∧ e = d.placedAt a
  laid : Detour.Laid (s.regionBase + s.regionSize) new
  apart : new.Pairwise fun d e => d.range.Apart e.range
  /-- Only ranges that begin in the function count as taken. -/
  apart_taken : ∀ d ∈ s.detours, f.range.contains d.site = true →
    ∀ e ∈ new, e.range.Apart d.range

variable {s s' : PatchSet} {f : Function} {l : Liveness}

theorem Grows.of_advances {c : Placement} {front rest kept : List PatchPoint} {new : List Detour}
    (hsplit : s.points.mergeSort precedes = front ++ rest)
    (hadvances : Advances (s.initial f l) front c kept new)
    (hpoints : s'.points.filter hasPlace = (kept ++ rest).filter hasPlace)
    (hsize : s'.regionSize = c.regionSize) (hwidth : s'.width = s.width)
    (hbase : s'.regionBase = s.regionBase) : s.Grows s' f new := by
  have hsorted : (front ++ rest).Perm s.points := hsplit ▸ List.mergeSort_perm ..
  have hmem {p : PatchPoint} (hp : p ∈ front ∨ p ∈ rest) : p ∈ s.points :=
    hsorted.mem_iff.mp (List.mem_append.mpr hp)
  refine ⟨hwidth, hbase, ?_, ?_, fun q hq e he => ?_, hadvances.mem_new, hadvances.laid,
    hadvances.apart.1, fun d hd hin e he => ?_⟩
  · rw [hsize, hadvances.placement.2]
    rfl
  · have hkept := hadvances.perm_filterMap (fun p => p.progress.placedDetour?)
      (fun p hp => by rw [hp]; rfl) fun p d => rfl
    have hall : s'.detours = kept.filterMap (fun p => p.progress.placedDetour?) ++
        rest.filterMap fun p => p.progress.placedDetour? := by
      rw [detours, ← filterMap_filter_hasPlace, hpoints, filterMap_filter_hasPlace,
        List.filterMap_append]
    have hold : (front.filterMap (fun p => p.progress.placedDetour?) ++
        rest.filterMap fun p => p.progress.placedDetour?).Perm s.detours := by
      rw [← List.filterMap_append]
      exact hsorted.filterMap _
    rw [hall]
    refine (hkept.append_right _).trans (List.Perm.trans ?_ (hold.append_right new))
    rw [List.append_assoc, List.append_assoc]
    exact List.perm_append_comm.append_left _
  · have hfiltered := (mem_filter_hasPlace he).mpr hq
    rw [hpoints, mem_filter_hasPlace he, List.mem_append] at hfiltered
    rcases hfiltered with hkept | hrest
    · rcases hadvances.mem_kept q hkept with hfront | ⟨p, hp, d, a, hdetour, -, rfl⟩
      · exact .inl (hmem (.inl hfront))
      · cases he
        exact .inr ⟨p, hmem (.inl hp), d, a, hdetour, rfl, rfl⟩
    · exact .inl (hmem (.inr hrest))
  · refine hadvances.apart.2 e he d.range ?_
    obtain ⟨p, hp, hpd⟩ := List.mem_filterMap.mp hd
    refine List.mem_filterMap.mpr ⟨p, List.mem_mergeSort.mpr hp, ?_⟩
    rw [detour?_of_placedDetour? hpd, Option.map_some]
    exact Option.filter_some_pos hin

theorem exists_grows (h : Leaves (instrument f l) s s') : ∃ new, s.Grows s' f new := by
  rcases h with ⟨n, h⟩ | ⟨e, h⟩
  · obtain ⟨c, new, hadvances, hsize, hwidth, hbase⟩ := instrument_ok h
    have hsplit : s.points.mergeSort precedes = s.points.mergeSort precedes ++ [] := by simp
    exact ⟨new, .of_advances hsplit hadvances (by simp) hsize hwidth hbase⟩
  · simp only [instrument, EStateM.run_bind, EStateM.run_get] at h
    split at h
    · cases h
      obtain ⟨front, rest, kept, new, hsplit, hadvances, hfilter⟩ :=
        exists_advances (s.initial f l) (s.points.mergeSort precedes)
      exact ⟨new, .of_advances hsplit hadvances hfilter rfl rfl rfl⟩
    · cases h

end PatchSet

end BinTrace
