import BinTrace.Proofs.Patch.Dumps
import BinTrace.Proofs.Patch.InFunction

/-!
Two ways to patch. The jumps to the trampolines are written into a text, or put into the flow graphs
of the functions that lie in it; either way the functions end up with the same bytes.
-/

namespace BinTrace

open Outcome

namespace Function

variable {fs : List Function} {f g : Function} {a : Nat}

/-- Functions that have no address in common are told apart by one that they have. -/
theorem eq_of_contains (hdisjoint : fs.Pairwise fun f g => f.range.Disjoint g.range) (hf : f ∈ fs)
    (hg : g ∈ fs) (hfa : f.range.contains a = true) (hga : g.range.contains a = true) : f = g := by
  by_contra hne
  have hsymm : Std.Symm fun f g : Function => f.range.Disjoint g.range := ⟨fun _ _ h => h.symm⟩
  rw [hdisjoint.forall hf hg hne a hfa] at hga
  cases hga

end Function

namespace Detour

variable {fs : List Function} {f : Function} {d e : Detour} {a : Nat}

/-- What lies in the range of a detour lies in its function. -/
theorem Displaces.contains (h : d.Displaces f) (hf : f.Digested) (ha : d.range.contains a = true) :
    f.range.contains a = true := by
  have hbase := h.base_le
  have hstop := h.stop_le
  simp only [AddressRange.contains_iff, Function.range, hf.size_eq, range] at ha ⊢
  omega

theorem Displaces.contains_site (h : d.Displaces f) (hf : f.Digested) :
    f.range.contains d.site = true := by
  have hpos : 0 < totalSize d.displaced := Nat.lt_of_lt_of_le (by decide) h.room
  refine h.contains hf ((AddressRange.contains_iff ..).mpr ⟨Nat.le_refl _, ?_⟩)
  exact Nat.lt_add_of_pos_right hpos

/-- No detour straddles functions that have no address in common. -/
theorem Clear.apart_of_disjoint (hfs : ∀ f ∈ fs, f.Digested)
    (hdisjoint : fs.Pairwise fun f g => f.range.Disjoint g.range) (h : d.Clear fs e) :
    d.range.Apart e.range := by
  refine h.apart_of_not_straddles fun d e => ?_
  rintro ⟨g, hg, f, hf, hdg, hef, hbefore, hbehind⟩
  have hin : g.range.contains f.base = true := by
    refine hdg.contains (hfs g hg) ?_
    rw [AddressRange.contains_iff]
    exact ⟨Nat.le_of_lt hbefore, hbehind⟩
  have hfirst : f.range.contains f.base = true := by
    have hsite := hef.contains_site (hfs f hf)
    rw [AddressRange.contains_iff] at hsite ⊢
    exact ⟨Nat.le_refl _, Nat.lt_of_le_of_lt hef.base_le hsite.2⟩
  obtain rfl := Function.eq_of_contains hdisjoint hg hf hin hfirst
  exact absurd hdg.base_le (Nat.not_le.mpr hbefore)

end Detour

/-- What a buffer holds is found at its address. -/
theorem Write.Holds.getElem?_eq {base : Nat} {buffer : List UInt8} {w : Write}
    (h : w.Holds base buffer) {a : Nat} (ha : w.range.contains a = true) :
    buffer[a - base]? = w.bytes[a - w.address]? := by
  rw [AddressRange.contains_iff] at ha
  obtain ⟨hlow, hhigh⟩ : w.address ≤ a ∧ a < w.address + w.bytes.length := ha
  have hbase := h.base_le
  rw [← h.bytes_eq (a - w.address) (by omega)]
  congr 1
  omega

/-- Two buffers with the jump of a detour have the same bytes in the range of the detour. -/
theorem Detour.Jumps.getElem?_eq {d : Detour} {base base' a : Nat} {text text' : List UInt8}
    (h : d.Jumps base text) (h' : d.Jumps base' text') (hroom : Encode.jumpSize ≤ d.range.size)
    (ha : d.range.contains a = true) : text[a - base]? = text'[a - base']? := by
  obtain ⟨patch, hpatch, hholds⟩ := h
  obtain ⟨_, hsame, hholds'⟩ := h'
  cases hpatch.symm.trans hsame
  have hrange : (d.siteWrite patch).range = d.range :=
    congrArg (AddressRange.mk d.site) (PatchSet.length_sitePatch hpatch hroom)
  rw [hholds.getElem?_eq (hrange ▸ ha), hholds'.getElem?_eq (hrange ▸ ha)]

/-- The bytes of a text at `base` that lie in the range of the function. -/
def Function.slice (f : Function) (base : Nat) (text : List UInt8) : List UInt8 :=
  (text.drop (f.base - base)).take f.size

namespace Function

variable {f : Function} {base a : Nat} {bytes text : List UInt8}

theorem getElem?_slice (hbase : base ≤ f.base) (ha : f.range.contains a = true) :
    (f.slice base text)[a - f.base]? = text[a - base]? := by
  rw [AddressRange.contains_iff] at ha
  obtain ⟨hlow, hhigh⟩ : f.base ≤ a ∧ a < f.base + f.size := ha
  rw [slice, List.getElem?_take_of_lt (by omega), List.getElem?_drop]
  congr 1
  omega

/-- Bytes are the slice of a text for a function if they are as many and the two agree at each
address of the function. -/
theorem eq_slice (hbase : base ≤ f.base) (hlength : bytes.length = f.size)
    (h : ∀ a, f.range.contains a = true → bytes[a - f.base]? = text[a - base]?) :
    bytes = f.slice base text := by
  refine List.ext_getElem? fun n => ?_
  by_cases hn : n < f.size
  · have ha : f.range.contains (f.base + n) = true :=
      (AddressRange.contains_iff ..).mpr ⟨Nat.le_add_right _ _, Nat.add_lt_add_left hn _⟩
    have hsame := (h _ ha).trans (getElem?_slice hbase ha).symm
    rwa [Nat.add_sub_cancel_left] at hsame
  · rw [slice, List.getElem?_take_eq_none (by omega), List.getElem?_eq_none (by omega)]

theorem LiesIn.dump_eq_slice (h : f.LiesIn base text) (hf : f.Digested) :
    f.dump = f.slice base text := by
  have hdrop : text.drop (f.base - base) = f.bytes ++ text.drop (f.base - base + f.bytes.length) :=
    h.drop_eq
  rw [slice, hdrop, hf.size_eq, List.take_left, hf.dump_eq]

end Function

namespace PatchSet

variable {w : Width} {regionBase base : Nat} {fs : List Function} {s s' : PatchSet} {f : Function}
  {text₀ text text' region : List UInt8}

/-- How many points in the range of the function have a place. -/
def countIn (s : PatchSet) (f : Function) : Nat :=
  s.points.countP fun p => hasPlace p && f.range.contains p.address

/-- A point with a place belongs to one function, and so do its site and what it displaces. -/
theorem Sound.exists_owner (h : s.Sound w regionBase fs) (hfs : ∀ f ∈ fs, f.Digested)
    (hdisjoint : fs.Pairwise fun f g => f.range.Disjoint g.range) {p : PatchPoint}
    (hp : p ∈ s.points) {e : Detour} (he : p.progress.placedDetour? = some e) :
    ∃ g ∈ fs, (∃ d a, p.Detours w g d ∧ d.LaidFrom e a) ∧ ∀ f ∈ fs,
      (f.range.contains p.address = true ↔ f = g) ∧ (f.range.contains e.site = true ↔ f = g) ∧
      ∀ a, e.range.contains a = true → f.range.contains a = true → f = g := by
  obtain ⟨g, hg, d, a, hdetour, hlaid⟩ := h.built p hp e he
  obtain ⟨hdisplaces, -⟩ := hdetour.displaces (hfs g hg) hlaid
  have hown {f : Function} (hf : f ∈ fs) {a : Nat} (hga : g.range.contains a = true) :
      f.range.contains a = true ↔ f = g :=
    ⟨fun hfa => Function.eq_of_contains hdisjoint hf hg hfa hga, fun heq => heq ▸ hga⟩
  refine ⟨g, hg, ⟨d, a, hdetour, hlaid⟩, fun f hf => ⟨hown hf hdetour.1,
    hown hf (hdisplaces.contains_site (hfs g hg)), fun a ha => ?_⟩⟩
  exact (hown hf (hdisplaces.contains (hfs g hg) ha)).mp

/-- The detours that begin in the function. -/
def detoursIn (s : PatchSet) (f : Function) : List Detour :=
  s.detours.filter fun d => f.range.contains d.site

/-- The detours that begin in a function are those of its points. -/
theorem Sound.length_detoursIn (h : s.Sound w regionBase fs) (hfs : ∀ f ∈ fs, f.Digested)
    (hdisjoint : fs.Pairwise fun f g => f.range.Disjoint g.range) (hf : f ∈ fs) :
    (s.detoursIn f).length = s.countIn f := by
  rw [detoursIn, ← List.countP_eq_length_filter, detours, List.countP_filterMap, countIn]
  refine List.countP_congr fun p hp => ?_
  cases he : p.progress.placedDetour? with
  | none => simp [hasPlace, he]
  | some e =>
      obtain ⟨g, -, -, hown⟩ := h.exists_owner hfs hdisjoint hp he
      obtain ⟨haddress, hsite, -⟩ := hown f hf
      simp [hasPlace, he, haddress, hsite]

/-- A detour that reaches into a function begins in it. -/
theorem Sound.mem_detoursIn (h : s.Sound w regionBase fs) (hfs : ∀ f ∈ fs, f.Digested)
    (hdisjoint : fs.Pairwise fun f g => f.range.Disjoint g.range) (hf : f ∈ fs) {d : Detour}
    (hd : d ∈ s.detours) {a : Nat} (hda : d.range.contains a = true)
    (ha : f.range.contains a = true) : d ∈ s.detoursIn f := by
  obtain ⟨p, hp, hpd⟩ := List.mem_filterMap.mp hd
  obtain ⟨g, -, -, hown⟩ := h.exists_owner hfs hdisjoint hp hpd
  obtain ⟨-, hsite, hinside⟩ := hown f hf
  exact List.mem_filter.mpr ⟨hd, hsite.mpr (hinside a hda ha)⟩

theorem run_patchFunction {f' : Function}
    (h : ((s.detoursIn f).forM patchSite).run f = .ok () f') :
    (patchFunction s).run f = .ok (s.detoursIn f).length f' := by
  unfold detoursIn detours at h ⊢
  simp only [patchFunction, EStateM.run_bind, EStateM.run_get, h]
  rfl

/-- Linking trampolines makes no difference to where the jumps go. -/
theorem forM_patchSite_of_relinked {ds es : List Detour} (h : List.Forall₂ Detour.Relinked ds es) :
    es.forM patchSite = ds.forM patchSite := by
  induction h with
  | nil => rfl
  | @cons d e ds es hde _ ih =>
      obtain ⟨hsite, -, haddress, -⟩ := hde.frame
      have hfirst : patchSite e = patchSite d := by
        simp only [patchSite, siteJump, hsite, haddress]
      simp only [List.forM_eq_forM] at ih ⊢
      rw [List.forM_cons, List.forM_cons, hfirst, ih]

theorem detoursIn_of_relinked (h : List.Forall₂ Detour.Relinked s.detours s'.detours)
    (f : Function) : List.Forall₂ Detour.Relinked (s.detoursIn f) (s'.detoursIn f) := by
  refine List.rel_filter (fun d e hde => ?_) h
  change f.range.contains d.site = true ↔ f.range.contains e.site = true
  rw [hde.frame.1]

/-- The states after runs in which writing out has not failed, with the text that was written to. It
was `text₀` at first. -/
inductive ReachedFrom (w : Width) (regionBase base : Nat) (fs : List Function)
    (text₀ : List UInt8) : PatchSet → List UInt8 → Prop
  | start : ReachedFrom w regionBase base fs text₀ { width := w, regionBase } text₀
  | add {s : PatchSet} {text : List UInt8} {p : PatchPoint}
      (hp : p.progress.placedDetour? = none) (h : ReachedFrom w regionBase base fs text₀ s text) :
      ReachedFrom w regionBase base fs text₀ (s.add p) text
  | instrument {s s' : PatchSet} {text : List UInt8} {f : Function} {l : Liveness} (hf : f ∈ fs)
      (hrun : Leaves (PatchSet.instrument f l) s s')
      (h : ReachedFrom w regionBase base fs text₀ s text) :
      ReachedFrom w regionBase base fs text₀ s' text
  | dump {s s' : PatchSet} {text text' region : List UInt8}
      (hdump : s.dump text base = ⟨s', text', .ok region⟩)
      (h : ReachedFrom w regionBase base fs text₀ s text) :
      ReachedFrom w regionBase base fs text₀ s' text'

theorem ReachedFrom.reached (h : ReachedFrom w regionBase base fs text₀ s text) :
    Reached w regionBase base fs false s text := by
  induction h with
  | start => exact .start text₀
  | add hp _ ih => exact .add hp ih
  | instrument hf hrun _ ih => exact .instrument hf hrun ih
  | dump hdump _ ih => exact .dump hdump ih

/-- Whatever has been written out, the text is as it was outside of what is displaced. -/
theorem ReachedFrom.frame (hfs : ∀ f ∈ fs, f.Digested)
    (h : ReachedFrom w regionBase base fs text₀ s text) {n : Nat}
    (hn : ∀ d ∈ s.detours, d.range.contains (base + n) = false) : text[n]? = text₀[n]? := by
  induction h with
  | start => rfl
  | add hp _ ih => exact ih (detours_add hp ▸ hn)
  | instrument _ hrun _ ih =>
      obtain ⟨new, hnew⟩ := exists_grows hrun
      exact ih fun d hd => hn d (hnew.detours_perm.mem_iff.mpr (List.mem_append_left _ hd))
  | @dump s s' text text' region hdump h ih =>
      have hout : ∀ d ∈ s.detours, d.range.contains (base + n) = false := by
        intro d hd
        obtain ⟨e, he, hde⟩ := (exists_mem_of_forall₂ (relinked_of_dump hdump)).1 d hd
        rw [← hde.frame.2.1]
        exact hn e he
      obtain ⟨sites, points, hsites, -, hpatches, -⟩ := dump_ok hdump
      obtain ⟨-, hsame, -⟩ := text_ok hsites
        (fun d hd => (h.reached.sound hfs).room hfs d (mem_detours_of_pending hd)) hpatches
      exact (hsame n fun d hd => hout d (mem_detours_of_pending hd)).trans (ih hout)

/-- A call that succeeds leaves no point that has a place and has not been written. -/
theorem dumped_of_dump (hdump : s.dump text base = ⟨s', text', .ok region⟩) :
    ∀ p ∈ s'.points, ∀ d, p.progress.placedDetour? = some d → p.progress = .dumped d := by
  intro q hq e he
  obtain ⟨sites, points, -, hpoints, -, rfl⟩ := dump_ok hdump
  obtain ⟨hwritten, -⟩ := dumpPoints_ok hpoints
  obtain ⟨p, hp, hpq⟩ := (exists_mem_of_forall₂ hwritten).2 q hq
  cases hpq with
  | same hpending =>
      cases hprogress : q.progress with
      | dumped d =>
          rw [hprogress] at he
          obtain rfl := Option.some.inj he
          rfl
      | placed d => simp [pending?, hprogress] at hpending
      | _ => simp [hprogress, PatchProgress.placedDetour?] at he
  | dumped hplaced hlinked =>
      obtain rfl := Option.some.inj he
      rfl

/-- After a call that succeeds, the text has the jumps of all detours. -/
theorem ReachedFrom.jumps (hfs : ∀ f ∈ fs, f.Digested) (hapart : s'.KeepsApart)
    (h : ReachedFrom w regionBase base fs text₀ s text)
    (hdump : s.dump text base = ⟨s', text', .ok region⟩) :
    ∀ d ∈ s'.detours, d.Jumps base text' := by
  intro d hd
  obtain ⟨p, hp, hpd⟩ := List.mem_filterMap.mp hd
  exact (h.dump hdump).reached.jumps hfs rfl hapart p hp d (dumped_of_dump hdump p hp d hpd)

/-- Patching a function succeeds if all jumps out of it can be encoded, and it does to the bytes of
the function what the jumps say. -/
theorem Sound.exists_patched (h : s.Sound w regionBase fs) (hfs : ∀ f ∈ fs, f.Digested)
    (hdisjoint : fs.Pairwise fun f g => f.range.Disjoint g.range) (hapart : s.KeepsApart)
    (hjumps : ∀ d ∈ s.detours, d.Jumps base text) (hf : f ∈ fs) :
    ∃ f', ((s.detoursIn f).forM patchSite).run f = .ok () f' ∧ f'.dump.length = f.size ∧
      (∀ n, (∀ d ∈ s.detoursIn f, d.range.contains (f.base + n) = false) →
        f'.dump[n]? = f.dump[n]?) ∧
      ∀ d ∈ s.detoursIn f, d.Jumps f.base f'.dump := by
  obtain ⟨g, hgraph, hbase, hwf, hlaid⟩ := (hfs f hf).laidOut
  have hstands : ∀ e ∈ s.detoursIn f, e.StandsIn g := by
    intro e he
    obtain ⟨he, hin⟩ := List.mem_filter.mp he
    obtain ⟨p, hp, hpe⟩ := List.mem_filterMap.mp he
    obtain ⟨owner, -, ⟨d, a, hdetour, hplace⟩, hown⟩ := h.exists_owner hfs hdisjoint hp hpe
    obtain rfl := (hown f hf).2.1.mp hin
    exact hdetour.standsIn hplace hgraph hwf hlaid
  have hpatches : ∀ d ∈ s.detoursIn f, ∃ patch, sitePatch d = .ok patch := fun d hd =>
    let ⟨patch, hpatch, _⟩ := hjumps d (List.mem_of_mem_filter hd)
    ⟨patch, hpatch⟩
  have hpairs := List.Pairwise.filter (fun d => f.range.contains d.site) hapart
  obtain ⟨g', sites, hrun, hsites, hwrites⟩ :=
    PatchSet.exists_patched hgraph hlaid hstands hpairs hpatches
  have hdump : g.dump = f.dump := by
    rw [Function.dump, hgraph]
    rfl
  rw [hdump, hbase] at hwrites
  obtain ⟨hlength, hsame, hpatched⟩ :=
    text_ok hsites (fun d hd => h.room hfs d (List.mem_of_mem_filter hd)) hwrites
  have hsize : f.dump.length = f.size := by
    rw [(hfs f hf).dump_eq, (hfs f hf).size_eq]
  exact ⟨_, hrun, hlength.trans hsize, hsame, hpatched hpairs⟩

/-- Patching a function gives what patching the text gives. Let functions that have no address in
common have their bytes in a text, and let points be placed in them. If writing out succeeds, then
each of the functions can be patched, before as well as after, with a jump for each of its points
that has a place, and its bytes then are the ones at its addresses in the text. -/
theorem patchFunction_agrees (hfs : ∀ f ∈ fs, f.Digested)
    (hdisjoint : fs.Pairwise fun f g => f.range.Disjoint g.range)
    (htext : ∀ f ∈ fs, base ≤ f.base ∧ f.dump = f.slice base text₀)
    (h : ReachedFrom w regionBase base fs text₀ s text)
    (hdump : s.dump text base = ⟨s', text', .ok region⟩) (hf : f ∈ fs) :
    ∃ f', (patchFunction s).run f = .ok (s.countIn f) f' ∧
      (patchFunction s').run f = .ok (s.countIn f) f' ∧ f'.dump = f.slice base text' := by
  obtain ⟨hbase, hslice⟩ := htext f hf
  have hsound := (h.dump hdump).reached.sound hfs
  have hapart : s'.KeepsApart := hsound.clear.imp (·.apart_of_disjoint hfs hdisjoint)
  have hjumps := h.jumps hfs hapart hdump
  obtain ⟨f', hrun, hlength, hsame, hpatched⟩ :=
    hsound.exists_patched hfs hdisjoint hapart hjumps hf
  have hrelinked := detoursIn_of_relinked (relinked_of_dump hdump) f
  have hcount := (h.reached.sound hfs).length_detoursIn hfs hdisjoint hf
  refine ⟨f', ?_, ?_, Function.eq_slice hbase hlength fun a ha => ?_⟩
  · rw [← hcount]
    exact run_patchFunction (forM_patchSite_of_relinked hrelinked ▸ hrun)
  · rw [← hcount, hrelinked.length_eq]
    exact run_patchFunction hrun
  · by_cases hcovered : ∃ d ∈ s'.detoursIn f, d.range.contains a = true
    · obtain ⟨d, hd, hda⟩ := hcovered
      have hmem : d ∈ s'.detours := List.mem_of_mem_filter hd
      exact (hpatched d hd).getElem?_eq (hjumps d hmem) (hsound.room hfs d hmem) hda
    · -- No other detour reaches into the function, so neither side has changed here.
      have hout : ∀ d ∈ s'.detours, d.range.contains a = false := fun d hd =>
        Bool.eq_false_iff.mpr fun hda =>
          hcovered ⟨d, hsound.mem_detoursIn hfs hdisjoint hf hd hda ha, hda⟩
      have hle : f.base ≤ a := ((AddressRange.contains_iff ..).mp ha).1
      have hfunction := hsame (a - f.base) fun d hd => by
        rw [Nat.add_sub_of_le hle]
        exact hout d (List.mem_of_mem_filter hd)
      have hkept := (h.dump hdump).frame hfs (n := a - base) fun d hd => by
        rw [Nat.add_sub_of_le (hbase.trans hle)]
        exact hout d hd
      rw [hfunction, hkept, hslice, Function.getElem?_slice hbase ha]

end PatchSet

namespace Successive

open LoneJump

theorem range_function : JumpOut.function.range = ⟨0x1000, 5⟩ := by
  obtain ⟨g, b, h⟩ := JumpOut.function_spec
  exact h.range_eq

theorem range_next : next.range = ⟨0x1005, 5⟩ := by
  obtain ⟨g, b, h⟩ := single_next
  exact h.range_eq

theorem disjoint : fs.Pairwise fun f g => f.range.Disjoint g.range := by
  refine List.pairwise_pair.mpr fun a ha => ?_
  rw [range_function, AddressRange.contains_iff] at ha
  rw [range_next, AddressRange.contains_eq_false_iff]
  exact .inl ha.2

theorem dump_eq_slice : ∀ f ∈ fs, 0x1000 ≤ f.base ∧ f.dump = f.slice 0x1000 text := by
  obtain ⟨g, b, hfirst⟩ := JumpOut.function_spec
  obtain ⟨g', b', hnext⟩ := single_next
  have hlies : JumpOut.function.LiesIn 0x1000 text ∧ next.LiesIn 0x1000 text :=
    ⟨hfirst.liesIn ⟨by decide, by decide, by decide⟩,
      hnext.liesIn ⟨by decide, by decide, by decide⟩⟩
  exact List.forall_mem_cons.mpr ⟨⟨hlies.1.base_le, hlies.1.dump_eq_slice hfirst.digested⟩,
    List.forall_mem_singleton.mpr ⟨hlies.2.base_le, hlies.2.dump_eq_slice hnext.digested⟩⟩

theorem reachedFrom :
    PatchSet.ReachedFrom .bits64 0x10000 0x1000 fs text bothPoints firstText :=
  .instrument (by simp [fs]) (.inl ⟨_, instrument_next⟩) <| .add rfl <| .dump dump_first <|
    .instrument (by simp [fs]) (.inl ⟨_, JumpOut.instrument_eq⟩) <| .add rfl .start

/-- The second function gets its jump, also if the first one has got its own in the text already. -/
theorem patchFunction_next : ∃ f', (PatchSet.patchFunction bothPoints).run next = .ok 1 f' ∧
    f'.dump = [0xe9, 0xfb, 0xef, 0, 0] := by
  obtain ⟨f', hrun, -, hdump⟩ := PatchSet.patchFunction_agrees (f := next) digested disjoint
    dump_eq_slice reachedFrom dump_both (by simp [fs])
  have hcount : bothPoints.countIn next = 1 := by
    rw [PatchSet.countIn, range_next]
    decide
  have hslice : next.slice 0x1000 [0xe9, 0xfb, 0xef, 0, 0, 0xe9, 0xfb, 0xef, 0, 0] =
      [0xe9, 0xfb, 0xef, 0, 0] := by
    have hbase : next.base = 0x1005 := congrArg AddressRange.base range_next
    have hsize : next.size = 5 := congrArg AddressRange.size range_next
    rw [Function.slice, hbase, hsize]
    rfl
  exact ⟨f', hcount ▸ hrun, hdump.trans hslice⟩

end Successive

end BinTrace
