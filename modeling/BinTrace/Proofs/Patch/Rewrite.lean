import BinTrace.Proofs.Patch.Single
import BinTrace.Proofs.Patch.SiteBytes
import Mathlib.Data.List.Perm.Basic

/-!
Writing out a set of points. Every detour that has a place is linked and written: the region is
filled with the trampolines, and the text is changed only where the jumps to them go.
-/

namespace BinTrace

open Outcome

/-- The detour with its trampoline linked. -/
def Detour.Linked (places : List (Option Nat)) (d e : Detour) : Prop :=
  ∃ t, (Trampoline.link places).run d.trampoline = .ok () t ∧ e = { d with trampoline := t }

/-- The detour as it was, or with its trampoline linked, be it with success or not. -/
inductive Detour.Relinked (d : Detour) : Detour → Prop
  | same : d.Relinked d
  | linked {places : List (Option Nat)} {t : Trampoline}
      (h : Leaves (Trampoline.link places) d.trampoline t) : d.Relinked { d with trampoline := t }

/-- What is written for the trampoline of a detour. -/
def Detour.write (base : Nat) (d : Detour) : Write :=
  ⟨d.trampoline.address.getD base, d.trampoline.bytes⟩

/-- What is written for the jump of a detour. -/
def Detour.siteWrite (d : Detour) (patch : List Instruction) : Write := ⟨d.site, bytesOfAll patch⟩

/-- The text at `base` has the patch of the detour at its site. -/
def Detour.Jumps (d : Detour) (base : Nat) (text : List UInt8) : Prop :=
  ∃ patch, PatchSet.sitePatch d = .ok patch ∧ Write.Holds base text (d.siteWrite patch)

theorem Detour.Jumps.isWritten {d : Detour} {base : Nat} {text : List UInt8} (h : d.Jumps base text)
    (w : Width) (hroom : Encode.jumpSize ≤ d.range.size) :
    ∃ a, d.trampoline.address = some a ∧ d.IsWritten w base text (a % addressSpace) := by
  obtain ⟨patch, hpatch, hwritten⟩ := h
  exact Detour.isWritten_of_drop_eq w hpatch hroom hwritten.base_le hwritten.drop_eq

/-- What becomes of a point when all trampolines are written. -/
inductive PatchPoint.Written (places : List (Option Nat)) (p : PatchPoint) : PatchPoint → Prop
  | same (hpending : PatchSet.pending? p = none) : Written places p p
  | dumped {d e : Detour} (hplaced : p.progress = .placed d) (hlinked : d.Linked places e) :
      Written places p (p.withProgress (.dumped e))

namespace PatchSet

/-- The detours of all points that have a place. -/
def detours (s : PatchSet) : List Detour := s.points.filterMap fun p => p.progress.placedDetour?

variable {places : List (Option Nat)} {base : Nat} {p q : PatchPoint} {ps done : List PatchPoint}
variable {region region' text text' : List UInt8} {s s' : PatchSet}

theorem pending?_eq_some {d : Detour} : pending? p = some d ↔ p.progress = .placed d := by
  unfold pending?
  split <;> simp_all

theorem dumpPoint_ok {d : Detour} (hp : p.progress = .placed d)
    (h : (PatchPoint.dump region base places).run p = .ok region' q) :
    ∃ e, d.Linked places e ∧ q = p.withProgress (.dumped e) ∧
      PatchPoint.writeAt region base (e.write base).address (e.write base).bytes = .ok region' := by
  unfold PatchPoint.dump at h
  simp only [EStateM.run_bind, EStateM.run_get, hp] at h
  split at h
  · cases h
  · rename_i u t hlink
    rw [EStateM.run_bind] at h
    split at h
    · split at h
      · cases h
      · rename_i hwrite
        cases h
        exact ⟨{ d with trampoline := t }, ⟨t, hlink, rfl⟩, rfl, hwrite⟩
    · cases h

/-- The pending detours are linked and written one by one; other points are passed over. -/
theorem dumpPoints_ok (h : dumpPoints base places region ps = (done, .ok region')) :
    List.Forall₂ (PatchPoint.Written places) ps done ∧
      ∃ es, List.Forall₂ (Detour.Linked places) (ps.filterMap pending?) es ∧
        Write.all base region (es.map (Detour.write base)) = .ok region' := by
  induction ps generalizing region done with
  | nil =>
      cases h
      exact ⟨.nil, [], .nil, rfl⟩
  | cons p rest ih =>
      rw [dumpPoints] at h
      cases hpending : pending? p with
      | none =>
          simp only [hpending, Option.isNone_none, if_true, Prod.mk.injEq] at h
          obtain ⟨rfl, h⟩ := h
          obtain ⟨hwritten, es, hlinked, hall⟩ := ih (Prod.ext rfl h)
          refine ⟨.cons (.same hpending) hwritten, es, ?_, hall⟩
          rwa [List.filterMap_cons, hpending]
      | some d =>
          have hplaced := pending?_eq_some.mp hpending
          simp only [hpending, Option.isNone_some, Bool.false_eq_true, if_false] at h
          split at h
          · cases h
          · rename_i next q hq
            obtain ⟨e, hde, rfl, hwrite⟩ := dumpPoint_ok hplaced hq
            simp only [Prod.mk.injEq] at h
            obtain ⟨rfl, h⟩ := h
            obtain ⟨hwritten, es, hlinked, hall⟩ := ih (Prod.ext rfl h)
            refine ⟨.cons (.dumped hplaced hde) hwritten, e :: es, ?_,
              bind_eq_ok.mpr ⟨next, hwrite, hall⟩⟩
            rw [List.filterMap_cons, hpending]
            exact .cons hde hlinked

theorem writePatches_ok {sites : List (Nat × List Instruction)}
    (h : writePatches text base sites = (text', .ok ())) :
    Write.all base text (sites.map fun (site, patch) => ⟨site, bytesOfAll patch⟩) = .ok text' := by
  induction sites generalizing text with
  | nil =>
      cases h
      rfl
  | cons site rest ih =>
      rw [writePatches] at h
      split at h
      · rename_i next hnext
        exact bind_eq_ok.mpr ⟨next, hnext, ih h⟩
      · cases h

/-- The three steps of writing a set of points. -/
theorem dump_ok (h : s.dump text base = ⟨s', text', .ok region⟩) :
    ∃ sites points,
      List.Forall₂ (fun d site => ∃ patch, sitePatch d = .ok patch ∧ site = (d.site, patch))
        (s.points.filterMap pending?) sites ∧
      dumpPoints s.regionBase s.places (List.replicate s.regionSize 0) s.points =
        (points, .ok region) ∧
      writePatches text base sites = (text', .ok ()) ∧ s' = { s with points } := by
  unfold dump at h
  split at h
  · cases h
  · rename_i sites hsites
    split at h
    rename_i points result hpoints
    split at h
    · cases h
    · rename_i region₀
      split at h
      rename_i text₀ written hwritten
      cases written with
      | error e => cases h
      | ok u =>
          cases h
          refine ⟨sites, points, (forall₂_of_mapM hsites).imp fun d site hsite => ?_, hpoints,
            hwritten, rfl⟩
          obtain ⟨patch, hpatch, hsite⟩ := bind_eq_ok.mp hsite
          exact ⟨patch, hpatch, (Except.ok.inj hsite).symm⟩

/-- The detours to be written and those that have been, one by one. -/
theorem forall₂_linked (h : List.Forall₂ (PatchPoint.Written places) ps done)
    (hps : ∀ p ∈ ps, p.progress.placedDetour? = pending? p) :
    List.Forall₂ (Detour.Linked places) (ps.filterMap pending?)
      (done.filterMap fun p => p.progress.placedDetour?) := by
  -- A point without a place adds a detour to neither list.
  induction h with
  | nil => exact .nil
  | @cons p q ps done hpq _ ih =>
      obtain ⟨hp, hrest⟩ := List.forall_mem_cons.mp hps
      cases hpq with
      | same hpending =>
          rw [List.filterMap_cons, List.filterMap_cons, hp, hpending]
          exact ih hrest
      | @dumped d e hplaced hlinked =>
          rw [List.filterMap_cons, List.filterMap_cons, pending?_eq_some.mpr hplaced]
          exact .cons hlinked (ih hrest)

end PatchSet

namespace Detour

variable {places : List (Option Nat)} {d e : Detour} {ds es : List Detour} {a base : Nat}

/-- Linking has one outcome. -/
theorem rightUnique_linked : Relator.RightUnique (Linked places) := by
  rintro d _ _ ⟨t, ht, rfl⟩ ⟨u, hu, rfl⟩
  cases ht.symm.trans hu
  rfl

theorem Linked.relinked (h : d.Linked places e) : d.Relinked e := by
  obtain ⟨t, ht, rfl⟩ := h
  exact .linked (.inl ⟨(), ht⟩)

/-- Linking keeps where a detour begins and where its trampoline lies. -/
theorem Relinked.frame (h : d.Relinked e) : e.site = d.site ∧ e.range = d.range ∧
    e.trampoline.address = d.trampoline.address ∧ e.trampoline.size = d.trampoline.size := by
  cases h with
  | same => exact ⟨rfl, rfl, rfl, rfl⟩
  | linked h =>
      obtain ⟨haddress, -, hsize⟩ := Trampoline.link_frame h
      exact ⟨rfl, rfl, haddress, hsize⟩

theorem Displaces.withTrampoline {f : Function} (h : d.Displaces f) (t : Trampoline) :
    ({ d with trampoline := t } : Detour).Displaces f :=
  ⟨h.contiguous, h.room, h.mem, h.base_le, h.stop_le, h.bytes_eq⟩

theorem laid_of_relinked (h : List.Forall₂ Relinked ds es) (hds : Laid a ds) : Laid a es := by
  induction h generalizing a with
  | nil => trivial
  | cons hde _ ih =>
      obtain ⟨-, -, haddress, hsize⟩ := hde.frame
      exact ⟨haddress.trans hds.1, hsize ▸ ih hds.2⟩

theorem sizes_of_relinked (h : List.Forall₂ Relinked ds es) :
    (ds.map fun d => d.trampoline.size) = es.map fun d => d.trampoline.size :=
  map_eq_of_forall₂ h fun _ _ hde => hde.frame.2.2.2.symm

theorem length_bytes_write (d : Detour) : (d.write base).bytes.length = d.trampoline.size :=
  length_bytesOfAll ..

/-- Trampolines that lie one behind the other are written so. -/
theorem laid_write (h : Laid a ds) : Write.Laid a (ds.map (write base)) := by
  induction ds generalizing a with
  | nil => trivial
  | cons d rest ih =>
      refine ⟨?_, ?_⟩
      · simp [write, h.1]
      · rw [length_bytes_write]
        exact ih h.2

/-- The region is filled with the trampolines, in whatever order they are written. -/
theorem region_eq {order : List Detour} {region : List UInt8} {size : Nat} (hperm : order.Perm ds)
    (hlaid : Laid base order) (hsize : (order.map fun d => d.trampoline.size).sum = size)
    (h : Write.all base (List.replicate size 0) (ds.map (write base)) = .ok region) :
    region.length = size ∧ region = order.flatMap fun d => d.trampoline.bytes := by
  -- Writes that touch each other nowhere all hold in the end, so their order does not matter.
  have hwrites : (order.map (write base)).Perm (ds.map (write base)) := hperm.map _
  have hapart : (ds.map (write base)).Pairwise fun v w => v.range.Apart w.range :=
    (hwrites.pairwise_iff fun h => AddressRange.Apart.symm h).mp (laid_write hlaid).pairwise
  have hholds := Write.holds_of_all h hapart
  obtain ⟨hlength, -⟩ := Write.frame_of_all h
  rw [List.length_replicate] at hlength
  have hbytes : ((order.map (write base)).flatMap Write.bytes) =
      order.flatMap fun d => d.trampoline.bytes := by
    rw [List.flatMap_map]
    rfl
  have htotal : (order.flatMap fun d => d.trampoline.bytes).length = size := by
    rw [List.length_flatMap, ← hsize]
    exact congrArg List.sum (List.map_congr_left fun _ _ => length_bytesOfAll _)
  refine ⟨hlength, ?_⟩
  have hfull := Write.eq_flatMap_of_laid (laid_write hlaid)
    (fun w hw => hholds w (hwrites.mem_iff.mp hw)) (Nat.le_refl base) (by
      rw [hbytes, htotal, hlength, Nat.sub_self, Nat.zero_add])
  rwa [Nat.sub_self, List.drop_zero, hbytes] at hfull

end Detour

/-- What a text, a region and the points they were written for have to do with each other, and with
the text as it was. -/
structure Rewritten (fs : List Function) (base : Nat) (text : List UInt8) (s : PatchSet)
    (text' region : List UInt8) : Prop where
  length_text : text'.length = text.length
  /-- Nothing changes outside of the displaced instructions. -/
  outside : ∀ n, (∀ d ∈ s.detours, d.range.contains (base + n) = false) → text'[n]? = text[n]?
  /-- The displaced instructions have given way to a jump to the trampoline. -/
  sites : ∀ d ∈ s.detours, ∃ a, d.trampoline.address = some a ∧
    d.IsWritten s.width base text' (a % addressSpace)
  length_region : region.length = s.regionSize
  /-- The region is full of trampolines that lie where their detours say. -/
  region_eq : ∃ order : List Detour, order.Perm s.detours ∧ Detour.Laid s.regionBase order ∧
    region = order.flatMap fun d => d.trampoline.bytes
  /-- What is displaced was in the text, and the trampoline carries out the point. -/
  trampolines : ∀ p ∈ s.points, ∀ d, p.progress.placedDetour? = some d →
    (∃ f ∈ fs, f.range.contains p.address = true ∧ d.Displaces f) ∧
    (p.location ≠ .after → d.site = p.address) ∧
    bytesOfAll d.displaced = (text.drop (d.site - base)).take d.range.size ∧
    ∃ a, d.CarriesOut s.width p a

/-- The bytes of a function lie in the text. -/
def Function.LiesIn (f : Function) (base : Nat) (text : List UInt8) : Prop :=
  Write.Holds base text ⟨f.base, f.bytes⟩

theorem Function.Single.liesIn {f : Function} {g : FlowGraph} {b : Block} {i : Instruction}
    {base : Nat} {text : List UInt8} (h : f.Single g b i)
    (hi : Write.Holds base text ⟨i.address, i.bytes⟩) : f.LiesIn base text := by
  rwa [LiesIn, h.base_eq, h.bytes_eq]

/-- What lies in a function lies in the text with it. -/
theorem Detour.Displaces.bytes_eq_text {d : Detour} {f : Function} {base : Nat} {text : List UInt8}
    (h : d.Displaces f) (hf : f.LiesIn base text) :
    base ≤ d.site ∧ bytesOfAll d.displaced = (text.drop (d.site - base)).take d.range.size := by
  have hbase : base ≤ f.base := hf.base_le
  have hsite := h.base_le
  have hstop := h.stop_le
  have hsplit : d.site - base = (f.base - base) + (d.site - f.base) := by omega
  have hdrop : text.drop (f.base - base) = f.bytes ++ text.drop (f.base - base + f.bytes.length) :=
    hf.drop_eq
  refine ⟨by omega, ?_⟩
  rw [h.bytes_eq, hsplit, ← List.drop_drop, hdrop, List.drop_append_of_le_length (by omega),
    List.take_append_of_le_length ?_]
  · rfl
  · rw [List.length_drop]
    change totalSize d.displaced ≤ _
    omega

namespace PatchSet

variable {fs : List Function} {base : Nat} {text text' region : List UInt8} {s s' : PatchSet}

theorem Arranged.placedDetour?_eq (hs : s.Arranged fs) :
    ∀ p ∈ s.points, p.progress.placedDetour? = pending? p := by
  intro p hp
  rcases hs.progress p hp with hnone | ⟨f, hf, d, a, hd, hplaced⟩
  · rw [hnone, pending?_eq_none hnone]
  · rw [pending?_eq_some.mpr hplaced, hplaced]
    rfl

/-- A detour that is to be written goes out of a function. -/
theorem Arranged.displaces (hs : s.Arranged fs) (hfs : ∀ f ∈ fs, f.Digested) :
    ∀ d ∈ s.points.filterMap pending?, ∃ f ∈ fs, d.Displaces f := by
  intro d hd
  obtain ⟨p, hp, hpd⟩ := List.mem_filterMap.mp hd
  rcases hs.progress p hp with hnone | ⟨f, hf, d₀, a, ⟨hin, protection, hd₀⟩, hplaced⟩
  · rw [pending?_eq_none hnone] at hpd
    cases hpd
  · rw [pending?_eq_some.mpr hplaced] at hpd
    cases hpd
    exact ⟨f, hf, (PatchPoint.displaces_of_buildDetour (hfs f hf) hd₀).1.withTrampoline _⟩

/-- The jumps are written over what is displaced and over nothing else, and detours that keep off
each other all get theirs. -/
theorem text_ok {ds : List Detour} {sites : List (Nat × List Instruction)}
    (hsites : List.Forall₂ (fun d site => ∃ patch, sitePatch d = .ok patch ∧ site = (d.site, patch))
      ds sites)
    (hroom : ∀ d ∈ ds, Encode.jumpSize ≤ d.range.size)
    (h : writePatches text base sites = (text', .ok ())) :
    text'.length = text.length ∧
      (∀ n, (∀ d ∈ ds, d.range.contains (base + n) = false) → text'[n]? = text[n]?) ∧
      (ds.Pairwise (fun d e => d.range.Apart e.range) → ∀ d ∈ ds, d.Jumps base text') := by
  -- Each detour has its write, which has the range of the detour.
  obtain ⟨ws, hws, hall⟩ : ∃ ws, List.Forall₂ (fun d (w : Write) => d.range = w.range ∧
      ∃ patch, sitePatch d = .ok patch ∧ w = d.siteWrite patch) ds ws ∧
      Write.all base text ws = .ok text' := by
    refine ⟨_, List.forall₂_map_right_iff.mpr ?_, writePatches_ok h⟩
    refine ((List.forall₂_and_left ds sites).mpr ⟨hroom, hsites⟩).imp fun d site hsite => ?_
    obtain ⟨hd, patch, hpatch, rfl⟩ := hsite
    exact ⟨congrArg (AddressRange.mk d.site) (length_sitePatch hpatch hd).symm, patch, hpatch, rfl⟩
  obtain ⟨hlength, hsame⟩ := Write.frame_of_all hall
  obtain ⟨hleft, hright⟩ := exists_mem_of_forall₂ hws
  refine ⟨hlength, fun n hn => hsame n fun v hv => ?_, fun hapart d hd => ?_⟩
  · obtain ⟨d, hd, hrange, -⟩ := hright v hv
    exact hrange ▸ hn d hd
  · have hranges : ds.map Detour.range = ws.map Write.range :=
      map_eq_of_forall₂ hws fun _ _ h => h.1
    have hapart' : ws.Pairwise fun v w => v.range.Apart w.range := by
      have hmapped := List.pairwise_map.mpr hapart
      rw [hranges] at hmapped
      exact List.pairwise_map.mp hmapped
    obtain ⟨v, hv, -, patch, hpatch, rfl⟩ := hleft d hd
    exact ⟨patch, hpatch, Write.holds_of_all hall hapart' _ hv⟩

/-- The trampoline that is written for a point carries it out, and what it displaces was in the
text. -/
theorem Arranged.carriesOut {places : List (Option Nat)} {p q : PatchPoint} {e : Detour}
    (hs : s.Arranged fs) (hfs : ∀ f ∈ fs, f.Digested) (htext : ∀ f ∈ fs, f.LiesIn base text)
    (hp : p ∈ s.points) (hpq : PatchPoint.Written places p q)
    (he : q.progress.placedDetour? = some e) :
    (∃ f ∈ fs, f.range.contains q.address = true ∧ e.Displaces f) ∧
      (q.location ≠ .after → e.site = q.address) ∧
      bytesOfAll e.displaced = (text.drop (e.site - base)).take e.range.size ∧
      ∃ a, e.CarriesOut s.width q a := by
  cases hpq with
  | same hpending =>
      rw [hs.placedDetour?_eq p hp, hpending] at he
      cases he
  | @dumped d e' hplaced hde =>
      cases he
      rcases hs.progress p hp with hnone | ⟨f, hf, d₀, a, ⟨hin, protection, hd₀⟩, hd⟩
      · rw [hplaced] at hnone
        cases hnone
      · -- The detour was built for this point, placed, and has now been linked.
        cases hplaced.symm.trans hd
        obtain ⟨t, ht, rfl⟩ := hde
        obtain ⟨hdisplaces, hsite⟩ := PatchPoint.displaces_of_buildDetour (hfs f hf) hd₀
        have hcarries := (d₀.laidFrom_placedAt a).carriesOut hd₀ ht
        exact ⟨⟨f, hf, hin, hdisplaces.withTrampoline t⟩, hsite,
          (hdisplaces.bytes_eq_text (htext f hf)).2,
          a, hcarries.address_eq, hcarries.contiguous, hcarries.parts⟩

/-- Writing out what has been arranged. -/
theorem Arranged.rewritten (hs : s.Arranged fs) (hfs : ∀ f ∈ fs, f.Digested)
    (htext : ∀ f ∈ fs, f.LiesIn base text) (h : s.dump text base = ⟨s', text', .ok region⟩) :
    Rewritten fs base text s' text' region := by
  obtain ⟨sites, points, hsites, hpoints, hpatches, rfl⟩ := dump_ok h
  obtain ⟨hwritten, es, hes, hall⟩ := dumpPoints_ok hpoints
  have hlinked := forall₂_linked hwritten hs.placedDetour?_eq
  obtain rfl := Detour.rightUnique_linked.forall₂ hes hlinked
  obtain ⟨hleft, hright⟩ := exists_mem_of_forall₂ hlinked
  have hroom : ∀ d ∈ s.points.filterMap pending?, Encode.jumpSize ≤ d.range.size := fun d hd =>
    let ⟨_, _, h⟩ := hs.displaces hfs d hd
    h.room
  obtain ⟨hlength, houtside, hread⟩ := text_ok hsites hroom hpatches
  -- The points are kept by address, the trampolines lie in the order in which they were placed.
  obtain ⟨order, hperm, hlaid, hsize⟩ := hs.laid
  have hrelinked := hlinked.imp fun _ _ => Detour.Linked.relinked
  obtain ⟨order', horder, hperm'⟩ := List.perm_comp_forall₂ hperm hrelinked
  have hlaid' := Detour.laid_of_relinked horder hlaid
  obtain ⟨hregion, hfull⟩ :=
    Detour.region_eq hperm' hlaid' (Detour.sizes_of_relinked horder ▸ hsize) hall
  refine ⟨hlength, fun n hn => houtside n fun d hd => ?_, fun e he => ?_, hregion,
    ⟨order', hperm', hlaid', hfull⟩, fun q hq e he => ?_⟩
  · obtain ⟨e, he, hde⟩ := hleft d hd
    exact hde.relinked.frame.2.1 ▸ hn e he
  · obtain ⟨d, hd, hde⟩ := hright e he
    obtain ⟨a, ha, hwritten⟩ := (hread hs.apart d hd).isWritten s.width (hroom d hd)
    obtain ⟨hsite, hrange, haddress, -⟩ := hde.relinked.frame
    refine ⟨a, haddress.trans ha, ?_⟩
    obtain ⟨reads⟩ := hwritten
    exact ⟨by rwa [hsite, hrange]⟩
  · obtain ⟨p, hp, hpq⟩ := (exists_mem_of_forall₂ hwritten).2 q hq
    exact hs.carriesOut hfs htext hp hpq he

theorem Arranged.mono {gs : List Function} (hs : s.Arranged fs) (h : ∀ f ∈ fs, f ∈ gs) :
    s.Arranged gs := by
  refine ⟨fun p hp => ?_, hs.laid, hs.apart⟩
  rcases hs.progress p hp with hnone | ⟨f, hf, d⟩
  · exact .inl hnone
  · exact .inr ⟨f, h f hf, d⟩

/-- Adds points one after the other. -/
def addAll (s : PatchSet) (points : List PatchPoint) : PatchSet := points.foldl add s

theorem addAll_eq (s : PatchSet) (points : List PatchPoint) :
    s.addAll points = { s with points := s.points ++ points } := by
  induction points generalizing s with
  | nil => simp [addAll]
  | cons p rest ih =>
      rw [addAll, List.foldl_cons]
      exact (ih (s.add p)).trans (by simp [add])

/-- Before any function is instrumented, no point has a place. -/
theorem arranged_addAll {w : Width} {regionBase : Nat} {points : List PatchPoint}
    (hpoints : ∀ p ∈ points, p.progress.placedDetour? = none) :
    (PatchSet.addAll { width := w, regionBase } points).Arranged [] := by
  rw [addAll_eq]
  have hnone : points.filterMap pending? = [] :=
    List.filterMap_eq_nil_iff.mpr fun p hp => pending?_eq_none (hpoints p hp)
  refine ⟨fun p hp => .inl (hpoints p hp), ⟨[], ?_, trivial, rfl⟩, ?_⟩
  · rw [List.nil_append, hnone]
  · rw [List.nil_append, hnone]
    exact .nil

/-- Instruments each of some functions that have no address in common and then writes everything
out: every point that has been placed is carried out by a trampoline of its own, and the text leads
there and is otherwise as it was. -/
theorem rewritten_of_dump {w : Width} {regionBase : Nat} {points : List PatchPoint}
    {fs : List (Function × Liveness)} (hpoints : ∀ p ∈ points, p.progress.placedDetour? = none)
    (hfs : ∀ f ∈ fs, f.1.Digested)
    (hdisjoint : fs.Pairwise fun f g => f.1.range.Disjoint g.1.range)
    (htext : ∀ f ∈ fs, f.1.LiesIn base text)
    (hrun : (instrumentEach fs).run (PatchSet.addAll { width := w, regionBase } points) = .ok () s)
    (hdump : s.dump text base = ⟨s', text', .ok region⟩) :
    Rewritten (fs.map Prod.fst) base text s' text' region ∧ s'.width = w ∧
      s'.regionBase = regionBase := by
  obtain ⟨harranged, hwidth, hbase⟩ := (arranged_addAll hpoints).instrumentEach (by simp) hfs
    (by simp) hdisjoint hrun
  rw [addAll_eq] at hwidth hbase
  have hall : s.Arranged (fs.map Prod.fst) := harranged.mono (by simp)
  have hrewritten := hall.rewritten (by simpa using hfs) (by simpa using htext) hdump
  obtain ⟨-, points', -, -, -, rfl⟩ := dump_ok hdump
  exact ⟨hrewritten, hwidth, hbase⟩

end PatchSet

/-! A function that is one jump to an address outside of it, instrumented in front of the jump. -/

namespace JumpOut

open LoneJump

def jump : Instruction := jumpAt 0x1000 [0xe9, 0x10, 0, 0, 0] 0x10

def function : Function := functionOf jump

def points : PatchSet :=
  PatchSet.addAll { width := .bits64, regionBase := 0x10000 } [pointAt 0x1000]

def placedPoint : PatchPoint := placed jump 0x10000

def movedJump : Instruction :=
  { jump with
    address := 0x10000, bytes := [0xe9, 0x10, 0x10, 0xff, 0xff],
    operands := [Operand.relative (-0xeff0) 1 4] }

def linkedDetour : Detour :=
  { detour jump with trampoline := ⟨[movedJump], [⟨0, .address 0x1015⟩], some 0x10000⟩ }

/-- The point once its trampoline has been written out. -/
def dumpedPoint : PatchPoint := (pointAt 0x1000).withProgress (.dumped linkedDetour)

set_option maxRecDepth 4096 in
theorem decode_jump : decode .bits64 jump.bytes 0x1000 = .ok jump := by cbv

theorem function_spec : ∃ g b, function.Single g b jump :=
  single_functionOf decode_jump (by decide) (by rfl)

theorem instrument_eq : (PatchSet.instrument function liveness).run points =
    .ok 1 { points with regionSize := 5, points := [placedPoint] } := by
  obtain ⟨g, b, h⟩ := function_spec
  exact LoneJump.instrument_eq (s := { width := .bits64, regionBase := 0x10000 }) h rfl
    (List.mergeSort_singleton ..) (by simp) rfl rfl

theorem run_points : (PatchSet.instrumentEach [(function, liveness)]).run points =
    .ok () { points with regionSize := 5, points := [placedPoint] } := by
  simp only [PatchSet.instrumentEach, List.forM_eq_forM, List.forM_cons, List.forM_nil,
    EStateM.run_bind, instrument_eq, EStateM.run_pure]

theorem dump_points :
    PatchSet.dump { points with regionSize := 5, points := [placedPoint] } jump.bytes 0x1000 =
      ⟨{ points with regionSize := 5, points := [dumpedPoint] },
        [0xe9, 0xfb, 0xef, 0, 0], .ok [0xe9, 0x10, 0x10, 0xff, 0xff]⟩ := by
  cbv

theorem liesIn : function.LiesIn 0x1000 jump.bytes := by
  obtain ⟨g, b, h⟩ := function_spec
  exact h.liesIn ⟨by decide, by decide, by decide⟩

end JumpOut

theorem PatchSet.rewritten_jumpOut : Rewritten [JumpOut.function] 0x1000 JumpOut.jump.bytes
    { JumpOut.points with regionSize := 5, points := [JumpOut.dumpedPoint] }
    [0xe9, 0xfb, 0xef, 0, 0] [0xe9, 0x10, 0x10, 0xff, 0xff] := by
  obtain ⟨g, b, h⟩ := JumpOut.function_spec
  have hnew : ∀ p ∈ [LoneJump.pointAt 0x1000], p.progress.placedDetour? = none := by
    simp [LoneJump.pointAt, PatchProgress.placedDetour?]
  exact (PatchSet.rewritten_of_dump hnew (by simpa using h.digested) (by simp)
    (by simpa using JumpOut.liesIn) JumpOut.run_points JumpOut.dump_points).1

/-- Behind a jump nothing is executed, and so the trampoline does not end with a jump back. -/
theorem PatchSet.no_jump_back_behind_jump : JumpOut.function.Digested ∧
    JumpOut.function.LiesIn 0x1000 JumpOut.jump.bytes ∧ ∃ s s' text' region,
      (PatchSet.instrumentEach [(JumpOut.function, LoneJump.liveness)]).run JumpOut.points =
        .ok () s ∧
      s.dump JumpOut.jump.bytes 0x1000 = ⟨s', text', .ok region⟩ ∧
      ∃ d ∈ s'.detours, ∃ last, d.trampoline.instructions.getLast? = some last ∧
        ¬ last.JumpsTo (d.range.stop % addressSpace) := by
  obtain ⟨g, b, h⟩ := JumpOut.function_spec
  refine ⟨h.digested, JumpOut.liesIn, _, _, _, _, JumpOut.run_points, JumpOut.dump_points,
    JumpOut.linkedDetour, List.mem_singleton.mpr rfl, JumpOut.movedJump, rfl, fun hjumps => ?_⟩
  exact absurd hjumps.target_eq (by decide)

end BinTrace
