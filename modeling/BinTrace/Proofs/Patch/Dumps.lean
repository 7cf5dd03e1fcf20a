import BinTrace.Proofs.Patch.Overlap

/-!
Writing out again and again. A call writes the trampolines and jumps of those points that are
pending, into a region that has nothing else in it, and leaves the jumps from earlier calls alone.
-/

namespace BinTrace

open Outcome

theorem Write.Holds.of_frame {base : Nat} {buffer result : List UInt8} {w : Write}
    (h : w.Holds base buffer) (hlength : result.length = buffer.length)
    (hsame : ∀ n, w.range.contains (base + n) = true → result[n]? = buffer[n]?) :
    w.Holds base result := by
  have hbase : base ≤ w.address := h.base_le
  refine ⟨hbase, hlength ▸ h.room, fun n hn => (hsame _ ?_).trans (h.bytes_eq n hn)⟩
  rw [AddressRange.contains_iff]
  change w.address ≤ _ ∧ _ < w.address + w.bytes.length
  omega

/-- In a buffer of zeros every place holds zeros. -/
theorem Write.holds_zeros {base a n size : Nat} (hbase : base ≤ a) (hstop : a + n ≤ base + size) :
    Holds base (List.replicate size 0) ⟨a, List.replicate n 0⟩ := by
  have hroom : a - base + n ≤ size := by omega
  refine ⟨hbase, ?_, fun k hk => ?_⟩
  · rwa [List.length_replicate, List.length_replicate]
  · rw [List.length_replicate] at hk
    have hlt : a - base + k < size := by omega
    rw [List.getElem?_replicate, List.getElem?_replicate, if_pos hlt, if_pos hk]

namespace Detour

variable {d e : Detour} {base : Nat} {text text' : List UInt8}

/-- What is written at a site does not depend on the code of the trampoline. -/
theorem Relinked.jumps (h : d.Relinked e) (hd : d.Jumps base text) : e.Jumps base text := by
  obtain ⟨patch, hpatch, hholds⟩ := hd
  obtain ⟨hsite, hrange, haddress, -⟩ := h.frame
  refine ⟨patch, ?_, ?_⟩
  · rw [← hpatch]
    simp only [PatchSet.sitePatch, PatchSet.siteJump, hsite, haddress, hrange]
  · rwa [siteWrite, hsite]

/-- A jump stays where nothing else is written. -/
theorem Jumps.of_frame (h : d.Jumps base text) (hroom : Encode.jumpSize ≤ d.range.size)
    (hlength : text'.length = text.length)
    (hsame : ∀ n, d.range.contains (base + n) = true → text'[n]? = text[n]?) :
    d.Jumps base text' := by
  obtain ⟨patch, hpatch, hholds⟩ := h
  refine ⟨patch, hpatch, hholds.of_frame hlength fun n hn => hsame n ?_⟩
  rwa [← show (d.siteWrite patch).range = d.range from
    congrArg (AddressRange.mk d.site) (PatchSet.length_sitePatch hpatch hroom)]

theorem Jumps.isWritten_of_address (h : d.Jumps base text) (w : Width)
    (hroom : Encode.jumpSize ≤ d.range.size) {a : Nat} (ha : d.trampoline.address = some a) :
    d.IsWritten w base text (a % addressSpace) := by
  obtain ⟨b, hb, hwritten⟩ := h.isWritten w hroom
  cases ha.symm.trans hb
  exact hwritten

theorem range_write (d : Detour) (base : Nat) :
    (d.write base).range = ⟨d.trampoline.address.getD base, d.trampoline.size⟩ :=
  congrArg (AddressRange.mk _) d.length_bytes_write

theorem Relinked.write_range (h : d.Relinked e) (base : Nat) :
    (e.write base).range = (d.write base).range := by
  obtain ⟨-, -, haddress, hsize⟩ := h.frame
  rw [range_write, range_write, haddress, hsize]

/-- What lies one behind the other from an address on ends where the sizes say. -/
theorem Laid.place_le {a : Nat} {ds : List Detour} (h : Laid a ds) : ∀ d ∈ ds, ∃ b,
    d.trampoline.address = some b ∧ a ≤ b ∧
      b + d.trampoline.size ≤ a + (ds.map fun d => d.trampoline.size).sum := by
  induction ds generalizing a with
  | nil => simp
  | cons d rest ih =>
      obtain ⟨haddress, hrest⟩ := h
      rw [List.map_cons, List.sum_cons]
      refine List.forall_mem_cons.mpr ⟨⟨a, haddress, Nat.le_refl _, by omega⟩, fun e he => ?_⟩
      obtain ⟨b, hb, hle, hstop⟩ := ih hrest e he
      exact ⟨b, hb, by omega, by omega⟩

end Detour

theorem AddressRange.Apart.not_contains {r s : AddressRange} (h : r.Apart s) {a : Nat}
    (ha : r.contains a = true) : s.contains a = false := by
  rw [contains_iff] at ha
  rw [contains_eq_false_iff]
  simp only [Apart, stop] at h ⊢
  omega

namespace PatchSet

variable {w : Width} {regionBase base : Nat} {fs : List Function} {s s' : PatchSet}
  {text text' region : List UInt8}

theorem placedDetour?_of_pending? {p : PatchPoint} {d : Detour} (h : pending? p = some d) :
    p.progress.placedDetour? = some d := by
  rw [pending?_eq_some.mp h]
  rfl

/-- What holds between all detours with a place holds between the pending ones. -/
theorem pairwise_pending {R : Detour → Detour → Prop} (h : s.detours.Pairwise R) :
    (s.points.filterMap pending?).Pairwise R := by
  rw [detours, List.pairwise_filterMap] at h
  rw [List.pairwise_filterMap]
  exact h.imp fun hpq d hd e he =>
    hpq d (placedDetour?_of_pending? hd) e (placedDetour?_of_pending? he)

/-- What holds between all detours with a place holds between a pending one and one that has been
written. -/
theorem rel_of_dumped {R : Detour → Detour → Prop} (hR : ∀ d e, R d e → R e d)
    (h : s.detours.Pairwise R) {p : PatchPoint} (hp : p ∈ s.points) {d e : Detour}
    (hd : p.progress = .dumped d) (he : e ∈ s.points.filterMap pending?) : R d e := by
  obtain ⟨q, hq, hqe⟩ := List.mem_filterMap.mp he
  have hplaced := pending?_eq_some.mp hqe
  rw [detours, List.pairwise_filterMap] at h
  have hne : p ≠ q := by
    rintro rfl
    cases hd.symm.trans hplaced
  have hsymm : Std.Symm fun p q : PatchPoint => ∀ d, p.progress.placedDetour? = some d →
      ∀ e, q.progress.placedDetour? = some e → R d e :=
    ⟨fun p q hpq e he d hd => hR d e (hpq d hd e he)⟩
  exact h.forall hp hq hne d (by rw [hd]; rfl) e (placedDetour?_of_pending? hqe)

/-- The places of the trampolines are apart. -/
theorem Sound.pairwise_places (h : s.Sound w regionBase fs) : s.detours.Pairwise fun d e =>
    (d.write regionBase).range.Apart (e.write regionBase).range := by
  obtain ⟨order, hperm, hlaid, -⟩ := h.laid
  refine (hperm.pairwise_iff fun h => AddressRange.Apart.symm h).mp ?_
  have hwrites : Write.Laid regionBase (order.map (Detour.write regionBase)) :=
    Detour.laid_write hlaid
  exact (List.pairwise_map (f := Detour.write regionBase)).mp hwrites.pairwise

/-- The place of every trampoline lies in the region. -/
theorem Sound.place_le (h : s.Sound w regionBase fs) : ∀ d ∈ s.detours, ∃ a,
    d.trampoline.address = some a ∧ regionBase ≤ a ∧
      a + d.trampoline.size ≤ regionBase + s.regionSize := by
  obtain ⟨order, hperm, hlaid, hsize⟩ := h.laid
  intro d hd
  rw [← hsize]
  exact hlaid.place_le d (hperm.mem_iff.mpr hd)

theorem Sound.room (h : s.Sound w regionBase fs) (hfs : ∀ f ∈ fs, f.Digested) :
    ∀ d ∈ s.detours, Encode.jumpSize ≤ d.range.size := fun d hd =>
  let ⟨_, _, hdisplaces⟩ := h.displaces hfs d hd
  hdisplaces.room

theorem mem_detours_of_pending {d : Detour} (h : d ∈ s.points.filterMap pending?) :
    d ∈ s.detours := by
  obtain ⟨p, hp, hpd⟩ := List.mem_filterMap.mp h
  exact List.mem_filterMap.mpr ⟨p, hp, placedDetour?_of_pending? hpd⟩

/-- Where a point is found after all trampolines have been written. -/
theorem mem_of_written {places : List (Option Nat)} {ps done : List PatchPoint}
    (h : List.Forall₂ (PatchPoint.Written places) ps done) {p : PatchPoint} (hp : p ∈ ps) :
    (pending? p = none → p ∈ done) ∧
      ∀ d e, p.progress = .placed d → d.Linked places e → p.withProgress (.dumped e) ∈ done := by
  obtain ⟨q, hq, hpq⟩ := (exists_mem_of_forall₂ h).1 p hp
  cases hpq with
  | same hpending =>
      refine ⟨fun _ => hq, fun d e hd _ => ?_⟩
      rw [pending?_eq_some.mpr hd] at hpending
      cases hpending
  | @dumped d e hplaced hlinked =>
      refine ⟨fun hpending => ?_, fun d' e' hd' hlinked' => ?_⟩
      · rw [pending?_eq_some.mpr hplaced] at hpending
        cases hpending
      · obtain rfl : d' = d := PatchProgress.placed.inj (hd'.symm.trans hplaced)
        rwa [Detour.rightUnique_linked hlinked' hlinked]

/-- The region has the trampolines that are written now, and zeros where others have their place. -/
theorem Sound.region_ok (h : s.Sound w regionBase fs) {places : List (Option Nat)}
    {es : List Detour} (hes : List.Forall₂ (Detour.Linked places) (s.points.filterMap pending?) es)
    (hall : Write.all regionBase (List.replicate s.regionSize 0)
      (es.map (Detour.write regionBase)) = .ok region) :
    region.length = s.regionSize ∧ (∀ e ∈ es, (e.write regionBase).Holds regionBase region) ∧
      ∀ p ∈ s.points, ∀ d, p.progress = .dumped d → ∃ a, d.trampoline.address = some a ∧
        Write.Holds regionBase region ⟨a, List.replicate d.trampoline.size 0⟩ := by
  obtain ⟨hlength, hsame⟩ := Write.frame_of_all hall
  rw [List.length_replicate] at hlength
  have hapart : (es.map (Detour.write regionBase)).Pairwise fun v w => v.range.Apart w.range :=
    List.pairwise_map.mpr <| pairwise_of_forall₂ hes (fun _ _ _ _ hd he hde => by
      rwa [hd.relinked.write_range, he.relinked.write_range])
      (pairwise_pending h.pairwise_places)
  refine ⟨hlength, fun e he => Write.holds_of_all hall hapart _ (List.mem_map_of_mem he),
    fun p hp d hd => ?_⟩
  have hmem : d ∈ s.detours := List.mem_filterMap.mpr ⟨p, hp, by rw [hd]; rfl⟩
  obtain ⟨a, haddress, hbase, hstop⟩ := h.place_le d hmem
  refine ⟨a, haddress, (Write.holds_zeros hbase hstop).of_frame (by simpa using hlength)
    fun n hn => hsame n fun v hv => ?_⟩
  obtain ⟨e, he, rfl⟩ := List.mem_map.mp hv
  obtain ⟨d', hd', hlinked⟩ := (exists_mem_of_forall₂ hes).2 e he
  have hplaces := rel_of_dumped (fun _ _ => AddressRange.Apart.symm) h.pairwise_places hp hd hd'
  rw [hlinked.relinked.write_range]
  refine hplaces.not_contains ?_
  rw [Detour.range_write, haddress]
  rwa [Write.range, List.length_replicate] at hn

/-- The jumps that are written now are in the text, and those that have been stay there. -/
theorem Sound.jumps_ok (h : s.Sound w regionBase fs) (hfs : ∀ f ∈ fs, f.Digested)
    (hapart : s.KeepsApart) (hdump : s.dump text base = ⟨s', text', .ok region⟩) :
    (∀ d ∈ s.points.filterMap pending?, d.Jumps base text') ∧
      ∀ p ∈ s.points, ∀ d, p.progress = .dumped d → d.Jumps base text → d.Jumps base text' := by
  obtain ⟨sites, points, hsites, -, hpatches, -⟩ := dump_ok hdump
  obtain ⟨hlength, hframe, hjumps⟩ :=
    text_ok hsites (fun d hd => h.room hfs d (mem_detours_of_pending hd)) hpatches
  refine ⟨hjumps (pairwise_pending hapart), fun p hp d hd hbefore => ?_⟩
  have hmem : d ∈ s.detours := List.mem_filterMap.mpr ⟨p, hp, by rw [hd]; rfl⟩
  refine hbefore.of_frame (h.room hfs d hmem) hlength fun n hn => hframe n fun e he => ?_
  have hranges := rel_of_dumped (fun _ _ => AddressRange.Apart.symm) hapart hp hd he
  exact hranges.not_contains hn

theorem Grows.keepsApart {f : Function} {new : List Detour} (h : s.Grows s' f new)
    (hs' : s'.KeepsApart) : s.KeepsApart := by
  rw [KeepsApart, h.detours_perm.pairwise_iff fun h => AddressRange.Apart.symm h,
    List.pairwise_append] at hs'
  exact hs'.1

/-- Writing out links trampolines and moves none of them. -/
theorem relinked_of_dump (hdump : s.dump text base = ⟨s', text', .ok region⟩) :
    List.Forall₂ Detour.Relinked s.detours s'.detours := by
  obtain ⟨points, hpatches, hpoints⟩ := s.exists_touched text base
  rw [hdump] at hpatches
  obtain rfl : s' = _ := hpatches
  exact forall₂_relinked hpoints

theorem keepsApart_of_dump (hdump : s.dump text base = ⟨s', text', .ok region⟩)
    (hs' : s'.KeepsApart) : s.KeepsApart := by
  refine pairwise_of_forall₂ (relinked_of_dump hdump).flip (fun d e d' e' hd he hapart => ?_) hs'
  rwa [hd.frame.2.1, he.frame.2.1] at hapart

/-- As long as writing out has not failed, the text has the jumps of all points that have been
written, if no two ranges have an address in common. -/
theorem Reached.jumps {failed : Bool} (hfs : ∀ f ∈ fs, f.Digested)
    (h : Reached w regionBase base fs failed s text) (hfailed : failed = false)
    (hapart : s.KeepsApart) :
    ∀ p ∈ s.points, ∀ d, p.progress = .dumped d → d.Jumps base text := by
  induction h with
  | start text => simp
  | @add failed s text p hp _ ih =>
      rw [KeepsApart, detours_add hp] at hapart
      intro q hq d hd
      rcases List.mem_append.mp hq with hq | hq
      · exact ih hfailed hapart q hq d hd
      · rw [List.mem_singleton.mp hq] at hd
        rw [hd] at hp
        cases hp
  | instrument _ hrun _ ih =>
      intro q hq d hd
      obtain ⟨new, hnew⟩ := exists_grows hrun
      rcases hnew.placed_from q hq d (by rw [hd]; rfl) with hold | ⟨p, -, e, a, -, -, rfl⟩
      · exact ih hfailed (hnew.keepsApart hapart) q hold d hd
      · cases hd
  | dump hdump h ih =>
      -- What was pending is written now, and what has been written before is left alone.
      intro q hq e he
      have hbefore := keepsApart_of_dump hdump hapart
      obtain ⟨hpending, hkept⟩ := (h.sound hfs).jumps_ok hfs hbefore hdump
      obtain ⟨sites, points, -, hpoints, -, rfl⟩ := dump_ok hdump
      obtain ⟨hwritten, -⟩ := dumpPoints_ok hpoints
      obtain ⟨p, hp, hpq⟩ := (exists_mem_of_forall₂ hwritten).2 q hq
      cases hpq with
      | same _ => exact hkept _ hp e he (ih hfailed hbefore _ hp e he)
      | @dumped d e' hplaced hlinked =>
          obtain rfl : e' = e := PatchProgress.dumped.inj he
          have hd : d ∈ _ := List.mem_filterMap.mpr ⟨p, hp, pending?_eq_some.mpr hplaced⟩
          exact hlinked.relinked.jumps (hpending d hd)
  | dumpFailed _ _ _ _ => cases hfailed

/-- What a call has done that wrote everything out that was pending. -/
structure Delivered (base : Nat) (failed : Bool) (s s' : PatchSet) (text' region : List UInt8) :
    Prop where
  length_region : region.length = s.regionSize
  /-- The trampoline of a pending point is linked and in the region, and the text leads there. -/
  pending : ∀ p ∈ s.points, ∀ d, p.progress = .placed d → ∃ e a,
    p.withProgress (.dumped e) ∈ s'.points ∧ e.site = d.site ∧ e.CarriesOut s.width p a ∧
      Write.Holds s.regionBase region ⟨a, e.trampoline.bytes⟩ ∧
      (s.KeepsApart → e.IsWritten s.width base text' (a % addressSpace))
  /-- The trampoline of a point that was written before is not in the region; the text still leads
  to its place if writing out has not failed so far. -/
  earlier : ∀ p ∈ s.points, ∀ d, p.progress = .dumped d → p ∈ s'.points ∧
    ∃ a, d.trampoline.address = some a ∧
      Write.Holds s.regionBase region ⟨a, List.replicate d.trampoline.size 0⟩ ∧
      (failed = false → s.KeepsApart → d.IsWritten s.width base text' (a % addressSpace))

/-- Whatever has been done before, a call that succeeds delivers what was pending, and nothing
else. -/
theorem delivered_of_dump {failed : Bool} (hfs : ∀ f ∈ fs, f.Digested)
    (h : Reached w regionBase base fs failed s text)
    (hdump : s.dump text base = ⟨s', text', .ok region⟩) :
    Delivered base failed s s' text' region := by
  have hsound := h.sound hfs
  have hjumps (hapart : s.KeepsApart) := hsound.jumps_ok hfs hapart hdump
  obtain ⟨sites, points, -, hpoints, -, rfl⟩ := dump_ok hdump
  obtain ⟨hwritten, es, hes, hall⟩ := dumpPoints_ok hpoints
  obtain rfl : s.width = w := hsound.width_eq
  obtain rfl : s.regionBase = regionBase := hsound.regionBase_eq
  obtain ⟨hlength, hholds, hzeros⟩ := hsound.region_ok hes hall
  refine ⟨hlength, fun p hp d hd => ?_, fun p hp d hd => ?_⟩
  · have hmem : d ∈ s.points.filterMap pending? :=
      List.mem_filterMap.mpr ⟨p, hp, pending?_eq_some.mpr hd⟩
    obtain ⟨e, he, hlinked⟩ := (exists_mem_of_forall₂ hes).1 d hmem
    obtain ⟨f, hf, d₀, a, ⟨hin, protection, hbuild⟩, hlaid⟩ := hsound.built p hp d (by rw [hd]; rfl)
    have hcarries : e.CarriesOut s.width p a := by
      obtain ⟨t, ht, rfl⟩ := hlinked
      exact hlaid.carriesOut hbuild ht
    have hregion := hholds e he
    rw [Detour.write, hcarries.address_eq] at hregion
    obtain ⟨hsite, hrange, -⟩ := hlinked.relinked.frame
    refine ⟨e, a, (mem_of_written hwritten hp).2 d e hd hlinked, hsite, hcarries, hregion,
      fun hapart => ?_⟩
    have hroom : Encode.jumpSize ≤ e.range.size := by
      rw [hrange]
      exact hsound.room hfs d (mem_detours_of_pending hmem)
    have hjump := hlinked.relinked.jumps ((hjumps hapart).1 d hmem)
    exact hjump.isWritten_of_address s.width hroom hcarries.address_eq
  · obtain ⟨a, ha, hzero⟩ := hzeros p hp d hd
    have hmem : d ∈ s.detours := List.mem_filterMap.mpr ⟨p, hp, by rw [hd]; rfl⟩
    refine ⟨(mem_of_written hwritten hp).1 (by simp [pending?, hd]), a, ha, hzero,
      fun hfailed hapart => ?_⟩
    have hjump := (hjumps hapart).2 p hp d hd (h.jumps hfs hfailed hapart p hp d hd)
    exact hjump.isWritten_of_address s.width (hsound.room hfs d hmem) ha

end PatchSet

/-! Two functions that are one jump each; the second is instrumented once the first has been written
out. -/

namespace Successive

open LoneJump

def nextJump : Instruction := jumpAt 0x1005 [0xe9, 0x10, 0, 0, 0] 0x10

def next : Function := functionOf nextJump

def fs : List Function := [JumpOut.function, next]

/-- The bytes of both functions. -/
def text : List UInt8 := JumpOut.jump.bytes ++ nextJump.bytes

/-- The text with the jump of the first point. -/
def firstText : List UInt8 := [0xe9, 0xfb, 0xef, 0, 0] ++ nextJump.bytes

/-- The first point has been written out. -/
def firstPoints : PatchSet :=
  { JumpOut.points with regionSize := 5, points := [JumpOut.dumpedPoint] }

/-- And the second one placed. -/
def bothPoints : PatchSet :=
  { firstPoints with regionSize := 10, points := firstPoints.points ++ [placed nextJump 0x10005] }

set_option maxRecDepth 4096 in
theorem single_next : ∃ g b, next.Single g b nextJump :=
  single_functionOf (by cbv) (by decide) (by rfl)

theorem dump_first :
    PatchSet.dump { JumpOut.points with regionSize := 5, points := [JumpOut.placedPoint] } text
      0x1000 = ⟨firstPoints, firstText, .ok [0xe9, 0x10, 0x10, 0xff, 0xff]⟩ := by
  cbv

theorem instrument_next : (PatchSet.instrument next liveness).run
    (firstPoints.add (pointAt 0x1005)) = .ok 1 bothPoints := by
  obtain ⟨g, b, h⟩ := single_next
  have hrange : (functionOf nextJump).range = ⟨0x1005, 5⟩ := h.range_eq
  exact instrument_eq (s := firstPoints) h rfl (List.mergeSort_of_pairwise (by decide)) (by decide)
    (by rw [PatchSet.takenIn, hrange]; rfl) rfl

theorem reached : PatchSet.Reached .bits64 0x10000 0x1000 fs false bothPoints firstText :=
  .instrument (by simp [fs]) (.inl ⟨_, instrument_next⟩) <| .add rfl <| .dump dump_first <|
    JumpOut.reached (by simp [fs]) text

def movedJump : Instruction :=
  { nextJump with
    address := 0x10005, bytes := [0xe9, 0x10, 0x10, 0xff, 0xff],
    operands := [Operand.relative (-0xeff0) 1 4] }

def linkedDetour : Detour :=
  { detour nextJump with
    trampoline := ⟨[movedJump], [⟨0, .address 0x101a⟩], some 0x10005⟩ }

theorem dump_both : bothPoints.dump firstText 0x1000 =
    ⟨{ bothPoints with
        points := firstPoints.points ++ [(pointAt 0x1005).withProgress (.dumped linkedDetour)] },
      [0xe9, 0xfb, 0xef, 0, 0, 0xe9, 0xfb, 0xef, 0, 0],
      .ok [0, 0, 0, 0, 0, 0xe9, 0x10, 0x10, 0xff, 0xff]⟩ := by
  cbv

theorem digested : ∀ f ∈ fs, f.Digested := by
  obtain ⟨g, b, hfirst⟩ := JumpOut.function_spec
  obtain ⟨g', b', hnext⟩ := single_next
  simpa [fs] using ⟨hfirst.digested, hnext.digested⟩

theorem keepsApart : bothPoints.KeepsApart :=
  List.pairwise_pair.mpr (.inl (by decide))

/-- The second region has the second trampoline and zeros for the first, and the text leads to
both. -/
theorem delivered_both :
    PatchSet.Delivered 0x1000 false bothPoints
      { bothPoints with
        points := firstPoints.points ++ [(pointAt 0x1005).withProgress (.dumped linkedDetour)] }
      [0xe9, 0xfb, 0xef, 0, 0, 0xe9, 0xfb, 0xef, 0, 0]
      [0, 0, 0, 0, 0, 0xe9, 0x10, 0x10, 0xff, 0xff] ∧
    Write.Holds 0x10000 [0, 0, 0, 0, 0, 0xe9, 0x10, 0x10, 0xff, 0xff]
      ⟨0x10000, List.replicate 5 0⟩ ∧
    JumpOut.linkedDetour.IsWritten .bits64 0x1000
      [0xe9, 0xfb, 0xef, 0, 0, 0xe9, 0xfb, 0xef, 0, 0] 0x10000 := by
  have hdelivered := PatchSet.delivered_of_dump digested reached dump_both
  refine ⟨hdelivered, ?_⟩
  obtain ⟨-, a, ha, hzeros, hwritten⟩ := hdelivered.earlier _ List.mem_cons_self _ rfl
  cases ha
  exact ⟨hzeros, hwritten rfl keepsApart⟩

/-- Writing out into a text that is too short fails, and the trampoline is lost: the next time
nothing is written, and that succeeds. -/
theorem exists_lost_trampoline : ∃ (s s' : PatchSet) (d : Detour) (a : Nat),
    PatchSet.Reached .bits64 0x10000 0x1000 [JumpOut.function] false s [0xe9, 0x10, 0, 0] ∧
    s.dump [0xe9, 0x10, 0, 0] 0x1000 =
      ⟨s', [0xe9, 0x10, 0, 0], .error (.outOfBounds 0x1000 5)⟩ ∧
    d ∈ s'.detours ∧ d.trampoline.address = some a ∧
    ∀ text ∈ [[0xe9, 0x10, 0, 0], JumpOut.jump.bytes],
      PatchSet.Reached .bits64 0x10000 0x1000 [JumpOut.function] true s' text ∧
      ∃ region, s'.dump text 0x1000 = ⟨s', text, .ok region⟩ ∧
        ¬ Write.Holds 0x10000 region ⟨a, d.trampoline.bytes⟩ ∧ ¬ d.Jumps 0x1000 text := by
  have hreached := JumpOut.reached (List.mem_singleton.mpr rfl) [0xe9, 0x10, 0, 0]
  have hfails : PatchSet.dump
      { JumpOut.points with regionSize := 5, points := [JumpOut.placedPoint] }
      [0xe9, 0x10, 0, 0] 0x1000 =
        ⟨firstPoints, [0xe9, 0x10, 0, 0], .error (.outOfBounds 0x1000 5)⟩ := by
    cbv
  refine ⟨_, firstPoints, JumpOut.linkedDetour, 0x10000, hreached, hfails,
    List.mem_singleton.mpr rfl, rfl, fun text htext => ⟨.dumpFailed text hfails hreached,
      [0, 0, 0, 0, 0], rfl, fun hholds => ?_, ?_⟩⟩
  · exact absurd (hholds.bytes_eq 0 (by decide)) (by decide)
  · rintro ⟨patch, hpatch, hholds⟩
    have hbytes : (PatchSet.sitePatch JumpOut.linkedDetour).map bytesOfAll =
        .ok [0xe9, 0xfb, 0xef, 0, 0] := by cbv
    obtain ⟨_, hsame, hpatchBytes⟩ := map_eq_ok.mp hbytes
    cases hpatch.symm.trans hsame
    rw [Detour.siteWrite, hpatchBytes] at hholds
    rcases List.mem_pair.mp htext with rfl | rfl
    · exact absurd hholds.room (by decide)
    · exact absurd (hholds.bytes_eq 1 (by decide)) (by decide)

end Successive

end BinTrace
