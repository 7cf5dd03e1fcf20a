import BinTrace.Proofs.Function.Swap
import BinTrace.Proofs.Patch.Rewrite

/-!
Patching a function. The jumps are put into its graph one after the other, each in the place of the
instructions that its detour displaces; to the bytes of the function this does what writing the
patches over them does.
-/

namespace BinTrace

open Outcome

/-- What the detour displaces stands in the graph, and the jump needs all of it. -/
structure Detour.StandsIn (d : Detour) (g : FlowGraph) : Prop where
  hasRun : g.HasRun d.site d.displaced
  room : Encode.jumpSize ≤ totalSize d.displaced
  needed : coveringRun Encode.jumpSize d.displaced = d.displaced

/-- A detour that leads out of a function stands in the graph of the function. -/
theorem PatchPoint.Detours.standsIn {w : Width} {f : Function} {p : PatchPoint} {d e : Detour}
    {a : Nat} {g : FlowGraph} (h : p.Detours w f d) (hlaid : d.LaidFrom e a)
    (hgraph : f.graph = some g) (hwf : g.WellFormed) (hg : g.LaidOut) : e.StandsIn g := by
  obtain ⟨-, protection, hd⟩ := h
  have hpos : ∀ i ∈ g.instructions, 0 < i.size := by
    intro i hi
    obtain ⟨b, hb, hi⟩ := List.mem_flatMap.mp hi
    exact (hg.blocks b hb).size_pos i hi
  obtain ⟨b, hb, index, i, rest, -, hdrop, haddress, hcovers, hrun⟩ :=
    displaced_of_buildDetour hgraph hwf hpos hd
  obtain ⟨behind, hbehind⟩ := coveringRun_isPrefix Encode.jumpSize (i :: rest)
  have hsplit : b.instructions = b.instructions.take index ++ d.displaced ++ behind := by
    rw [hrun, List.append_assoc, hbehind, ← hdrop, List.take_append_drop]
  have hsite : d.site = b.address + totalSize (b.instructions.take index) := by
    have hcontiguous := (hg.blocks b hb).contiguous
    rw [← List.take_append_drop index b.instructions, hdrop, contiguous_append] at hcontiguous
    exact haddress.symm.trans hcontiguous.2.1
  refine ⟨?_, ?_, ?_⟩
  · rw [hlaid.site_eq, hlaid.displaced_eq]
    exact ⟨b, hb, _, behind, hsplit, hsite⟩
  · rw [hlaid.displaced_eq, hrun]
    exact le_totalSize_coveringRun hcovers
  · rw [hlaid.displaced_eq, hrun, coveringRun_coveringRun]

namespace PatchSet

variable {f : Function} {g : FlowGraph} {d e : Detour} {patch : List Instruction}

/-- A patch begins with the jump, which the encoder made. -/
theorem exists_siteJump (h : sitePatch d = .ok patch) : ∃ jump, siteJump d = .ok jump ∧
    jump.size = Encode.jumpSize ∧ Encode.Made jump ∧
    patch = layOutFrom d.site (jump :: Encode.nops (d.range.size - Encode.jumpSize)) := by
  obtain ⟨jump, hjump, h⟩ := bind_eq_ok.mp h
  obtain rfl := Except.ok.inj h
  refine ⟨jump, hjump, ?_⟩
  unfold siteJump at hjump
  split at hjump
  · obtain ⟨v, -, -, rfl⟩ := Encode.jumpNear_ok (mapError_eq_ok.mp hjump)
    have hsize : (0xe9 :: LittleEndian.bytesOfInt 4 v).length = Encode.jumpSize := rfl
    exact ⟨hsize, ⟨rfl, Nat.lt_of_lt_of_eq (by decide : 0 < Encode.jumpSize) hsize.symm⟩, rfl⟩
  · cases hjump

/-- One jump: what it does to the bytes, and that it leaves alone what other detours displace. -/
theorem patchSite_ok (hgraph : f.graph = some g) (hg : g.LaidOut) (hd : d.StandsIn g)
    (hpatch : sitePatch d = .ok patch) :
    ∃ g', (patchSite d).run f = .ok () { f with graph := some g' } ∧ g'.base = g.base ∧
      g'.LaidOut ∧ PatchPoint.writeAt g.dump g.base d.site (bytesOfAll patch) = .ok g'.dump ∧
      ∀ e : Detour, e.StandsIn g → d.range.Apart e.range → e.StandsIn g' := by
  obtain ⟨jump, hjump, hsize, hmade, rfl⟩ := exists_siteJump hpatch
  have htotal : totalSize [jump] = Encode.jumpSize := by
    rw [totalSize_cons, totalSize_nil, hsize, Nat.add_zero]
  have hne : d.displaced ≠ [] := by
    intro hnil
    have hroom := hd.room
    rw [hnil] at hroom
    exact absurd hroom (by decide)
  obtain ⟨f', hswap⟩ : ∃ f', f.swap d.site [jump] = .ok (d.displaced, f') :=
    Function.exists_swap hgraph hg hd.hasRun hne (htotal ▸ hd.room) (htotal ▸ hd.needed)
  obtain ⟨g', rfl, hbase, hlaid, hwrite, hkept⟩ :=
    Function.swap_spec hgraph hg (List.forall_mem_singleton.mpr hmade) hswap
  refine ⟨g', ?_, hbase, hlaid, ?_, fun e he hapart => ⟨hkept _ _ he.hasRun hapart, he.room,
    he.needed⟩⟩
  · simp only [patchSite, EStateM.run_bind, EStateM.run_get, hjump, hswap]
    rfl
  · rwa [htotal] at hwrite

/-- All jumps, one after the other. -/
theorem exists_patched {ds : List Detour} (hgraph : f.graph = some g) (hg : g.LaidOut)
    (hstands : ∀ d ∈ ds, d.StandsIn g) (hapart : ds.Pairwise fun d e => d.range.Apart e.range)
    (hpatches : ∀ d ∈ ds, ∃ patch, sitePatch d = .ok patch) :
    ∃ g' sites, (ds.forM patchSite).run f = .ok () { f with graph := some g' } ∧
      List.Forall₂ (fun d site => ∃ patch, sitePatch d = .ok patch ∧ site = (d.site, patch))
        ds sites ∧
      writePatches g.dump g.base sites = (g'.dump, .ok ()) := by
  -- Behind each jump the detours that are left still stand in the graph, as they keep off it.
  induction ds generalizing f g with
  | nil =>
      refine ⟨g, [], ?_, .nil, rfl⟩
      rw [← hgraph]
      rfl
  | cons d rest ih =>
      obtain ⟨hd, hstands⟩ := List.forall_mem_cons.mp hstands
      obtain ⟨hfirst, hapart⟩ := List.pairwise_cons.mp hapart
      obtain ⟨⟨patch, hpatch⟩, hpatches⟩ := List.forall_mem_cons.mp hpatches
      obtain ⟨g₁, hrun, hbase, hlaid, hwrite, hkept⟩ := patchSite_ok hgraph hg hd hpatch
      obtain ⟨g', sites, hrest, hsites, hwrites⟩ := ih (f := { f with graph := some g₁ }) rfl hlaid
        (fun e he => hkept e (hstands e he) (hfirst e he)) hapart hpatches
      refine ⟨g', (d.site, patch) :: sites, ?_, .cons ⟨patch, hpatch, rfl⟩ hsites, ?_⟩
      · rw [List.forM_eq_forM] at hrest ⊢
        rw [List.forM_cons, EStateM.run_bind, hrun]
        exact hrest
      · rw [writePatches, hwrite, ← hbase]
        exact hwrites

end PatchSet

end BinTrace
