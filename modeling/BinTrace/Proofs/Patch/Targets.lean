import BinTrace.Proofs.Flow.Leaders
import BinTrace.Proofs.Patch.Runs

/-!
No known jump lands inside of a patch. The instructions that a detour displaces lie in one block,
and in a function that was found by recursive descent a block begins at every known target inside
of it; so a target can only be the first byte of a patch.
-/

namespace BinTrace

open Outcome

theorem totalSize_pos {is : List Instruction} (hne : is ≠ []) (hpos : ∀ i ∈ is, 0 < i.size) :
    0 < totalSize is := by
  obtain ⟨i, rest, rfl⟩ := List.exists_cons_of_ne_nil hne
  have := hpos i List.mem_cons_self
  rw [totalSize_cons]
  omega

namespace PatchPoint

variable {w : Width} {f : Function} {p : PatchPoint} {protection : Protection} {d : Detour}
  {g : FlowGraph}

/-- What is displaced lies in one block. -/
theorem exists_block_of_buildDetour (hgraph : f.graph = some g) (hg : g.WellFormed)
    (hpos : ∀ i ∈ g.instructions, 0 < i.size) (h : p.buildDetour w f protection = .ok d) :
    ∃ b ∈ g.blocks, b.address ≤ d.range.base ∧ d.range.stop ≤ b.stop := by
  obtain ⟨b, hb, index, i, rest, -, hdrop, haddress, -, hrun⟩ :=
    displaced_of_buildDetour hgraph hg hpos h
  obtain ⟨behind, hbehind⟩ := coveringRun_isPrefix Encode.jumpSize (i :: rest)
  rw [← hrun] at hbehind
  have hsplit : b.instructions = b.instructions.take index ++ (d.displaced ++ behind) := by
    rw [hbehind, ← hdrop, List.take_append_drop]
  have hcontiguous := (hg.blocks b hb).contiguous
  rw [hsplit, hbehind, contiguous_append] at hcontiguous
  have hsite : d.site = b.address + totalSize (b.instructions.take index) :=
    haddress.symm.trans hcontiguous.2.1
  have hstop : b.stop = d.site + totalSize d.displaced + totalSize behind := by
    rw [Block.stop, Block.size, hsplit, totalSize_append, totalSize_append, hsite]
    omega
  refine ⟨b, hb, ?_, ?_⟩
  · change b.address ≤ d.site
    omega
  · change d.site + totalSize d.displaced ≤ b.stop
    omega

/-- No block begins inside of a patch. -/
theorem not_startsAt_of_buildDetour (hgraph : f.graph = some g) (hg : g.WellFormed)
    (hpos : ∀ i ∈ g.instructions, 0 < i.size) (h : p.buildDetour w f protection = .ok d) {a : Nat}
    (ha : d.range.base < a ∧ a < d.range.stop) : ¬ g.StartsAt a := by
  rintro ⟨c, hc, rfl⟩
  obtain ⟨b, hb, hbase, hstop⟩ := exists_block_of_buildDetour hgraph hg hpos h
  have hsize : 0 < c.size :=
    totalSize_pos (hg.blocks c hc).nonempty fun i hi => hpos i (List.mem_flatMap.mpr ⟨c, hc, hi⟩)
  have hstart : c.address < c.stop := Nat.lt_add_of_pos_right hsize
  -- The block of the patch would begin behind the site.
  have hsame : b = c :=
    hg.eq_of_contains hb hc ⟨by omega, by omega⟩ ⟨Nat.le_refl _, hstart⟩
  rw [hsame] at hbase
  omega

end PatchPoint

/-- None of the addresses lies behind the first byte of the range in it. -/
def AddressRange.Avoids (r : AddressRange) (targets : Nat → Prop) : Prop :=
  ∀ a, targets a → ¬(r.base < a ∧ a < r.stop)

variable {raw f : Function} {s : Function.Surroundings} {tables : List JumpTable}

theorem PatchPoint.Detours.avoids {w : Width} {p : PatchPoint} {d : Detour}
    (h : p.Detours w f d) (hdigest : (Function.digest s).run raw = .ok tables f)
    (hrecursive : f.strategy = some .recursive) : d.range.Avoids (f.IsTarget tables) := by
  intro a ha hinside
  have hdigested : f.Digested := ⟨raw, s, tables, hdigest⟩
  obtain ⟨⟨hbase, hstop⟩, -⟩ := h.range_subset hdigested
  obtain ⟨-, protection, hd⟩ := h
  obtain ⟨input, g, -, -, hgraph, hreads, hfinds⟩ := hdigested.spec
  have hpos : ∀ i ∈ g.instructions, 0 < i.size := fun i hi => ((hfinds i hi).holds []).size_pos
  have hin : f.range.contains a = true := by
    rw [AddressRange.contains_iff]
    simp only [AddressRange.stop] at hstop hinside
    omega
  exact PatchPoint.not_startsAt_of_buildDetour hgraph hreads.wellFormed hpos hd hinside
    (Function.startsAt_of_isTarget hdigest hrecursive hgraph ha hin)

/-- After every run, a patch was placed for one of the functions, and if that was found by recursive
descent then no branch or call of it leads into the patch, nor any table of it, except to the first
byte. -/
theorem PatchSet.patch_avoids_targets {w : Width} {regionBase base : Nat} {fs : List Function}
    {failed : Bool} {c : PatchSet} {text : List UInt8} (hfs : ∀ f ∈ fs, f.Digested)
    (hrun : PatchSet.Reached w regionBase base fs failed c text) {p : PatchPoint}
    (hp : p ∈ c.points) {d : Detour} (hd : p.progress.placedDetour? = some d) :
    ∃ f ∈ fs, f.range.contains p.address = true ∧ d.Displaces f ∧
      ∀ (raw : Function) (s : Function.Surroundings) (tables : List JumpTable),
        (Function.digest s).run raw = .ok tables f → f.strategy = some .recursive →
          d.range.Avoids (f.IsTarget tables) := by
  obtain ⟨f, hf, d₀, a, hdetour, hlaid⟩ := (hrun.sound hfs).built p hp d hd
  refine ⟨f, hf, hdetour.1, (hdetour.displaces (hfs f hf) hlaid).1,
    fun raw s tables hdigest hrecursive => ?_⟩
  rw [hlaid.range_eq]
  exact hdetour.avoids hdigest hrecursive

/-- The jump out of its function leads behind the patch in front of it. -/
theorem PatchSet.patch_avoids_targets_jumpOut : ∃ tables,
    (Function.digest { width := .bits64 }).run
        { name := "f", base := 0x1000, bytes := JumpOut.jump.bytes } = .ok tables JumpOut.function ∧
      JumpOut.function.strategy = some .recursive ∧ JumpOut.function.IsTarget tables 0x1015 ∧
      JumpOut.placedPoint.progress.placedDetour? =
        some ((LoneJump.detour JumpOut.jump).placedAt 0x10000) ∧
      ((LoneJump.detour JumpOut.jump).placedAt 0x10000).range.Avoids
        (JumpOut.function.IsTarget tables) := by
  have htarget : JumpOut.jump.controlTarget? = some 0x1015 := by decide
  obtain ⟨f, hrun, hstrategy⟩ := Function.exists_digest_recursive
    (f := { name := "f", base := 0x1000, bytes := JumpOut.jump.bytes }) (s := { width := .bits64 })
    JumpOut.decode_jump rfl rfl fun a ha hin => by
      cases htarget.symm.trans ha
      cases hin
  have hf : JumpOut.function = f := by
    rw [JumpOut.function, LoneJump.functionOf, show JumpOut.jump.address = 0x1000 from rfl, hrun]
  rw [← hf] at hrun hstrategy
  obtain ⟨g, b, h⟩ := JumpOut.function_spec
  have hmem : JumpOut.jump ∈ JumpOut.function.instructions := by
    simp [Function.instructions, h.graph_eq, FlowGraph.instructions, h.blocks_eq, h.instructions_eq]
  have hreached := JumpOut.reached (List.mem_singleton.mpr rfl) JumpOut.jump.bytes
  obtain ⟨f, hf, -, -, havoids⟩ := PatchSet.patch_avoids_targets (by simpa using h.digested)
    hreached (p := JumpOut.placedPoint) List.mem_cons_self rfl
  cases List.mem_singleton.mp hf
  exact ⟨[], hrun, hstrategy, .inl ⟨_, hmem, htarget⟩, rfl, havoids _ _ _ hrun hstrategy⟩

end BinTrace
