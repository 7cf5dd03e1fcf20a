import BinTrace.Proofs.Function.Digest
import BinTrace.Proofs.Patch.Steps

/-!
Where a detour goes: the displaced instructions are whole instructions of the function, lie one
behind the other from the site on, and leave room for a jump.
-/

namespace BinTrace

theorem coveringRun_isPrefix (needed : Nat) (is : List Instruction) :
    coveringRun needed is <+: is := by
  induction is generalizing needed with
  | nil => exact List.prefix_refl _
  | cons i rest ih =>
      rw [coveringRun]
      split
      · exact List.nil_prefix
      · exact (List.prefix_cons_inj i).mpr (ih _)

theorem le_totalSize_coveringRun {needed : Nat} {is : List Instruction}
    (h : Block.covers needed is = true) : needed ≤ totalSize (coveringRun needed is) := by
  induction is generalizing needed with
  | nil =>
      have : needed = 0 := by simpa [Block.covers] using h
      omega
  | cons i rest ih =>
      rw [coveringRun]
      split
      · omega
      · rename_i hne
        simp only [Block.covers, hne, decide_false, Bool.false_or, Bool.and_eq_true] at h
        have := ih h.2
        rw [totalSize_cons]
        omega

/-- In a run of instructions the one at an address is found from the front. -/
theorem dropWhile_eq_drop {a n : Nat} {is rest : List Instruction} {i : Instruction}
    (hc : Contiguous a is) (hpos : ∀ j ∈ is, 0 < j.size) (hdrop : is.drop n = i :: rest) :
    is.dropWhile (fun j => j.address ≠ i.address) = i :: rest := by
  have hsplit : is.take n ++ i :: rest = is := by rw [← hdrop, List.take_append_drop]
  have hfront : ∀ j ∈ is.take n, decide (j.address ≠ i.address) = true := by
    intro j hj
    have hpairs := hc.pairwise
    rw [← hsplit, List.pairwise_append] at hpairs
    have hbefore := hpairs.2.2 j hj i List.mem_cons_self
    have := hpos j (List.mem_of_mem_take hj)
    simp only [Instruction.stop] at hbefore
    exact decide_eq_true (by omega)
  rw [← hsplit, List.dropWhile_append_of_pos hfront]
  simp

namespace Block

/-- What it takes for a patch to start at an address. -/
theorem patchStart?_eq_some {b : Block} {a size site : Nat} {location : Location}
    (h : b.patchStart? a size location = some site) :
    ∃ index i rest, b.patchIndex? a location = some index ∧
      b.instructions.drop index = i :: rest ∧ i.address = site ∧ covers size (i :: rest) = true := by
  obtain ⟨index, hindex, h⟩ := Option.bind_eq_some_iff.mp h
  dsimp only at h
  split at h
  · rename_i hcovers
    obtain ⟨i, hi, rfl⟩ := Option.map_eq_some_iff.mp h
    cases hrest : b.instructions.drop index with
    | nil => simp [hrest] at hi
    | cons j rest =>
        rw [hrest] at hi hcovers
        cases hi
        exact ⟨index, i, rest, hindex, hrest, rfl, hcovers⟩
  · cases h

/-- In front of an instruction or in its place, a patch starts at the instruction. -/
theorem address_of_patchIndex? {b : Block} {a index : Nat} {location : Location}
    (h : b.patchIndex? a location = some index) (hlocation : location ≠ .after) {i : Instruction}
    {rest : List Instruction} (hdrop : b.instructions.drop index = i :: rest) : i.address = a := by
  have hindex : b.indexAt? a = some index := by
    obtain ⟨n, hn, h⟩ := Option.bind_eq_some_iff.mp h
    cases location with
    | before => cases h; exact hn
    | replace => cases h; exact hn
    | after => contradiction
  obtain ⟨hlt, hfound, -⟩ := List.findIdx?_eq_some_iff_getElem.mp hindex
  have hi : b.instructions[index] = i := by
    have := congrArg List.head? hdrop
    rw [List.head?_drop, List.getElem?_eq_getElem hlt] at this
    exact Option.some.inj this
  simpa [hi] using hfound

end Block

/-- The displaced instructions lie in the function one behind the other from the site on, and they
have room for a jump. -/
structure Detour.Displaces (d : Detour) (f : Function) : Prop where
  contiguous : Contiguous d.site d.displaced
  room : Encode.jumpSize ≤ totalSize d.displaced
  mem : ∀ i ∈ d.displaced, i ∈ f.instructions
  base_le : f.base ≤ d.site
  stop_le : d.site + totalSize d.displaced ≤ f.base + f.bytes.length
  bytes_eq : bytesOfAll d.displaced =
    (f.bytes.drop (d.site - f.base)).take (totalSize d.displaced)

namespace FlowGraph

theorem contains_of_blockContaining? {g : FlowGraph} {a n : Nat} {b : Block}
    (hn : g.blockContaining? a = some n) (hb : g.block? n = some b) :
    b.address ≤ a ∧ a < b.stop := by
  unfold blockContaining? at hn
  split at hn
  · cases hn
  · split at hn
    · rename_i hcontains
      cases hn
      rw [hb] at hcontains
      simpa [Block.contains] using hcontains
    · cases hn

end FlowGraph

/-- An instruction of a block lies in it. -/
theorem Block.WellFormed.bounds {b : Block} (hb : b.WellFormed) {i : Instruction}
    (hi : i ∈ b.instructions) : b.address ≤ i.address ∧ i.stop ≤ b.stop := by
  refine ⟨hb.contiguous.address_le i hi, ?_⟩
  obtain ⟨front, rest, hsplit⟩ := List.append_of_mem hi
  have hcontiguous := hb.contiguous
  rw [hsplit, contiguous_append] at hcontiguous
  have hsize : b.size = totalSize front + (i.size + totalSize rest) := by
    rw [Block.size, hsplit, totalSize_append, totalSize_cons]
  rw [Instruction.stop, Block.stop, hsize, hcontiguous.2.1]
  omega

namespace PatchPoint

variable {w : Width} {f : Function} {p : PatchPoint} {protection : Protection} {d : Detour}

/-- The displaced instructions are found in the block in which the point was looked up: blocks that
share the site are the same block. -/
theorem displacedAt_eq {g : FlowGraph} (hg : g.WellFormed)
    (hpos : ∀ i ∈ g.instructions, 0 < i.size) {b b' : Block} (hb : b ∈ g.blocks)
    (hb' : b' ∈ g.blocks) {index : Nat} {i : Instruction} {rest : List Instruction}
    (hdrop : b.instructions.drop index = i :: rest)
    (hsite : b'.address ≤ i.address ∧ i.address < b'.stop) :
    b' = b ∧ displacedAt b' i.address = coveringRun Encode.jumpSize (i :: rest) := by
  have hmem : i ∈ b.instructions :=
    List.mem_of_mem_drop (hdrop ▸ List.mem_cons_self : i ∈ b.instructions.drop index)
  have hpos' : ∀ j ∈ b.instructions, 0 < j.size :=
    fun j hj => hpos j (List.mem_flatMap.mpr ⟨b, hb, hj⟩)
  have hwf := hg.blocks b hb
  have hbounds := hwf.bounds hmem
  have hsize := hpos' i hmem
  simp only [Instruction.stop] at hbounds
  have heq : b' = b := hg.eq_of_contains hb' hb hsite ⟨hbounds.1, by omega⟩
  refine ⟨heq, ?_⟩
  rw [displacedAt, heq, dropWhile_eq_drop hwf.contiguous hpos' hdrop]

/-- Which instructions a detour displaces, told by the block that holds the site. -/
theorem displaced_of_buildDetour {g : FlowGraph} (hgraph : f.graph = some g) (hg : g.WellFormed)
    (hpos : ∀ i ∈ g.instructions, 0 < i.size) (h : p.buildDetour w f protection = .ok d) :
    ∃ b ∈ g.blocks, ∃ index i rest, b.patchIndex? p.address p.location = some index ∧
      b.instructions.drop index = i :: rest ∧ i.address = d.site ∧
      Block.covers Encode.jumpSize (i :: rest) = true ∧
      d.displaced = coveringRun Encode.jumpSize (i :: rest) := by
  obtain ⟨hsite, ⟨b', hb', hdisplaced⟩, -, -⟩ := buildDetour_ok h
  rw [hgraph, Option.bind_some] at hb'
  obtain ⟨n', hn', hb'⟩ := Option.bind_eq_some_iff.mp hb'
  rw [Function.patchStart?, hgraph] at hsite
  obtain ⟨_, hsame, hsite⟩ := Option.bind_eq_some_iff.mp hsite
  obtain rfl := Option.some.inj hsame
  obtain ⟨n, -, hsite⟩ := Option.bind_eq_some_iff.mp hsite
  obtain ⟨b, hb, hsite⟩ := Option.bind_eq_some_iff.mp hsite
  obtain ⟨index, i, rest, hindex, hdrop, haddress, hcovers⟩ := Block.patchStart?_eq_some hsite
  have hmem : b ∈ g.blocks := List.mem_of_getElem? hb
  -- The point and the displaced instructions are looked up apart, in what is the same block.
  obtain ⟨-, hrun⟩ := displacedAt_eq hg hpos hmem (List.mem_of_getElem? hb') hdrop
    (haddress ▸ FlowGraph.contains_of_blockContaining? hn' hb')
  rw [haddress, ← hdisplaced] at hrun
  exact ⟨b, hmem, index, i, rest, hindex, hdrop, haddress, hcovers, hrun⟩

theorem displaces_of_holds {s : FlowGraph.Source} (hbase : s.range.base = f.base)
    (hstop : s.range.stop = f.base + f.bytes.length) (hbytes : s.bytes = f.bytes)
    (hc : Contiguous d.site d.displaced) (hroom : Encode.jumpSize ≤ totalSize d.displaced)
    (hmem : ∀ i ∈ d.displaced, i ∈ f.instructions) (hholds : ∀ i ∈ d.displaced, s.Holds i) :
    d.Displaces f := by
  have hne : d.displaced ≠ [] := by
    intro hnil
    rw [hnil] at hroom
    exact absurd hroom (by decide)
  obtain ⟨i, rest, hfirst⟩ := List.exists_cons_of_ne_nil hne
  have hsite : i.address = d.site := by
    rw [hfirst] at hc
    exact hc.1
  refine ⟨hc, hroom, hmem, ?_, ?_, ?_⟩
  · rw [← hbase, ← hsite]
    exact (hholds i (hfirst ▸ List.mem_cons_self)).base_le
  · have hlast := List.getLast?_eq_some_getLast hne
    rw [← hstop, ← FlowGraph.Source.stop_getLast_of_contiguous hc hlast]
    exact (hholds _ (List.getLast_mem hne)).stop_le
  · rw [← hbase, ← hbytes]
    exact FlowGraph.Source.bytesOfAll_of_contiguous hc hholds

theorem displaces_of_buildDetour (hf : f.Digested) (h : p.buildDetour w f protection = .ok d) :
    d.Displaces f ∧ (p.location ≠ .after → d.site = p.address) := by
  obtain ⟨input, g, hbase, hbytes, hgraph, hreads, hfinds⟩ := hf.spec
  have hpos : ∀ i ∈ g.instructions, 0 < i.size := fun i hi => ((hfinds i hi).holds []).size_pos
  obtain ⟨b, hb, index, i, rest, hindex, hdrop, haddress, hcovers, hrun⟩ :=
    displaced_of_buildDetour hgraph hreads.wellFormed hpos h
  obtain ⟨suffix, hsuffix⟩ := coveringRun_isPrefix Encode.jumpSize (i :: rest)
  rw [← hrun] at hsuffix
  have hmem : ∀ j ∈ d.displaced, j ∈ g.instructions := by
    intro j hj
    have hj' : j ∈ b.instructions.drop index := by
      rw [hdrop, ← hsuffix]
      exact List.mem_append_left _ hj
    exact List.mem_flatMap.mpr ⟨b, hb, List.mem_of_mem_drop hj'⟩
  have hcontiguous : Contiguous d.site d.displaced := by
    have hwhole := (hreads.wellFormed.blocks b hb).contiguous
    rw [← List.take_append_drop index b.instructions, contiguous_append, hdrop] at hwhole
    have hrest : Contiguous d.site (i :: rest) := by
      rw [← haddress, hwhole.2.1]
      exact ⟨hwhole.2.1, hwhole.2.2⟩
    rw [← hsuffix, contiguous_append] at hrest
    exact hrest.1
  have hroom : Encode.jumpSize ≤ totalSize d.displaced := hrun ▸ le_totalSize_coveringRun hcovers
  refine ⟨displaces_of_holds (s := input.source []) hbase ?_ hbytes hcontiguous hroom ?_ ?_,
    fun hlocation => ?_⟩
  · rw [← hbase, ← hbytes]
    rfl
  · rw [Function.instructions, hgraph]
    exact hmem
  · exact fun j hj => (hfinds j (hmem j hj)).holds []
  · rw [← haddress]
    exact Block.address_of_patchIndex? hindex hlocation hdrop

end PatchPoint

end BinTrace
