import BinTrace.Proofs.Flow.Build

/-!
The edges of a graph that has been built. A block leads to the blocks that start where the last
instruction of it sends control, and it is an exit if that instruction returns or sends control to
somewhere that the graph does not know.
-/

namespace BinTrace.FlowGraph

open Source

/-- Some block of the graph starts at the address. -/
def StartsAt (g : FlowGraph) (a : Nat) : Prop := ∃ b ∈ g.blocks, b.address = a

instance (g : FlowGraph) (a : Nat) : Decidable (g.StartsAt a) :=
  inferInstanceAs (Decidable (∃ b ∈ g.blocks, b.address = a))

/-- Successors and exits are what the last instructions of the blocks ask for. -/
structure Joined (g : FlowGraph) (s : Source) : Prop where
  mem_succs_iff {b : Block} {last : Instruction} : b ∈ g.blocks →
    b.instructions.getLast? = some last → ∀ m, m ∈ b.succs ↔
      ∃ c, g.block? m = some c ∧ c.address ∈ s.targets last
  isExit_eq {b : Block} {last : Instruction} : b ∈ g.blocks →
    b.instructions.getLast? = some last →
      b.flags.isExit = s.leaves (fun a => decide (g.StartsAt a)) last

/-- A change of blocks that keeps which of them are exits. -/
def KeepsExits (f : Nat → Block → Block) : Prop :=
  ∀ n b, (f n b).flags.isExit = b.flags.isExit

variable {g : FlowGraph} {s : Source} {f : Nat → Block → Block}

theorem startsAt_mapBlocks (hf : KeepsCode f) (a : Nat) :
    (g.mapBlocks f).StartsAt a ↔ g.StartsAt a := by
  constructor
  · rintro ⟨c, hc, rfl⟩
    obtain ⟨n, b, hb, rfl⟩ := mem_blocks_mapBlocks.mp hc
    exact ⟨b, List.mem_of_getElem? hb, (hf n b).1.symm⟩
  · rintro ⟨b, hb, rfl⟩
    obtain ⟨n, hn⟩ := List.getElem?_of_mem hb
    exact ⟨f n b, mem_blocks_mapBlocks.mpr ⟨n, b, hn, rfl⟩, (hf n b).1⟩

theorem Joined.mapBlocks (hf : KeepsCode f) (he : KeepsExits f) (hg : g.Joined s) :
    (g.mapBlocks f).Joined s := by
  refine ⟨fun {c last} hc hlast m => ?_, fun {c last} hc hlast => ?_⟩
  · obtain ⟨n, b, hn, rfl⟩ := mem_blocks_mapBlocks.mp hc
    have hb : b ∈ g.blocks := List.mem_of_getElem? hn
    rw [(hf n b).2.1] at hlast
    rw [(hf n b).2.2.2, hg.mem_succs_iff hb hlast, block?_mapBlocks]
    cases g.block? m with
    | none => simp
    | some d => simp [(hf m d).1]
  · obtain ⟨n, b, hn, rfl⟩ := mem_blocks_mapBlocks.mp hc
    rw [(hf n b).2.1] at hlast
    rw [he, hg.isExit_eq (List.mem_of_getElem? hn) hlast]
    simp only [startsAt_mapBlocks hf]

theorem Source.mem_succs_block {starts : List (Nat × Nat)} {is : List Instruction}
    {last : Instruction} (hlast : is.getLast? = some last) (m : Nat) :
    m ∈ (s.block starts is).succs ↔ ∃ a ∈ s.targets last, (a, m) ∈ starts := by
  unfold Source.block
  rw [hlast]
  simp only [List.mem_map, List.mem_filter, List.contains_iff_mem]
  constructor
  · rintro ⟨⟨a, n⟩, ⟨hstart, ha⟩, rfl⟩
    exact ⟨a, ha, hstart⟩
  · rintro ⟨a, ha, hstart⟩
    exact ⟨(a, m), ⟨hstart, ha⟩, rfl⟩

theorem Source.isExit_block {starts : List (Nat × Nat)} {is : List Instruction}
    {last : Instruction} (hlast : is.getLast? = some last) :
    (s.block starts is).flags.isExit =
      s.leaves (fun a => starts.any fun start => start.1 = a) last := by
  unfold Source.block
  rw [hlast]

theorem Source.map_address_assemble (s : Source) (ordered : List Instruction) :
    (s.assemble ordered).blocks.map Block.address = (s.splitBlocks ordered).map startOf := by
  have hblocks : (s.assemble ordered).blocks = link (s.draftBlocks (s.splitBlocks ordered)) :=
    blocks_layOut _
  rw [hblocks, map_link _ fun b preds => rfl]
  simp [draftBlocks, Function.comp_def]

theorem Source.joined_assemble (s : Source) (ordered : List Instruction) :
    (s.assemble ordered).Joined s := by
  have hblocks : (s.assemble ordered).blocks = link (s.draftBlocks (s.splitBlocks ordered)) :=
    blocks_layOut _
  have haddresses := s.map_address_assemble ordered
  have hdraft : ∀ b ∈ (s.assemble ordered).blocks, ∃ run,
      b.instructions = run ∧ b.succs = (s.block ((s.splitBlocks ordered).map startOf).zipIdx run).succs ∧
        b.flags = (s.block ((s.splitBlocks ordered).map startOf).zipIdx run).flags := by
    intro b hb
    obtain ⟨n, hn⟩ := List.getElem?_of_mem hb
    rw [hblocks, getElem?_link] at hn
    obtain ⟨c, hc, rfl⟩ := Option.map_eq_some_iff.mp hn
    obtain ⟨run, -, rfl⟩ := List.mem_map.mp (List.mem_of_getElem? hc)
    exact ⟨run, instructions_block _, rfl, rfl⟩
  refine ⟨fun {b last} hb hlast m => ?_, fun {b last} hb hlast => ?_⟩
  · obtain ⟨run, hrun, hsuccs, -⟩ := hdraft b hb
    rw [hrun] at hlast
    rw [hsuccs, mem_succs_block hlast]
    simp only [List.mem_zipIdx_iff_getElem?, ← haddresses, List.getElem?_map,
      Option.map_eq_some_iff, block?]
    constructor
    · rintro ⟨_, ha, c, hc, rfl⟩
      exact ⟨c, hc, ha⟩
    · rintro ⟨c, hc, ha⟩
      exact ⟨_, ha, c, hc, rfl⟩
  · obtain ⟨run, hrun, -, hflags⟩ := hdraft b hb
    rw [hrun] at hlast
    rw [hflags, isExit_block hlast]
    congr 1
    funext a
    rw [Bool.eq_iff_iff, List.any_eq_true, decide_eq_true_iff]
    constructor
    · rintro ⟨start, hstart, ha⟩
      have hmem := List.mem_map_of_mem (f := Prod.fst) hstart
      rw [List.zipIdx_map_fst, ← haddresses] at hmem
      obtain ⟨c, hc, hca⟩ := List.mem_map.mp hmem
      exact ⟨c, hc, hca.trans (of_decide_eq_true ha)⟩
    · rintro ⟨c, hc, rfl⟩
      have hmem := List.mem_map_of_mem (f := Block.address) hc
      rw [haddresses, ← List.zipIdx_map_fst 0 ((s.splitBlocks ordered).map startOf)] at hmem
      obtain ⟨start, hstart, ha⟩ := List.mem_map.mp hmem
      exact ⟨start, hstart, decide_eq_true ha⟩

theorem Joined.markReachable (hg : g.Joined s) : g.markReachable.Joined s := by
  unfold FlowGraph.markReachable
  split
  · exact hg
  · exact hg.mapBlocks (fun _ _ => ⟨rfl, rfl, rfl, rfl⟩) fun _ _ => rfl

theorem joined_of_build {is : List Instruction} (h : build s is = .ok g) : g.Joined s := by
  obtain ⟨ordered, -, -, rfl⟩ := build_eq_ok h
  exact (s.joined_assemble ordered).markReachable

end BinTrace.FlowGraph
