import BinTrace.Proofs.Flow.Dominators

/-!
Instructions of a flow graph by their places, and which of them may follow which. In a graph that
has been built no block is empty, so there is a first instruction wherever an edge leads, and no
two instructions have the same address.
-/

namespace BinTrace

open Outcome

/-- The number of a block and a position among its instructions. -/
structure Place where
  block : Nat
  index : Nat
  deriving DecidableEq

namespace FlowGraph

def instruction? (g : FlowGraph) (p : Place) : Option Instruction :=
  (g.block? p.block).bind fun b => b.instructions[p.index]?

/-- One instruction may be executed right after another: it stands behind it in the same block, or
it is the first of a block to which an edge leads from the end of the other's block. -/
inductive Follows (g : FlowGraph) : Place → Place → Prop
  | within {n k : Nat} {b : Block} (hb : g.block? n = some b)
      (hk : k + 1 < b.instructions.length) : g.Follows ⟨n, k⟩ ⟨n, k + 1⟩
  | across {n k m : Nat} {b : Block} (hb : g.block? n = some b)
      (hk : k + 1 = b.instructions.length) (hm : m ∈ b.succs) : g.Follows ⟨n, k⟩ ⟨m, 0⟩

/-- The blocks are not empty, edges lead to blocks, and addresses increase. -/
structure Sequenced (g : FlowGraph) : Prop where
  nonempty : ∀ b ∈ g.blocks, b.instructions ≠ []
  lt {v w : Nat} : g.Leads v w → w < g.blocks.length
  increasing : g.instructions.Pairwise fun i j => i.address < j.address

variable {g : FlowGraph} {p q : Place} {i : Instruction}

theorem instruction?_eq_some : g.instruction? p = some i ↔
    ∃ b, g.block? p.block = some b ∧ b.instructions[p.index]? = some i :=
  Option.bind_eq_some_iff

theorem mem_instructions_of_instruction? (h : g.instruction? p = some i) : i ∈ g.instructions := by
  obtain ⟨b, hb, hi⟩ := instruction?_eq_some.mp h
  exact List.mem_flatMap.mpr ⟨b, List.mem_of_getElem? hb, List.mem_of_getElem? hi⟩

theorem Follows.exists_instruction (h : g.Follows p q) : ∃ i, g.instruction? p = some i := by
  cases h with
  | @within n k b hb hk =>
      have hlt : k < b.instructions.length := by omega
      exact ⟨_, instruction?_eq_some.mpr ⟨b, hb, List.getElem?_eq_getElem hlt⟩⟩
  | @across n k m b hb hk hm =>
      have hlt : k < b.instructions.length := by omega
      exact ⟨_, instruction?_eq_some.mpr ⟨b, hb, List.getElem?_eq_getElem hlt⟩⟩

theorem follows_iff_within {n k : Nat} {b : Block} (hb : g.block? n = some b)
    (hk : k + 1 < b.instructions.length) : g.Follows ⟨n, k⟩ q ↔ q = ⟨n, k + 1⟩ := by
  constructor
  · intro h
    cases h with
    | within => rfl
    | across hb' hk' =>
        obtain rfl := Option.some.inj (hb.symm.trans hb')
        omega
  · rintro rfl
    exact .within hb hk

theorem follows_iff_across {n k : Nat} {b : Block} (hb : g.block? n = some b)
    (hk : k + 1 = b.instructions.length) : g.Follows ⟨n, k⟩ q ↔ ∃ m ∈ b.succs, q = ⟨m, 0⟩ := by
  constructor
  · intro h
    cases h with
    | within hb' hk' =>
        obtain rfl := Option.some.inj (hb.symm.trans hb')
        omega
    | @across _ _ m _ hb' _ hm =>
        obtain rfl := Option.some.inj (hb.symm.trans hb')
        exact ⟨m, hm, rfl⟩
  · rintro ⟨m, hm, rfl⟩
    exact .across hb hk hm

/-- An instruction is followed by instructions. -/
theorem Sequenced.exists_instruction (hg : g.Sequenced) (h : g.Follows p q) :
    ∃ j, g.instruction? q = some j := by
  cases h with
  | within hb hk => exact ⟨_, instruction?_eq_some.mpr ⟨_, hb, List.getElem?_eq_getElem hk⟩⟩
  | @across n k m b hb hk hm =>
      have hlt : m < g.blocks.length := hg.lt ⟨b, hb, hm⟩
      have hc : g.block? m = some g.blocks[m] := List.getElem?_eq_getElem hlt
      have hpos := List.length_pos_iff.mpr (hg.nonempty _ (List.getElem_mem hlt))
      exact ⟨_, instruction?_eq_some.mpr ⟨_, hc, List.getElem?_eq_getElem hpos⟩⟩

theorem Sequenced.mapBlocks {f : Nat → Block → Block} (hf : KeepsCode f) (hg : g.Sequenced) :
    (g.mapBlocks f).Sequenced := by
  refine ⟨fun b hb => ?_, fun {v w} h => ?_, ?_⟩
  · obtain ⟨n, c, hc, rfl⟩ := mem_blocks_mapBlocks.mp hb
    rw [(hf n c).2.1]
    exact hg.nonempty c (List.mem_of_getElem? hc)
  · rw [length_blocks_mapBlocks]
    exact hg.lt ((leads_mapBlocks hf).mp h)
  · rw [instructions_mapBlocks hf]
    exact hg.increasing

theorem Source.map_instructions_assemble (s : Source) (ordered : List Instruction) :
    (s.assemble ordered).blocks.map Block.instructions = s.splitBlocks ordered := by
  have hblocks : (s.assemble ordered).blocks = link (s.draftBlocks (s.splitBlocks ordered)) :=
    blocks_layOut _
  rw [hblocks, map_link _ fun b preds => rfl]
  simp [draftBlocks, Function.comp_def]

theorem Source.sequenced_assemble {s : Source} {ordered : List Instruction}
    (hchain : ordered.IsChain fun i j => i.address ≠ j.address ∧ i.stop ≤ j.address) :
    (s.assemble ordered).Sequenced := by
  refine ⟨fun b hb => ?_, (s.mirrored_assemble ordered).lt, ?_⟩
  · have hmem := List.mem_map_of_mem (f := Block.instructions) hb
    rw [s.map_instructions_assemble] at hmem
    exact List.ne_nil_of_mem_splitBy hmem
  · rw [s.instructions_assemble]
    have hless : ordered.IsChain fun i j => i.address < j.address := by
      refine hchain.imp fun i j hij => ?_
      have hle := hij.2
      rw [Instruction.stop] at hle
      omega
    have htrans : IsTrans Instruction fun i j => i.address < j.address :=
      ⟨fun _ _ _ => Nat.lt_trans⟩
    exact List.isChain_iff_pairwise.mp hless

theorem sequenced_of_build {s : Source} {is : List Instruction} (h : build s is = .ok g) :
    g.Sequenced := by
  obtain ⟨ordered, -, hchain, rfl⟩ := build_eq_ok h
  rcases markReachable_eq (s.assemble ordered) with heq | ⟨f, hf, heq⟩
  · rw [heq]
    exact Source.sequenced_assemble hchain
  · rw [heq]
    exact (Source.sequenced_assemble hchain).mapBlocks hf

end FlowGraph

end BinTrace
