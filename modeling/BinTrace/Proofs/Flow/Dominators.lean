import BinTrace.Proofs.Dominators.Tree
import BinTrace.Proofs.Flow.Build
import Mathlib

/-!
Dominators of a flow graph. In a graph that has been built the predecessors mirror the successors,
and so the recorded blocks are the immediate dominators, and the walk along them finds all
dominators of a block.
-/

namespace BinTrace.FlowGraph

/-- Control can go from one block to another. -/
def Leads (g : FlowGraph) (v w : Nat) : Prop := ∃ b, g.block? v = some b ∧ w ∈ b.succs

/-- Edges lead to blocks, which count exactly their sources among their predecessors. -/
structure Mirrored (g : FlowGraph) : Prop where
  lt {v w : Nat} : g.Leads v w → w < g.blocks.length
  preds_iff {v w : Nat} : (∃ c, g.block? w = some c ∧ v ∈ c.preds) ↔ g.Leads v w

/-- The immediate dominator that is recorded for a block. -/
def idom? (g : FlowGraph) (number : Nat) : Option Nat := (g.block? number).bind Block.idom

variable {g : FlowGraph} {f : Nat → Block → Block} {entry v w : Nat}

theorem hasEdge_edges : HasEdge g.edges v w ↔ g.Leads v w := by
  simp only [HasEdge, edges, Leads, Array.getD_eq_getD_getElem?, List.getElem?_toArray,
    List.getElem?_map, block?]
  cases g.blocks[v]? with
  | none => simp
  | some b => simp

theorem mem_backwardEdges :
    v ∈ g.backwardEdges.getD w [] ↔ ∃ c, g.block? w = some c ∧ v ∈ c.preds := by
  simp only [backwardEdges, Array.getD_eq_getD_getElem?, List.getElem?_toArray,
    List.getElem?_map, block?]
  cases g.blocks[w]? with
  | none => simp
  | some b => simp

theorem idoms_getD : g.idoms.getD v none = g.idom? v := by
  simp only [idoms, idom?, Array.getD_eq_getD_getElem?, List.getElem?_toArray,
    List.getElem?_map, block?]
  cases g.blocks[v]? with
  | none => rfl
  | some b => rfl

theorem leads_mapBlocks (hf : KeepsCode f) : (g.mapBlocks f).Leads v w ↔ g.Leads v w := by
  simp only [Leads, block?_mapBlocks]
  cases g.block? v with
  | none => simp
  | some b => simp [(hf v b).2.2.2]

theorem Mirrored.mapBlocks (hf : KeepsCode f) (hg : g.Mirrored) : (g.mapBlocks f).Mirrored := by
  refine ⟨fun h => ?_, ?_⟩
  · rw [length_blocks_mapBlocks]
    exact hg.lt ((leads_mapBlocks hf).mp h)
  · intro v w
    rw [leads_mapBlocks hf, ← hg.preds_iff, block?_mapBlocks]
    cases g.block? w with
    | none => simp
    | some c => simp [(hf w c).2.2.1]

theorem Source.mirrored_assemble (s : Source) (ordered : List Instruction) :
    (s.assemble ordered).Mirrored := by
  have hblocks : (s.assemble ordered).blocks = link (s.draftBlocks (s.splitBlocks ordered)) :=
    blocks_layOut _
  have hleads : ∀ v w, (s.assemble ordered).Leads v w ↔
      ∃ b, (s.draftBlocks (s.splitBlocks ordered))[v]? = some b ∧ w ∈ b.succs := by
    intro v w
    rw [Leads, block?, hblocks, getElem?_link]
    cases (s.draftBlocks (s.splitBlocks ordered))[v]? with
    | none => simp
    | some b => simp
  refine ⟨fun {v w} h => ?_, fun {v w} => ?_⟩
  · obtain ⟨b, hb, hw⟩ := (hleads v w).mp h
    have hlt := succs_draftBlocks_lt b (List.mem_of_getElem? hb) w hw
    rw [hblocks]
    simpa [link] using hlt
  · rw [hleads, block?, hblocks, getElem?_link, ← mem_predecessors]
    cases hw : (s.draftBlocks (s.splitBlocks ordered))[w]? with
    | some c => simp
    | none =>
        have hnone : v ∉ predecessors (s.draftBlocks (s.splitBlocks ordered)) w := by
          rw [mem_predecessors]
          rintro ⟨b, hb, hmem⟩
          have hlt := succs_draftBlocks_lt b (List.mem_of_getElem? hb) w hmem
          exact absurd hw (by simp [hlt])
        simp [hnone]

theorem mirrored_of_build {s : Source} {is : List Instruction} (h : build s is = .ok g) :
    g.Mirrored := by
  obtain ⟨ordered, -, -, rfl⟩ := build_eq_ok h
  rcases markReachable_eq (s.assemble ordered) with heq | ⟨f, hf, heq⟩
  · rw [heq]
    exact s.mirrored_assemble ordered
  · rw [heq]
    exact (s.mirrored_assemble ordered).mapBlocks hf

theorem entryBlock?_lt (h : g.entryBlock? = some entry) : entry < g.blocks.length := by
  unfold entryBlock? at h
  split at h
  · cases h
  · rename_i hne
    obtain rfl := Option.some.inj h
    have hpos : 0 < g.blocks.length := List.length_pos_iff.mpr hne
    cases hfind : g.blocks.findIdx? fun b => b.address = g.base with
    | none => exact hpos
    | some n => exact (List.findIdx?_eq_some_iff_getElem.mp hfind).1

/-- What is recorded in a graph are its immediate dominators, with respect to the given entry. -/
structure HasDominators (g : FlowGraph) (entry : Nat) : Prop where
  exists_idom (b : Nat) : Reaches g.Leads entry b → b ≠ entry → ∃ d, g.idom? b = some d ∧
    StrictlyDominates g.Leads entry d b ∧
    ∀ c, StrictlyDominates g.Leads entry c b → Dominates g.Leads entry c d
  idom_entry : g.idom? entry = none
  idom_unreachable (b : Nat) : ¬ Reaches g.Leads entry b → g.idom? b = none
  /-- The walk along immediate dominators comes to its end. -/
  walk_ends (a b : Nat) : ∃ answer, dominatesBy g.idoms a b = some answer
  dominates_iff (a b : Nat) : Reaches g.Leads entry b →
    (g.dominates a b = true ↔ Dominates g.Leads entry a b)

theorem hasDominators_of_recorded {edges : Edges} {t : Numbering edges.size}
    (hw : Numbering.Walking edges entry t []) (hr : Recorded t (t.Edge edges) g.idom?)
    (hedge : HasEdge edges = g.Leads) (hsize : g.idoms.size = edges.size) :
    g.HasDominators entry := by
  have hidoms : (fun v => g.idoms.getD v none) = g.idom? := funext fun v => idoms_getD
  have hfuel : t.nodes.size ≤ g.idoms.size := by
    rw [hsize]
    exact Numbering.size_le hw.matched
  rw [← hidoms] at hr
  have hwalk : ∀ a j, j < t.nodes.size → ∃ answer, dominatesBy g.idoms a (t.nodeAt j) = some answer ∧
      (answer = true ↔ Dominates (HasEdge edges) entry a (t.nodeAt j)) := by
    intro a j hj
    obtain ⟨i, hi⟩ := Numbering.exists_names hw.matched a
    rw [hw.dominates_iff hi hj]
    exact dominatesWithin_nodeAt hr hi hj (by omega)
  rw [hidoms] at hr
  refine ⟨fun b hb hne => ?_, hr.idom_entry hw, fun b hb => ?_, fun a b => ?_, fun a b hb => ?_⟩
  · rw [← hedge] at hb ⊢
    exact hr.exists_idom hw hb hne
  · rw [← hedge] at hb
    exact hr.idom_of_not_reaches hw hb
  · by_cases hb : Reaches (HasEdge edges) entry b
    · obtain ⟨j, hj, rfl⟩ := hw.reaches_iff.mp hb
      obtain ⟨answer, hanswer, -⟩ := hwalk a j hj
      exact ⟨answer, hanswer⟩
    · have hroot := idoms_getD.trans (hr.idom_of_not_reaches hw hb)
      exact ⟨_, dominatesWithin_of_root hroot (Nat.succ_pos _)⟩
  · rw [← hedge] at hb ⊢
    obtain ⟨j, hj, rfl⟩ := hw.reaches_iff.mp hb
    obtain ⟨answer, hanswer, hiff⟩ := hwalk a j hj
    rw [dominates, hanswer, Option.getD_some, hiff]

theorem Mirrored.hasDominators (hg : g.Mirrored) (hentry : g.entryBlock? = some entry) :
    (∃ idom, immediateDominators g.edges g.backwardEdges entry = some idom) ∧
      g.setDominators.HasDominators entry := by
  have hlen : g.edges.size = g.blocks.length := by simp [edges]
  have hlt : entry < g.edges.size := hlen ▸ entryBlock?_lt hentry
  have hedges : ∀ v, ∀ w ∈ g.edges.getD v [], w < g.edges.size := fun v w h =>
    hlen ▸ hg.lt (hasEdge_edges.mp h)
  have hpreds : ∀ v w, v ∈ g.backwardEdges.getD w [] ↔ w ∈ g.edges.getD v [] := fun v w => by
    rw [mem_backwardEdges, hg.preds_iff, ← hasEdge_edges, HasEdge]
  obtain ⟨idom, heq, hr⟩ := immediateDominators_recorded hlt hedges hpreds
  let f : Nat → Block → Block := fun number b => { b with idom := idom[number]?.join }
  have hf : KeepsCode f := fun _ _ => ⟨rfl, rfl, rfl, rfl⟩
  have hset : g.setDominators = g.mapBlocks f := by
    rw [setDominators, hentry, Option.bind_some, heq]
  have hidom : g.setDominators.idom? = fun v => idom[v]?.join := by
    funext v
    rw [hset, idom?, block?_mapBlocks]
    cases hb : g.block? v with
    | some b => rfl
    | none =>
        have hge : g.edges.size ≤ v := hlen ▸ List.getElem?_eq_none_iff.mp hb
        simp [hge]
  have hedge : HasEdge g.edges = g.setDominators.Leads := by
    funext v w
    rw [hset]
    exact propext (hasEdge_edges.trans (leads_mapBlocks hf).symm)
  refine ⟨⟨idom, heq⟩, hasDominators_of_recorded (Numbering.walking_ofEntry hlt hedges) ?_ hedge ?_⟩
  · rwa [hidom]
  · rw [hset]
    simp [idoms, length_blocks_mapBlocks, hlen]

/-- In every graph that has blocks the dominators are found. -/
theorem hasDominators_of_build {s : Source} {is : List Instruction} (h : build s is = .ok g) :
    g.blocks = [] ∨ ∃ entry, g.entryBlock? = some entry ∧
      (∃ idom, immediateDominators g.edges g.backwardEdges entry = some idom) ∧
      g.setDominators.HasDominators entry := by
  cases hentry : g.entryBlock? with
  | none =>
      left
      unfold entryBlock? at hentry
      split at hentry
      · assumption
      · cases hentry
  | some entry => exact .inr ⟨entry, rfl, (mirrored_of_build h).hasDominators hentry⟩

/-! A function in which two branches skip code. The semidominator of the last block is the second
one, which does not dominate it. -/

namespace TwoSkips

def source : Source := ⟨⟨0x1000, 6⟩, [0x74, 2, 0x74, 1, 0x90, 0xc3], []⟩

def branch (address distance : Nat) : Instruction :=
  { address, bytes := [0x74, UInt8.ofNat distance], opcodeClass := .condBranch, mnemonic := "jz"
    operands := [Operand.relative distance 1 1] }

def instructions : List Instruction := [
  branch 0x1000 2,
  branch 0x1002 1,
  { address := 0x1004, bytes := [0x90], opcodeClass := .nop, mnemonic := "nop" },
  { address := 0x1005, bytes := [0xc3], opcodeClass := .return, mnemonic := "ret" }]

def graph : FlowGraph :=
  match build source instructions with
  | .ok g => g
  | .error _ => { base := 0, size := 0, pieces := [] }

theorem build_eq : build source instructions = .ok graph := by cbv

theorem blocks_ne : graph.blocks ≠ [] := by
  have hlen : graph.blocks.length = 4 := by cbv
  intro h
  rw [h] at hlen
  cases hlen

example : graph.setDominators.idom? 3 = some 0 := by cbv

end TwoSkips

theorem hasDominators_twoSkips : ∃ entry, TwoSkips.graph.entryBlock? = some entry ∧
    (∃ idom, immediateDominators TwoSkips.graph.edges TwoSkips.graph.backwardEdges entry =
      some idom) ∧ TwoSkips.graph.setDominators.HasDominators entry :=
  (hasDominators_of_build TwoSkips.build_eq).resolve_left TwoSkips.blocks_ne

end BinTrace.FlowGraph
