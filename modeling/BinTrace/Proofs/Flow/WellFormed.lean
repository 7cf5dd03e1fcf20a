import BinTrace.Flow.Graph
import BinTrace.Proofs.Outcome
import Mathlib.Data.List.Induction

/-!
Well-formed flow graphs. The pieces of a well-formed graph tile the function, its blocks are runs
of instructions with a transfer of control at most at their end, and every edge is known at both
of its ends. A graph passes `FlowGraph.check` exactly if it is well-formed.
-/

namespace BinTrace

open Outcome

/-- Instructions that lie one behind the other, the first one at `a`. -/
def Contiguous (a : Nat) : List Instruction → Prop
  | [] => True
  | i :: rest => i.address = a ∧ Contiguous i.stop rest

theorem Contiguous.address_le {a : Nat} {is : List Instruction} (h : Contiguous a is) :
    ∀ i ∈ is, a ≤ i.address := by
  induction is generalizing a with
  | nil => simp
  | cons i rest ih =>
      obtain ⟨rfl, h⟩ := h
      intro j hj
      rcases List.mem_cons.mp hj with rfl | hj
      · exact Nat.le_refl _
      · have := ih h j hj
        simp only [Instruction.stop] at this
        omega

theorem Contiguous.pairwise {a : Nat} {is : List Instruction} (h : Contiguous a is) :
    is.Pairwise fun i j => i.stop ≤ j.address := by
  induction is generalizing a with
  | nil => exact List.Pairwise.nil
  | cons i rest ih => exact List.pairwise_cons.mpr ⟨h.2.address_le, ih h.2⟩

theorem contiguous_append {a : Nat} {is js : List Instruction} : Contiguous a (is ++ js) ↔
    Contiguous a is ∧ Contiguous (a + totalSize is) js := by
  induction is generalizing a with
  | nil => simp [Contiguous]
  | cons i rest ih =>
      rw [List.cons_append, Contiguous, Contiguous, ih, totalSize_cons, and_assoc]
      refine and_congr_right fun ha => and_congr_right fun _ => ?_
      rw [Instruction.stop, ha, Nat.add_assoc]

/-- Pieces that lie one behind the other from `a` on up to `stop`. -/
def Tiles (a stop : Nat) : List Piece → Prop
  | [] => a = stop
  | p :: rest => p.address = a ∧ Tiles (a + p.size) stop rest

theorem Tiles.bounds {a stop : Nat} {ps : List Piece} (h : Tiles a stop ps) :
    a ≤ stop ∧ ∀ p ∈ ps, a ≤ p.address ∧ p.address + p.size ≤ stop := by
  induction ps generalizing a with
  | nil =>
      obtain rfl : a = stop := h
      exact ⟨Nat.le_refl _, by simp⟩
  | cons p rest ih =>
      obtain ⟨rfl, h⟩ := h
      obtain ⟨hle, hrest⟩ := ih h
      refine ⟨by omega, List.forall_mem_cons.mpr ⟨⟨Nat.le_refl _, hle⟩, fun q hq => ?_⟩⟩
      have := hrest q hq
      omega

/-- Blocks stop in front of the blocks that follow them. -/
theorem Tiles.pairwise_blocks {a stop : Nat} {ps : List Piece} (h : Tiles a stop ps) :
    (ps.filterMap Piece.block?).Pairwise fun b c => b.stop ≤ c.address := by
  induction ps generalizing a with
  | nil => exact List.Pairwise.nil
  | cons p rest ih =>
      obtain ⟨rfl, h⟩ := h
      cases p with
      | raw r => exact ih h
      | code b =>
          refine List.pairwise_cons.mpr ⟨fun c hc => ?_, ih h⟩
          obtain ⟨q, hq, hcode⟩ := List.mem_filterMap.mp hc
          cases q with
          | raw r => cases hcode
          | code c' =>
              cases hcode
              exact (h.bounds.2 _ hq).1

namespace Block

structure WellFormed (b : Block) : Prop where
  nonempty : b.instructions ≠ []
  contiguous : Contiguous b.address b.instructions
  /-- Only the last instruction may be a transfer of control that belongs to the program. -/
  transfer_last : ∀ i ∈ b.instructions.dropLast, isOwnTransfer i = false

theorem WellFormed.of_eq {b c : Block} (ha : c.address = b.address)
    (hi : c.instructions = b.instructions) (hb : b.WellFormed) : c.WellFormed :=
  ⟨by rw [hi]; exact hb.nonempty, by rw [ha, hi]; exact hb.contiguous,
    by rw [hi]; exact hb.transfer_last⟩

theorem checkContiguous_eq_ok {number a : Nat} {is : List Instruction} :
    checkContiguous number a is = .ok () ↔ Contiguous a is := by
  induction is generalizing a with
  | nil => simp [checkContiguous, Contiguous]
  | cons i rest ih =>
      rw [checkContiguous, Contiguous]
      split
      · rename_i h
        simp [h, ih]
      · rename_i h
        simp [h]

/-- If no instruction but the last is a transfer of control then there is one at most. -/
theorem countP_isOwnTransfer_le {is : List Instruction}
    (h : ∀ i ∈ is.dropLast, isOwnTransfer i = false) : is.countP isOwnTransfer ≤ 1 := by
  have hfront : is.dropLast.countP isOwnTransfer = 0 := by
    rw [List.countP_eq_zero]
    intro i hi
    simp [h i hi]
  have hsplit : is.countP isOwnTransfer ≤ is.dropLast.countP isOwnTransfer + 1 := by
    cases is using List.reverseRecOn with
    | nil => simp
    | append_singleton front i =>
        have hlast : [i].countP isOwnTransfer ≤ 1 := List.countP_le_length
        rw [List.dropLast_concat, List.countP_append]
        omega
  omega

theorem check_eq_ok {number : Nat} {b : Block} : b.check number = .ok () ↔ b.WellFormed := by
  have hlast : (if b.instructions.dropLast.any isOwnTransfer then
      throw (LayoutFault.earlyTransfer b.address) else pure () : Except LayoutFault Unit) = .ok () ↔
        ∀ i ∈ b.instructions.dropLast, isOwnTransfer i = false := by
    split
    · rename_i h
      simpa [throw, throwThe, MonadExceptOf.throw] using h
    · rename_i h
      simpa [pure, Except.pure] using h
  unfold check
  simp only [guard_eq_ok, seq_eq_ok, hlast, checkContiguous_eq_ok]
  constructor
  · rintro ⟨hne, hcontiguous, -, htransfer⟩
    exact ⟨by simpa using hne, hcontiguous, htransfer⟩
  · intro h
    have hcount := countP_isOwnTransfer_le h.transfer_last
    exact ⟨by simpa using h.nonempty, h.contiguous, by omega, h.transfer_last⟩

end Block

namespace FlowGraph

structure WellFormed (g : FlowGraph) : Prop where
  tiled : Tiles g.base (g.base + g.size) g.pieces
  blocks : ∀ b ∈ g.blocks, b.WellFormed
  /-- Every successor of a block is a block that counts it among its predecessors. -/
  edges : ∀ n b, g.block? n = some b → ∀ m ∈ b.succs, ∃ c, g.block? m = some c ∧ n ∈ c.preds

/-- Blocks of a well-formed graph that have an address in common are the same block. -/
theorem WellFormed.eq_of_contains {g : FlowGraph} (hg : g.WellFormed) {b c : Block}
    (hb : b ∈ g.blocks) (hc : c ∈ g.blocks) {a : Nat} (hba : b.address ≤ a ∧ a < b.stop)
    (hca : c.address ≤ a ∧ a < c.stop) : b = c := by
  let R : Block → Block → Prop := fun b c => b = c ∨ b.stop ≤ c.address ∨ c.stop ≤ b.address
  have hpairs : g.blocks.Pairwise R :=
    hg.tiled.pairwise_blocks.imp fun h => .inr (.inl h)
  have hflip : g.blocks.Pairwise (flip R) := hpairs.imp fun h => h.imp Eq.symm Or.symm
  rcases hpairs.forall_of_forall_of_flip (fun _ _ => .inl rfl) hflip hb hc with heq | h | h
  · exact heq
  · omega
  · omega

/-- No block is empty, so one instruction is in one block. -/
theorem WellFormed.blocks_of_instructions {g : FlowGraph} (hg : g.WellFormed) {i : Instruction}
    (h : g.instructions = [i]) : ∃ b, g.blocks = [b] ∧ b.instructions = [i] := by
  unfold instructions at h
  have hnonempty := fun b hb => (hg.blocks b hb).nonempty
  revert h hnonempty
  cases g.blocks with
  | nil => simp
  | cons b rest =>
      intro h hnonempty
      rw [List.flatMap_cons, List.append_eq_singleton_iff] at h
      rcases h with ⟨hb, -⟩ | ⟨hb, hrest⟩
      · exact absurd hb (hnonempty b List.mem_cons_self)
      · cases rest with
        | nil => exact ⟨b, rfl, hb⟩
        | cons c rest =>
            rw [List.flatMap_cons, List.append_eq_nil_iff] at hrest
            exact absurd hrest.1 (hnonempty c (by simp))

theorem checkTiling_eq_ok {a stop : Nat} {ps : List Piece} :
    checkTiling a ps = .ok stop ↔ Tiles a stop ps := by
  induction ps generalizing a with
  | nil => simp [checkTiling, Tiles]
  | cons p rest ih =>
      rw [checkTiling, Tiles]
      split
      · rename_i h
        simp [h, ih]
      · rename_i h
        simp [h]

theorem checkEdges_eq_ok {blocks : List Block} {number : Nat} {b : Block} :
    checkEdges (blocks.map Block.preds).toArray number b = .ok () ↔
      ∀ m ∈ b.succs, ∃ c, blocks[m]? = some c ∧ number ∈ c.preds := by
  have hlook (m : Nat) : ((blocks.map Block.preds).toArray.getD m []).contains number = true ↔
      ∃ c, blocks[m]? = some c ∧ number ∈ c.preds := by
    cases hm : blocks[m]? with
    | none => simp [Array.getD_eq_getD_getElem?, hm]
    | some c => simp [Array.getD_eq_getD_getElem?, hm]
  unfold checkEdges
  split
  · rename_i m hm
    have hnot := List.find?_some hm
    rw [Bool.not_eq_true', Bool.eq_false_iff, Ne, hlook] at hnot
    simp only [reduceCtorEq, false_iff]
    exact fun h => hnot (h m (List.mem_of_find?_eq_some hm))
  · rename_i hnone
    rw [List.find?_eq_none] at hnone
    simp only [true_iff]
    intro m hm
    exact (hlook m).mp (by simpa using hnone m hm)

theorem check_eq_ok {g : FlowGraph} : g.check = .ok () ↔ g.WellFormed := by
  have hblock (n : Nat) (b : Block) : (do b.check n; checkEdges (g.blocks.map Block.preds).toArray n b :
      Except LayoutFault Unit) = .ok () ↔
        b.WellFormed ∧ ∀ m ∈ b.succs, ∃ c, g.block? m = some c ∧ n ∈ c.preds := by
    rw [seq_eq_ok, Block.check_eq_ok, checkEdges_eq_ok]
    rfl
  unfold check
  rw [bind_eq_ok]
  simp only [guard_eq_ok, checkTiling_eq_ok, List.forM_eq_forM, forM_eq_ok, hblock,
    List.mem_zipIdx_iff_getElem?]
  constructor
  · rintro ⟨stop, htiled, hstop, hblocks⟩
    rw [ne_eq, Decidable.not_not] at hstop
    subst hstop
    refine ⟨htiled, fun b hb => ?_, fun n b hb => (hblocks (b, n) hb).2⟩
    obtain ⟨n, hn⟩ := List.getElem?_of_mem hb
    exact (hblocks (b, n) hn).1
  · intro h
    refine ⟨_, h.tiled, by simp, fun ⟨b, n⟩ hb => ⟨?_, h.edges n b hb⟩⟩
    exact h.blocks b (List.mem_of_getElem? hb)

/-! Changing every block, in a way that keeps what the layout and the edges depend on. -/

theorem getElem?_blocks_mapPieces (f : Nat → Block → Block) (start n : Nat) (ps : List Piece) :
    ((mapPieces f start ps).filterMap Piece.block?)[n]? =
      ((ps.filterMap Piece.block?)[n]?).map (f (start + n)) := by
  induction ps generalizing start n with
  | nil => simp [mapPieces]
  | cons p rest ih =>
      cases p with
      | raw r => simpa [mapPieces, List.filterMap_cons] using ih start n
      | code b =>
          cases n with
          | zero => simp [mapPieces]
          | succ n =>
              have hstart : start + 1 + n = start + (n + 1) := by omega
              simpa [mapPieces, hstart] using ih (start + 1) n

theorem block?_mapBlocks (g : FlowGraph) (f : Nat → Block → Block) (n : Nat) :
    (g.mapBlocks f).block? n = (g.block? n).map (f n) := by
  simpa [block?, blocks, mapBlocks] using getElem?_blocks_mapPieces f 0 n g.pieces

theorem mem_blocks_mapBlocks {g : FlowGraph} {f : Nat → Block → Block} {c : Block} :
    c ∈ (g.mapBlocks f).blocks ↔ ∃ n b, g.block? n = some b ∧ c = f n b := by
  have hblock (n : Nat) : (g.mapBlocks f).blocks[n]? = (g.block? n).map (f n) :=
    block?_mapBlocks g f n
  simp only [List.mem_iff_getElem?, hblock, Option.map_eq_some_iff, eq_comm (a := c)]

theorem map_mapBlocks {g : FlowGraph} {f : Nat → Block → Block} {β : Type} {φ : Block → β}
    (hφ : ∀ n b, φ (f n b) = φ b) : (g.mapBlocks f).blocks.map φ = g.blocks.map φ := by
  refine List.ext_getElem? fun n => ?_
  have hblock : (g.mapBlocks f).blocks[n]? = (g.block? n).map (f n) := block?_mapBlocks g f n
  rw [List.getElem?_map, List.getElem?_map, hblock, Option.map_map, block?]
  congr 1
  funext b
  exact hφ n b

theorem length_blocks_mapBlocks (g : FlowGraph) (f : Nat → Block → Block) :
    (g.mapBlocks f).blocks.length = g.blocks.length := by
  have h : (g.mapBlocks f).blocks.map (fun _ => ()) = g.blocks.map fun _ => () :=
    map_mapBlocks fun _ _ => rfl
  simpa using congrArg List.length h

/-- A change of blocks that keeps instructions and edges. -/
def KeepsCode (f : Nat → Block → Block) : Prop :=
  ∀ n b, (f n b).address = b.address ∧ (f n b).instructions = b.instructions ∧
    (f n b).preds = b.preds ∧ (f n b).succs = b.succs

theorem tiles_mapPieces {f : Nat → Block → Block} (hf : KeepsCode f) (start a stop : Nat)
    (ps : List Piece) : Tiles a stop (mapPieces f start ps) ↔ Tiles a stop ps := by
  induction ps generalizing start a with
  | nil => rfl
  | cons p rest ih =>
      cases p with
      | raw r => simp [mapPieces, Tiles, ih]
      | code b =>
          obtain ⟨ha, hi, -, -⟩ := hf start b
          simp [mapPieces, Tiles, ih, Piece.address, Piece.size, Block.size, ha, hi]

theorem flatMap_bytes_mapPieces {f : Nat → Block → Block} (hf : KeepsCode f) (start : Nat)
    (ps : List Piece) : (mapPieces f start ps).flatMap Piece.bytes = ps.flatMap Piece.bytes := by
  induction ps generalizing start with
  | nil => rfl
  | cons p rest ih =>
      cases p with
      | raw r => simp [mapPieces, ih]
      | code b =>
          obtain ⟨-, hi, -, -⟩ := hf start b
          simp [mapPieces, ih, Piece.bytes, Block.bytes, hi]

theorem dump_mapBlocks {f : Nat → Block → Block} (hf : KeepsCode f) (g : FlowGraph) :
    (g.mapBlocks f).dump = g.dump :=
  flatMap_bytes_mapPieces hf 0 g.pieces

theorem flatMap_instructions_mapPieces {f : Nat → Block → Block} (hf : KeepsCode f) (start : Nat)
    (ps : List Piece) : ((mapPieces f start ps).filterMap Piece.block?).flatMap Block.instructions =
      (ps.filterMap Piece.block?).flatMap Block.instructions := by
  induction ps generalizing start with
  | nil => rfl
  | cons p rest ih =>
      cases p with
      | raw r => simpa [mapPieces, List.filterMap_cons] using ih start
      | code b =>
          obtain ⟨-, hi, -, -⟩ := hf start b
          simp [mapPieces, ih, hi]

theorem instructions_mapBlocks {f : Nat → Block → Block} (hf : KeepsCode f) (g : FlowGraph) :
    (g.mapBlocks f).instructions = g.instructions :=
  flatMap_instructions_mapPieces hf 0 g.pieces

theorem WellFormed.mapBlocks {f : Nat → Block → Block} (hf : KeepsCode f) {g : FlowGraph}
    (hg : g.WellFormed) : (g.mapBlocks f).WellFormed := by
  refine ⟨(tiles_mapPieces hf 0 _ _ _).mpr hg.tiled, fun b hb => ?_, fun n b hb m hm => ?_⟩
  · obtain ⟨n, c, hc, rfl⟩ := mem_blocks_mapBlocks.mp hb
    obtain ⟨ha, hi, -, -⟩ := hf n c
    exact (hg.blocks c (List.mem_of_getElem? hc)).of_eq ha hi
  · rw [block?_mapBlocks] at hb
    obtain ⟨c, hc, rfl⟩ := Option.map_eq_some_iff.mp hb
    obtain ⟨-, -, -, hs⟩ := hf n c
    rw [hs] at hm
    obtain ⟨d, hd, hn⟩ := hg.edges n c hc m hm
    refine ⟨f m d, by rw [block?_mapBlocks, hd]; rfl, ?_⟩
    rw [(hf m d).2.2.1]
    exact hn

end FlowGraph

end BinTrace
