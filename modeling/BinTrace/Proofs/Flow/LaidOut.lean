import BinTrace.Proofs.Function.Digest

/-!
Graphs that are laid out: the pieces tile the function, instructions lie one behind the other in
their blocks, and nothing is empty. Every address of such a graph belongs to one piece, so a block
or an instruction can be looked up by its address. Digesting lays a function out, and unlike the
rest of being well-formed, every edit keeps this.
-/

namespace BinTrace

theorem Contiguous.stop_le {a : Nat} {is : List Instruction} (h : Contiguous a is) :
    ∀ i ∈ is, i.stop ≤ a + totalSize is := by
  intro i hi
  obtain ⟨front, rest, rfl⟩ := List.append_of_mem hi
  have haddress := (contiguous_append.mp h).2.1
  rw [totalSize_append, totalSize_cons, Instruction.stop, haddress]
  omega

theorem tiles_append {a stop : Nat} {ps qs : List Piece} : Tiles a stop (ps ++ qs) ↔
    Tiles a (a + (ps.map Piece.size).sum) ps ∧ Tiles (a + (ps.map Piece.size).sum) stop qs := by
  induction ps generalizing a with
  | nil => simp [Tiles]
  | cons p rest ih =>
      rw [List.cons_append, Tiles, Tiles, ih, List.map_cons, List.sum_cons, Nat.add_assoc, and_assoc]

@[simp] theorem Piece.raw?_code (b : Block) : (code b).raw? = none := rfl

@[simp] theorem Piece.raw?_raw (r : RawBlock) : (raw r).raw? = some r := rfl

namespace Block

structure LaidOut (b : Block) : Prop where
  nonempty : b.instructions ≠ []
  contiguous : Contiguous b.address b.instructions
  size_pos : ∀ i ∈ b.instructions, 0 < i.size

variable {b : Block}

theorem LaidOut.bounds (hb : b.LaidOut) {i : Instruction} (hi : i ∈ b.instructions) :
    b.address ≤ i.address ∧ i.stop ≤ b.stop :=
  ⟨hb.contiguous.address_le i hi, hb.contiguous.stop_le i hi⟩

theorem LaidOut.address_lt (hb : b.LaidOut) {i : Instruction} (hi : i ∈ b.instructions) :
    i.address < b.stop := by
  have hbounds := hb.bounds hi
  have hpos := hb.size_pos i hi
  simp only [Instruction.stop] at hbounds
  omega

theorem LaidOut.size_pos' (hb : b.LaidOut) : 0 < b.size := by
  obtain ⟨i, rest, hi⟩ := List.exists_cons_of_ne_nil hb.nonempty
  have hpos := hb.size_pos i (by simp [hi])
  rw [Block.size, hi, totalSize_cons]
  omega

/-- Instructions of a block are told apart by their addresses. -/
theorem LaidOut.pairwise_address (hb : b.LaidOut) :
    b.instructions.Pairwise fun i j => i.address < j.address := by
  refine hb.contiguous.pairwise.imp_of_mem fun {i j} hi _ hij => ?_
  have hpos := hb.size_pos i hi
  simp only [Instruction.stop] at hij
  omega

end Block

namespace FlowGraph

structure LaidOut (g : FlowGraph) : Prop where
  tiled : Tiles g.base (g.base + g.size) g.pieces
  blocks : ∀ b ∈ g.blocks, b.LaidOut
  rawBlocks : ∀ r ∈ g.rawBlocks, r.bytes ≠ []

variable {g : FlowGraph}

theorem mem_blocks {b : Block} : b ∈ g.blocks ↔ .code b ∈ g.pieces := by
  rw [blocks, List.mem_filterMap]
  constructor
  · rintro ⟨p, hp, hb⟩
    cases p with
    | raw r => cases hb
    | code c =>
        cases hb
        exact hp
  · exact fun h => ⟨_, h, rfl⟩

theorem mem_rawBlocks {r : RawBlock} : r ∈ g.rawBlocks ↔ .raw r ∈ g.pieces := by
  rw [rawBlocks, List.mem_filterMap]
  constructor
  · rintro ⟨p, hp, hr⟩
    cases p with
    | code b => cases hr
    | raw s =>
        cases hr
        exact hp
  · exact fun h => ⟨_, h, rfl⟩

theorem LaidOut.size_pos (hg : g.LaidOut) {p : Piece} (hp : p ∈ g.pieces) : 0 < p.size := by
  cases p with
  | code b => exact (hg.blocks b (mem_blocks.mpr hp)).size_pos'
  | raw r => exact List.length_pos_iff.mpr (hg.rawBlocks r (mem_rawBlocks.mpr hp))

/-- An address is looked up in the block that holds it. -/
theorem LaidOut.blockContaining?_eq (hg : g.LaidOut) {n a : Nat} {b : Block}
    (hb : g.block? n = some b) (hle : b.address ≤ a) (hlt : a < b.stop) :
    g.blockContaining? a = some n := by
  obtain ⟨hn, rfl⟩ := List.getElem?_eq_some_iff.mp hb
  have hsplit : g.blocks = g.blocks.take n ++ g.blocks[n] :: g.blocks.drop (n + 1) := by
    rw [← List.drop_eq_getElem_cons hn, List.take_append_drop]
  -- The blocks up to this one begin at the address or below it, the others above it.
  have hpairs := hg.tiled.pairwise_blocks
  change g.blocks.Pairwise _ at hpairs
  rw [hsplit, List.pairwise_append, List.pairwise_cons] at hpairs
  obtain ⟨-, ⟨hbehind, -⟩, hbefore⟩ := hpairs
  have hfront : ∀ c ∈ g.blocks.take n ++ [g.blocks[n]], decide (c.address ≤ a) = true := by
    intro c hc
    rcases List.mem_append.mp hc with hc | hc
    · have := hbefore c hc _ List.mem_cons_self
      simp only [Block.stop] at this
      exact decide_eq_true (by omega)
    · rw [List.mem_singleton.mp hc]
      exact decide_eq_true hle
  have hrest : (g.blocks.drop (n + 1)).takeWhile (fun c => decide (c.address ≤ a)) = [] := by
    cases hdrop : g.blocks.drop (n + 1) with
    | nil => rfl
    | cons c rest =>
        have := hbehind c (by simp [hdrop])
        rw [List.takeWhile_cons_of_neg (by simpa using Nat.lt_of_lt_of_le hlt this)]
  have hlength : (g.blocks.takeWhile fun c => decide (c.address ≤ a)).length = n + 1 := by
    rw [hsplit, ← List.singleton_append, ← List.append_assoc, List.takeWhile_append_of_pos hfront,
      hrest, List.append_nil, List.length_append, List.length_take, List.length_singleton]
    omega
  unfold blockContaining?
  rw [hlength]
  simp [hb, Block.contains, hle, hlt]

/-- An instruction is looked up in its own block. -/
theorem LaidOut.blockContaining?_address (hg : g.LaidOut) {n : Nat} {b : Block}
    (hb : g.block? n = some b) {i : Instruction} (hi : i ∈ b.instructions) :
    g.blockContaining? i.address = some n := by
  have hlaid := hg.blocks b (List.mem_of_getElem? hb)
  exact hg.blockContaining?_eq hb (hlaid.bounds hi).1 (hlaid.address_lt hi)

theorem Source.rawBlocks_layOut {s : Source} (hs : s.bytes.length = s.range.size) {a : Nat}
    {blocks : List Block} (hbase : s.range.base ≤ a) (hwf : ∀ b ∈ blocks, b.WellFormed)
    (hh : ∀ b ∈ blocks, ∀ i ∈ b.instructions, s.Holds i) :
    ∀ r ∈ (s.layOut a blocks).filterMap Piece.raw?, r.bytes ≠ [] := by
  have hgap {first stop : Nat} (hfirst : s.range.base ≤ first) (hlt : first < stop)
      (hstop : stop ≤ s.range.stop) : (s.gap first stop).bytes ≠ [] := by
    have hlength := length_gap hs hfirst (Nat.le_of_lt hlt) hstop
    refine List.ne_nil_of_length_pos ?_
    omega
  induction blocks generalizing a with
  | nil =>
      intro r hr
      rw [layOut] at hr
      split at hr
      · rename_i hlt
        obtain rfl : r = s.gap a s.range.stop := by simpa using hr
        exact hgap hbase hlt (Nat.le_refl _)
      · cases hr
  | cons b rest ih =>
      have hb := hwf b List.mem_cons_self
      have hhb := hh b List.mem_cons_self
      have hle := base_le_of_holds hb hhb
      have hstop := stop_le_of_holds hb hhb
      have hrest := ih (a := b.stop) (by simp only [Block.stop]; omega)
        (fun c hc => hwf c (List.mem_cons_of_mem _ hc)) (fun c hc => hh c (List.mem_cons_of_mem _ hc))
      intro r hr
      rw [layOut] at hr
      split at hr
      · rename_i hlt
        simp only [List.filterMap_cons, Piece.raw?_raw, Piece.raw?_code] at hr
        rcases List.mem_cons.mp hr with rfl | hr
        · exact hgap hbase hlt (by simp only [Block.stop] at hstop; omega)
        · exact hrest r hr
      · exact hrest r (by simpa using hr)

theorem rawBlocks_mapBlocks (f : Nat → Block → Block) (g : FlowGraph) :
    (g.mapBlocks f).rawBlocks = g.rawBlocks := by
  have hmap (start : Nat) (ps : List Piece) :
      (mapPieces f start ps).filterMap Piece.raw? = ps.filterMap Piece.raw? := by
    induction ps generalizing start with
    | nil => rfl
    | cons p rest ih =>
        cases p with
        | raw r => simp [mapPieces, ih]
        | code b => simp [mapPieces, List.filterMap_cons, ih]
  exact hmap 0 g.pieces

theorem rawBlocks_setLoops (g : FlowGraph) : g.setLoops.rawBlocks = g.rawBlocks := by
  have hsame : g.setLoops.rawBlocks = g.setDominators.rawBlocks := by
    rw [rawBlocks, rawBlocks, (setLoops_pieces g).1]
  rcases setDominators_eq g with heq | ⟨f, -, heq⟩
  · rw [hsame, heq]
  · rw [hsame, heq, rawBlocks_mapBlocks]

/-- A graph that has been built keeps no empty run of raw bytes. -/
theorem rawBlocks_build {s : Source} (hs : s.bytes.length = s.range.size) {is : List Instruction}
    (hh : ∀ i ∈ is, s.Holds i) (h : build s is = .ok g) : ∀ r ∈ g.rawBlocks, r.bytes ≠ [] := by
  obtain ⟨ordered, hperm, hchain, rfl⟩ := build_eq_ok h
  have hholds : ∀ i ∈ ordered, s.Holds i := fun i hi => hh i (hperm.mem_iff.mp hi)
  have hwf := (Source.assemble_spec hs hholds hchain).1
  have hin : ∀ b ∈ (s.assemble ordered).blocks, ∀ i ∈ b.instructions, s.Holds i := by
    intro b hb i hi
    apply hholds
    rw [← Source.instructions_assemble s ordered]
    exact List.mem_flatMap.mpr ⟨b, hb, hi⟩
  have hblocks : (s.assemble ordered).blocks = Source.link (s.draftBlocks (s.splitBlocks ordered)) :=
    Source.blocks_layOut _
  have hassemble : ∀ r ∈ (s.assemble ordered).rawBlocks, r.bytes ≠ [] :=
    Source.rawBlocks_layOut hs (Nat.le_refl _) (hblocks ▸ hwf.blocks) (hblocks ▸ hin)
  rcases markReachable_eq (s.assemble ordered) with heq | ⟨f, -, heq⟩
  · rwa [heq]
  · rwa [heq, rawBlocks_mapBlocks]

end FlowGraph

namespace Function

/-- Digesting lays a function out from its base. -/
theorem Digested.laidOut {f : Function} (hf : f.Digested) :
    ∃ g, f.graph = some g ∧ g.base = f.base ∧ g.WellFormed ∧ g.LaidOut := by
  obtain ⟨raw, s, tables, h⟩ := hf
  obtain ⟨strategy, g, found, bad, hg, hrun⟩ := digest_run raw s
  obtain ⟨is, hfound, hbuild⟩ := graphBy_eq_ok hg
  have hholds : ∀ i ∈ is, ((raw.descentInput s).source found).Holds i :=
    fun i hi => (finds_of_disassemble hfound i hi).holds found
  obtain ⟨hreads, hfinds⟩ := graphBy_ok hg
  have hwf := hreads.setLoops.wellFormed
  rw [hrun] at h
  cases h
  refine ⟨_, rfl, hreads.setLoops.base_eq, hwf, hwf.tiled, fun b hb => ?_, ?_⟩
  · refine ⟨(hwf.blocks b hb).nonempty, (hwf.blocks b hb).contiguous, fun i hi => ?_⟩
    have hmem : i ∈ g.instructions := by
      rw [← FlowGraph.instructions_setLoops]
      exact List.mem_flatMap.mpr ⟨b, hb, hi⟩
    exact ((hfinds i hmem).holds tables).size_pos
  · rw [FlowGraph.rawBlocks_setLoops]
    exact FlowGraph.rawBlocks_build rfl hholds hbuild

end Function

end BinTrace
