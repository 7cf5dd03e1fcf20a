import BinTrace.Proofs.Function.Histories
import BinTrace.Proofs.Patch.Writing

/-!
Swapping one run of instructions after another. There is room for a swap where an instruction
starts and enough bytes follow up to the end of its block; what is swapped in is written over the
bytes of the shortest run that will do, and all else stays as it was and where it was.
-/

namespace BinTrace

theorem coveringRun_append {needed : Nat} {is : List Instruction} (h : needed ≤ totalSize is)
    (rest : List Instruction) : coveringRun needed (is ++ rest) = coveringRun needed is := by
  induction is generalizing needed with
  | nil =>
      obtain rfl : needed = 0 := Nat.le_zero.mp h
      cases rest <;> rfl
  | cons i is ih =>
      rw [totalSize_cons] at h
      rw [List.cons_append, coveringRun, coveringRun, ih (by omega)]

theorem coveringRun_coveringRun (needed : Nat) (is : List Instruction) :
    coveringRun needed (coveringRun needed is) = coveringRun needed is := by
  induction is generalizing needed with
  | nil => rfl
  | cons i is ih =>
      rw [coveringRun]
      split
      · rfl
      · rename_i hne
        rw [coveringRun, if_neg hne, ih]

theorem le_totalSize_coveringRun_of_le {needed : Nat} {is : List Instruction}
    (h : needed ≤ totalSize is) : needed ≤ totalSize (coveringRun needed is) := by
  induction is generalizing needed with
  | nil => exact h
  | cons i rest ih =>
      rw [totalSize_cons] at h
      rw [coveringRun]
      split
      · omega
      · have hrest : needed - i.size ≤ totalSize (coveringRun (needed - i.size) rest) :=
          ih (by omega)
        rw [totalSize_cons]
        omega

/-- The shortest run from the front of the instructions that has at least `needed` bytes. -/
structure Covers (needed : Nat) (is run : List Instruction) : Prop where
  isPrefix : run <+: is
  le_totalSize : needed ≤ totalSize run
  shortest : ∀ other, other <+: is → needed ≤ totalSize other → run <+: other

theorem covers_coveringRun {needed : Nat} {is : List Instruction} (h : needed ≤ totalSize is) :
    Covers needed is (coveringRun needed is) := by
  refine ⟨coveringRun_isPrefix needed is, le_totalSize_coveringRun_of_le h, ?_⟩
  rintro other ⟨rest, rfl⟩ hother
  rw [coveringRun_append hother]
  exact coveringRun_isPrefix needed other

/-- Of two fronts of one list the shorter one is a front of the longer one. -/
theorem exists_append_of_totalSize_le (is is' : List Instruction) {js js' : List Instruction}
    (h : is ++ js = is' ++ js') (hle : totalSize is ≤ totalSize is')
    (hpos : ∀ i ∈ is, 0 < i.size) : ∃ ks, is' = is ++ ks ∧ js = ks ++ js' := by
  rcases List.append_eq_append_iff.mp h with ⟨ks, hfront, hbehind⟩ | ⟨ks, hfront, hbehind⟩
  · exact ⟨ks, hfront, hbehind⟩
  · cases ks with
    | nil => exact ⟨[], by simp [hfront], by simpa using hbehind.symm⟩
    | cons k ks =>
        have hk := hpos k (by simp [hfront])
        rw [hfront, totalSize_append, totalSize_cons] at hle
        omega

/-- Bytes may be written over as many others. -/
theorem PatchPoint.writeAt_append {lead old new tail : List UInt8} (base : Nat)
    (h : new.length = old.length) :
    writeAt (lead ++ old ++ tail) base (base + lead.length) new = .ok (lead ++ new ++ tail) := by
  have hroom : lead.length + new.length ≤ (lead ++ old ++ tail).length := by
    simp only [List.length_append]
    omega
  refine Write.writeAt_eq_ok.mpr ⟨Nat.le_add_right _ _, ?_, ?_⟩
  · rwa [Nat.add_sub_cancel_left]
  · rw [Nat.add_sub_cancel_left, Bytes.overwrite_eq hroom, h, List.append_assoc lead old,
      List.take_left, ← List.append_assoc, ← List.length_append, List.drop_left]

/-- No-ops are read where they are put among other bytes. -/
theorem exists_nops_within (w : Width) (n base : Nat) (lead tail : List UInt8) :
    ∃ nops, Contiguous (base + lead.length) nops ∧ totalSize nops = n ∧ ∀ i ∈ nops,
      i.isNop = true ∧
        decode w ((lead ++ bytesOfAll (Encode.nops n) ++ tail).drop (i.address - base)) i.address =
          .ok i := by
  obtain ⟨nops, hplaced, htotal, hreads⟩ :=
    decode_nops w (fun i (hi : i ∈ Encode.nops n) => Encode.mem_nops hi) tail (base + lead.length)
  refine ⟨nops, hplaced, htotal.trans (Encode.totalSize_nops n), fun i hi => ⟨(hreads i hi).1, ?_⟩⟩
  have hle := hplaced.address_le i hi
  have hoffset : i.address - base = lead.length + (i.address - (base + lead.length)) := by omega
  rw [hoffset, ← List.drop_drop, List.append_assoc, List.drop_left]
  exact (hreads i hi).2

theorem Piece.length_bytes (p : Piece) : p.bytes.length = p.size := by
  cases p with
  | code b => exact length_bytesOfAll b.instructions
  | raw r => rfl

namespace FlowGraph

variable {g : FlowGraph} {b : Block} {front rest : List Piece}
variable {before removed incoming behind : List Instruction}

/-- A block starts as many bytes behind the first one as the pieces in front of it have. -/
theorem LaidOut.address_eq (hg : g.LaidOut) (hsplit : g.pieces = front ++ .code b :: rest) :
    b.address = g.base + (front.flatMap Piece.bytes).length := by
  have htiled := hg.tiled
  rw [hsplit, tiles_append, Tiles] at htiled
  rw [List.length_flatMap, funext Piece.length_bytes]
  exact htiled.2.1

/-- Whatever stands in the place of a run, the bytes in front of it and behind it stay. -/
theorem LaidOut.exists_dump_eq (hg : g.LaidOut) (hsplit : g.pieces = front ++ .code b :: rest)
    (hb : b.instructions = before ++ removed ++ behind) : ∃ lead tail,
      g.dump = lead ++ bytesOfAll removed ++ tail ∧
      b.address + totalSize before = g.base + lead.length ∧
      ∀ is, ({ g with pieces := front ++ .code { b with instructions := before ++ is ++ behind } ::
        rest } : FlowGraph).dump = lead ++ bytesOfAll is ++ tail := by
  have hbytes (is : List Instruction) :
      (front ++ Piece.code { b with instructions := before ++ is ++ behind } :: rest).flatMap
        Piece.bytes = (front.flatMap Piece.bytes ++ bytesOfAll before) ++ bytesOfAll is ++
          (bytesOfAll behind ++ rest.flatMap Piece.bytes) := by
    simp [Piece.bytes, Block.bytes]
  refine ⟨front.flatMap Piece.bytes ++ bytesOfAll before,
    bytesOfAll behind ++ rest.flatMap Piece.bytes, ?_, ?_, hbytes⟩
  · rw [← hbytes, dump, hsplit, ← hb]
  · rw [hg.address_eq hsplit, List.length_append, length_bytesOfAll, Nat.add_assoc]

/-- What is put in the place of a run is written over the bytes of the run. -/
theorem LaidOut.writeAt_dump (hg : g.LaidOut) (hsplit : g.pieces = front ++ .code b :: rest)
    (hb : b.instructions = before ++ removed ++ behind)
    (hsize : totalSize incoming = totalSize removed) :
    let c := { b with instructions := before ++ incoming ++ behind }
    PatchPoint.writeAt g.dump g.base (b.address + totalSize before) (bytesOfAll incoming) =
      .ok ({ g with pieces := front ++ .code c :: rest } : FlowGraph).dump := by
  obtain ⟨lead, tail, hold, haddress, hnew⟩ := hg.exists_dump_eq hsplit hb
  rw [hold, haddress, PatchPoint.writeAt_append _ (by simpa using hsize)]
  exact congrArg Except.ok (hnew incoming).symm

/-- The instructions stand one behind the other in one block, the first one at `a`. -/
def HasRun (g : FlowGraph) (a : Nat) (run : List Instruction) : Prop :=
  ∃ b ∈ g.blocks, ∃ before behind,
    b.instructions = before ++ run ++ behind ∧ a = b.address + totalSize before

/-- A run that keeps off another one stands where it stood when that one is exchanged. -/
theorem LaidOut.hasRun_replace (hg : g.LaidOut) (hsplit : g.pieces = front ++ .code b :: rest)
    (hb : b.instructions = before ++ removed ++ behind)
    (hsize : totalSize incoming = totalSize removed) {a : Nat} {run : List Instruction}
    (hrun : g.HasRun a run)
    (hapart : AddressRange.Apart ⟨b.address + totalSize before, totalSize removed⟩
      ⟨a, totalSize run⟩) :
    let c := { b with instructions := before ++ incoming ++ behind }
    ({ g with pieces := front ++ .code c :: rest } : FlowGraph).HasRun a run := by
  intro c
  have hpos : ∀ i ∈ b.instructions, 0 < i.size :=
    (hg.blocks b (mem_blocks.mpr (by simp [hsplit]))).size_pos
  have hc : c ∈ ({ g with pieces := front ++ .code c :: rest } : FlowGraph).blocks :=
    mem_blocks.mpr (by simp)
  obtain ⟨b', hb', before', behind', hinstructions, rfl⟩ := hrun
  by_cases hsame : b' = b
  · subst hsame
    have hboth := hb.symm.trans hinstructions
    simp only [AddressRange.Apart, AddressRange.stop] at hapart
    rcases hapart with hle | hle
    · obtain ⟨ks, rfl, rfl⟩ := exists_append_of_totalSize_le (before ++ removed) before'
        (by simpa using hboth) (by rw [totalSize_append]; omega)
        fun i hi => hpos i (by rw [hb]; exact List.mem_append_left _ hi)
      refine ⟨c, hc, before ++ incoming ++ ks, behind', by simp [c], ?_⟩
      simp only [totalSize_append, hsize, c]
    · obtain ⟨ks, rfl, rfl⟩ := exists_append_of_totalSize_le (before' ++ run) before
        (by simpa using hboth.symm) (by rw [totalSize_append]; omega)
        fun i hi => hpos i (by rw [hinstructions]; exact List.mem_append_left _ hi)
      exact ⟨c, hc, before', ks ++ incoming ++ behind, by simp [c], rfl⟩
  · refine ⟨b', mem_blocks.mpr ?_, before', behind', hinstructions, rfl⟩
    rw [mem_blocks, hsplit, List.mem_append, List.mem_cons] at hb'
    rcases hb' with hfront | hmiddle | hrest
    · exact List.mem_append_left _ hfront
    · exact absurd (Piece.code.inj hmiddle) hsame
    · exact List.mem_append_right _ (List.mem_cons_of_mem _ hrest)

end FlowGraph

namespace Function

variable {f f' : Function} {g : FlowGraph} {a : Nat} {replacements removed : List Instruction}

/-- Instructions of a block can be swapped for others that need no more room than there is up to the
end of the block. -/
theorem swap_eq_ok (hgraph : f.graph = some g) (hg : g.LaidOut) {b : Block} (hb : b ∈ g.blocks)
    {before rest : List Instruction} {i : Instruction}
    (hinstructions : b.instructions = before ++ i :: rest)
    (hroom : totalSize replacements ≤ totalSize (i :: rest)) :
    ∃ f', f.swap i.address replacements =
      .ok (coveringRun (totalSize replacements) (i :: rest), f') := by
  obtain ⟨n, hn⟩ := List.mem_iff_getElem?.mp hb
  have hnumber := hg.blockContaining?_address hn (i := i) (by simp [hinstructions])
  have hstart : b.indexAt? i.address = some before.length := by
    have hordered := (hg.blocks b hb).pairwise_address
    rw [hinstructions, List.pairwise_append] at hordered
    rw [Block.indexAt?, hinstructions, List.findIdx?_append,
      List.findIdx?_eq_none_iff.mpr fun j hj => ?_]
    · simp [List.findIdx?_cons]
    · have hlt := hordered.2.2 j hj i List.mem_cons_self
      simp only [decide_eq_false_iff_not]
      omega
  have hdrop : b.instructions.drop before.length = i :: rest := by
    rw [hinstructions, List.drop_left]
  unfold swap
  simp only [hgraph, hnumber, FlowGraph.block?, hn, hstart, hdrop,
    Nat.not_lt.mpr (le_totalSize_coveringRun_of_le hroom)]
  exact ⟨_, rfl⟩

/-- A run can be swapped if it has room for the replacements and needs all of its instructions for
that. -/
theorem exists_swap (hgraph : f.graph = some g) (hg : g.LaidOut) (hrun : g.HasRun a removed)
    (hne : removed ≠ []) (hroom : totalSize replacements ≤ totalSize removed)
    (hneeded : coveringRun (totalSize replacements) removed = removed) :
    ∃ f', f.swap a replacements = .ok (removed, f') := by
  obtain ⟨b, hb, before, behind, hinstructions, rfl⟩ := hrun
  obtain ⟨i, rest, rfl⟩ := List.exists_cons_of_ne_nil hne
  have haddress : i.address = b.address + totalSize before := by
    have hcontiguous := (hg.blocks b hb).contiguous
    rw [hinstructions, List.append_assoc, contiguous_append] at hcontiguous
    exact hcontiguous.2.1
  rw [List.append_assoc, List.cons_append] at hinstructions
  obtain ⟨f', hswap⟩ := swap_eq_ok hgraph hg hb hinstructions
    (hroom.trans (by simp only [totalSize_cons, totalSize_append]; omega))
  rw [← List.cons_append, coveringRun_append hroom, hneeded, haddress] at hswap
  exact ⟨f', hswap⟩

/-- What a swap does to the bytes of a function, and what it leaves alone. -/
theorem swap_spec (hgraph : f.graph = some g) (hg : g.LaidOut)
    (hmade : ∀ i ∈ replacements, Encode.Made i) (h : f.swap a replacements = .ok (removed, f')) :
    ∃ g', f' = { f with graph := some g' } ∧ g'.base = g.base ∧ g'.LaidOut ∧
      PatchPoint.writeAt g.dump g.base a (bytesOfAll (layOutFrom a (replacements ++
        Encode.nops (totalSize removed - totalSize replacements)))) = .ok g'.dump ∧
      ∀ c run, g.HasRun c run →
        AddressRange.Apart ⟨a, totalSize removed⟩ ⟨c, totalSize run⟩ → g'.HasRun c run := by
  obtain ⟨g', rfl, hbase, hlaid, -⟩ :=
    swap_keeps hgraph hg (fun i hi => (hmade i hi).size_pos) h
  obtain ⟨front, b, rest, before, behind, k, hsplit, hb, -, rfl, hroom, hf'⟩ := swap_ok hgraph hg h
  obtain rfl := Option.some.inj (congrArg Function.graph hf')
  obtain rfl : k = totalSize removed - totalSize replacements := by omega
  have hsize : totalSize (layOutFrom (b.address + totalSize before) (replacements ++
      Encode.nops (totalSize removed - totalSize replacements))) = totalSize removed := by
    rw [Trampoline.totalSize_layOutFrom, totalSize_append, Encode.totalSize_nops, hroom]
  exact ⟨_, rfl, hbase, hlaid, hg.writeAt_dump hsplit hb hsize,
    fun c run hrun hapart => hg.hasRun_replace hsplit hb hsize hrun hapart⟩

end Function

/-! ### All that a swap does -/

namespace FlowGraph

/-- An instruction starts at `a`, and from there on its block has `needed` bytes. -/
def HasRoom (g : FlowGraph) (a needed : Nat) : Prop :=
  ∃ b ∈ g.blocks, ∃ i ∈ b.instructions, i.address = a ∧ a + needed ≤ b.stop

/-- What is put in the place of a run: the replacements, and no-ops up to the end of the run. -/
def fillRun (a : Nat) (replacements removed : List Instruction) : List Instruction :=
  layOutFrom a (replacements ++ Encode.nops (totalSize removed - totalSize replacements))

/-- The graph after a run at `a` has been swapped. The run is the shortest one that has room for the
replacements; instructions change in its place only, bytes on its range only, and what the graph
has besides its instructions does not change. -/
structure Swaps (g : FlowGraph) (a : Nat) (replacements removed : List Instruction)
    (g' : FlowGraph) : Prop where
  blocks : ∃ lead b tail before behind, g.blocks = lead ++ b :: tail ∧
    b.instructions = before ++ removed ++ behind ∧ b.address + totalSize before = a ∧
    Covers (totalSize replacements) (removed ++ behind) removed ∧ g'.blocks =
      lead ++ { b with instructions := before ++ fillRun a replacements removed ++ behind } :: tail
  bytes : ∃ lead padding tail, g.dump = lead ++ bytesOfAll removed ++ tail ∧
    a = g.base + lead.length ∧ totalSize replacements + padding.length = totalSize removed ∧
    g'.dump = lead ++ (bytesOfAll replacements ++ padding) ++ tail
  /-- Behind the replacements no-ops are read, up to the end of the run. -/
  padding : ∀ w, ∃ nops, Contiguous (a + totalSize replacements) nops ∧
    totalSize replacements + totalSize nops = totalSize removed ∧ ∀ i ∈ nops, i.isNop = true ∧
      decode w (g'.dump.drop (i.address - g.base)) i.address = .ok i
  base_eq : g'.base = g.base
  size_eq : g'.size = g.size
  spans_eq : g'.spans = g.spans
  edges_eq : g'.blocks.map (fun b => (b.preds, b.succs)) = g.blocks.map fun b => (b.preds, b.succs)
  rawBlocks_eq : g'.rawBlocks = g.rawBlocks
  loops_eq : g'.loops = g.loops
  tiled : Tiles g'.base (g'.base + g'.size) g'.pieces
  contiguous : ∀ b ∈ g'.blocks, Contiguous b.address b.instructions

variable {g : FlowGraph} {b : Block} {front rest : List Piece} {a : Nat}
variable {replacements before removed behind : List Instruction}

theorem totalSize_fillRun (hroom : totalSize replacements ≤ totalSize removed) :
    totalSize (fillRun a replacements removed) = totalSize removed := by
  rw [fillRun, Trampoline.totalSize_layOutFrom, totalSize_append, Encode.totalSize_nops,
    Nat.add_sub_of_le hroom]

theorem LaidOut.swaps (hg : g.LaidOut) (hsplit : g.pieces = front ++ .code b :: rest)
    (hb : b.instructions = before ++ removed ++ behind)
    (hcovers : Covers (totalSize replacements) (removed ++ behind) removed) :
    let a := b.address + totalSize before
    let c := { b with instructions := before ++ fillRun a replacements removed ++ behind }
    g.Swaps a replacements removed { g with pieces := front ++ .code c :: rest } := by
  intro a c
  have hroom := hcovers.le_totalSize
  have hmem : b ∈ g.blocks := mem_blocks.mpr (by simp [hsplit])
  obtain ⟨hcontiguous, hsize⟩ := (hg.blocks b hmem).contiguous_replace hb
    (contiguous_layOutFrom a _) (totalSize_fillRun hroom)
  obtain ⟨lead, tail, hold, haddress, hnew⟩ := hg.exists_dump_eq hsplit hb
  have hdump : ({ g with pieces := front ++ .code c :: rest } : FlowGraph).dump = lead ++
      (bytesOfAll replacements ++
        bytesOfAll (Encode.nops (totalSize removed - totalSize replacements))) ++ tail := by
    rw [hnew, fillRun, bytesOfAll_layOutFrom, bytesOfAll_append]
  have htiled := hg.tiled
  rw [hsplit] at htiled
  refine ⟨?_, ⟨lead, _, tail, hold, haddress, ?_, hdump⟩, fun w => ?_, rfl, rfl, ?_, ?_,
    rawBlocks_replace hsplit, rfl, tiles_replace htiled rfl hsize, fun d hd => ?_⟩
  · exact ⟨front.filterMap Piece.block?, b, rest.filterMap Piece.block?, before, behind,
      by simp [FlowGraph.blocks, hsplit], hb, rfl, hcovers, by simp [FlowGraph.blocks, c]⟩
  · rw [length_bytesOfAll, Encode.totalSize_nops, Nat.add_sub_of_le hroom]
  · obtain ⟨nops, hplaced, htotal, hreads⟩ := exists_nops_within w
      (totalSize removed - totalSize replacements) g.base (lead ++ bytesOfAll replacements) tail
    rw [List.length_append, length_bytesOfAll, ← Nat.add_assoc, ← haddress] at hplaced
    rw [List.append_assoc lead, ← hdump] at hreads
    exact ⟨nops, hplaced, by omega, hreads⟩
  · simp only [spans, hsplit, List.map_append, List.map_cons]
    rw [show (Piece.code c).size = (Piece.code b).size from hsize]
    rfl
  · simp [FlowGraph.blocks, hsplit, c]
  · rcases mem_blocks_replace hsplit hd with rfl | hd
    · exact hcontiguous
    · exact (hg.blocks d hd).contiguous

end FlowGraph

namespace Function

variable {f₀ f f' : Function} {g : FlowGraph} {a : Nat} {replacements removed : List Instruction}

/-- A swap succeeds only where there is room, and then does all that a swap does. -/
theorem swaps_of_swap (hgraph : f.graph = some g) (hg : g.LaidOut)
    (h : f.swap a replacements = .ok (removed, f')) :
    g.HasRoom a (totalSize replacements) ∧
      ∃ g', f' = { f with graph := some g' } ∧ g.Swaps a replacements removed g' := by
  obtain ⟨front, b, rest, before, behind, k, hsplit, hb, hne, rfl, hroom, hf'⟩ := swap_ok hgraph hg h
  obtain rfl : k = totalSize removed - totalSize replacements := by omega
  have hmem : b ∈ g.blocks := FlowGraph.mem_blocks.mpr (by simp [hsplit])
  obtain ⟨i, is, his⟩ := List.exists_cons_of_ne_nil hne
  have hinstructions : b.instructions = before ++ i :: is := by rw [hb, List.append_assoc, his]
  have hcontiguous := (hg.blocks b hmem).contiguous
  rw [hinstructions, contiguous_append] at hcontiguous
  have hfits : totalSize replacements ≤ totalSize (removed ++ behind) := by
    rw [totalSize_append]
    omega
  -- The same swap removes the shortest run, so the run is that one.
  obtain ⟨f'', hswap⟩ := swap_eq_ok hgraph hg hmem hinstructions (his ▸ hfits)
  rw [hcontiguous.2.1, h] at hswap
  obtain ⟨hrun, -⟩ := Prod.mk.inj (Except.ok.inj hswap)
  have hcovers := covers_coveringRun hfits
  rw [his, ← hrun, ← his] at hcovers
  refine ⟨⟨b, hmem, i, by simp [hinstructions], hcontiguous.2.1, ?_⟩, _, hf',
    hg.swaps hsplit hb hcovers⟩
  rw [Block.stop, Block.size, hb, List.append_assoc, totalSize_append]
  omega

theorem exists_swap_of_hasRoom (hgraph : f.graph = some g) (hg : g.LaidOut)
    (h : g.HasRoom a (totalSize replacements)) :
    ∃ removed f', f.swap a replacements = .ok (removed, f') := by
  obtain ⟨b, hb, i, hi, rfl, hroom⟩ := h
  obtain ⟨before, rest, hinstructions⟩ := List.append_of_mem hi
  have hcontiguous := (hg.blocks b hb).contiguous
  rw [hinstructions, contiguous_append] at hcontiguous
  have haddress := hcontiguous.2.1
  have hfits : totalSize replacements ≤ totalSize (i :: rest) := by
    rw [Block.stop, Block.size, hinstructions, totalSize_append] at hroom
    omega
  obtain ⟨f', hswap⟩ := swap_eq_ok hgraph hg hb hinstructions hfits
  exact ⟨_, f', hswap⟩

/-- A successful edit of a function: room that is made in it, or instructions swapped for others,
none of which is empty. -/
inductive Change : Function → Function → Prop
  | bloat {f f' : Function} {es : List Expansion} {size : Nat}
      (h : (Function.bloat es).run f = .ok size f') : Change f f'
  | swap {f f' : Function} {a : Nat} {replacements removed : List Instruction}
      (hpos : ∀ i ∈ replacements, 0 < i.size) (h : f.swap a replacements = .ok (removed, f')) :
      Change f f'

theorem Change.keeps (h : Change f f') (hgraph : f.graph = some g) (hg : g.LaidOut) :
    ∃ g', f' = { f with graph := some g' } ∧ g'.base = g.base ∧ g'.LaidOut := by
  cases h with
  | bloat h =>
      obtain ⟨g', hf', hbase, hlaid, -⟩ := bloat_keeps hgraph hg h
      exact ⟨g', hf', hbase, hlaid⟩
  | swap hpos h =>
      obtain ⟨g', hf', hbase, hlaid, -⟩ := swap_keeps hgraph hg hpos h
      exact ⟨g', hf', hbase, hlaid⟩

/-- Swapping in a function that has been digested and edited. If there is room, the shortest run
that will do is exchanged for the replacements and no-ops, and nothing else changes; and otherwise
the swap fails, and there is no new function. -/
theorem swap_of_changed (hf₀ : f₀.Digested) (hf : Relation.ReflTransGen Change f₀ f) (a : Nat)
    (replacements : List Instruction) : ∃ g, f.graph = some g ∧ g.base = f.base ∧
      match f.swap a replacements with
      | .error _ => ¬ g.HasRoom a (totalSize replacements)
      | .ok (removed, f') => g.HasRoom a (totalSize replacements) ∧
        ∃ g', f' = { f with graph := some g' } ∧ g.Swaps a replacements removed g' := by
  obtain ⟨g, hgraph, hbase, hlaid⟩ : ∃ g, f.graph = some g ∧ g.base = f.base ∧ g.LaidOut := by
    induction hf with
    | refl =>
        obtain ⟨g, hgraph, hbase, -, hlaid⟩ := hf₀.laidOut
        exact ⟨g, hgraph, hbase, hlaid⟩
    | tail _ hchange ih =>
        obtain ⟨g, hgraph, hbase, hlaid⟩ := ih
        obtain ⟨g', rfl, hbase', hlaid'⟩ := hchange.keeps hgraph hlaid
        exact ⟨g', rfl, hbase'.trans hbase, hlaid'⟩
  refine ⟨g, hgraph, hbase, ?_⟩
  cases hswap : f.swap a replacements with
  | error fault =>
      intro hroom
      obtain ⟨removed, f', hok⟩ := exists_swap_of_hasRoom hgraph hlaid hroom
      rw [hswap] at hok
      cases hok
  | ok result => exact swaps_of_swap hgraph hlaid hswap

/-- A breakpoint in the place of the wide jump, and a no-op of five bytes behind it. -/
theorem SelfJump.swap_wideJump {f : Function} {b : Block} {loops : List Loop} :
    (withCode f b loops [nopAt 0x1000, wideJump 0x1001 (-7)]).swap 0x1001 [Encode.int3] =
      .ok ([wideJump 0x1001 (-7)], withCode f b loops [nopAt 0x1000,
        { Encode.int3 with address := 0x1001 }, { Encode.nopOfSize 5 with address := 0x1002 }]) := by
  cbv

theorem swap_of_changed_wideJump : ∃ tables f g b f' g', SelfJump.Digests tables f g b ∧
    Relation.ReflTransGen Change f f' ∧ f'.graph = some g' ∧
    f'.dump = [0x90, 0x0f, 0x84, 0xf9, 0xff, 0xff, 0xff] ∧
    ∃ f'' g'', f'.swap 0x1001 [Encode.int3] = .ok ([SelfJump.wideJump 0x1001 (-7)], f'') ∧
      f''.dump = [0x90, 0xcc, 0x0f, 0x1f, 0x44, 0x00, 0x00] ∧ f'' = { f' with graph := some g'' } ∧
      g'.Swaps 0x1001 [Encode.int3] [SelfJump.wideJump 0x1001 (-7)] g'' := by
  obtain ⟨tables, f, g, b, hd⟩ := SelfJump.exists_digests
  have hbloat : _ = EStateM.Result.ok 7 (SelfJump.withCode f b g.loops _) :=
    SelfJump.run_bloat_before
  rw [← hd.eq_withCode] at hbloat
  have hchanged : Relation.ReflTransGen Change f _ := .single (.bloat hbloat)
  obtain ⟨g', hgraph, -, hresult⟩ :=
    swap_of_changed ⟨_, _, _, hd.run_eq⟩ hchanged 0x1001 [Encode.int3]
  rw [SelfJump.swap_wideJump] at hresult
  obtain ⟨-, g'', hf'', hswaps⟩ := hresult
  exact ⟨tables, f, g, b, _, g', hd, hchanged, hgraph, rfl, _, g'', SelfJump.swap_wideJump, rfl,
    hf'', hswaps⟩

end Function

end BinTrace
