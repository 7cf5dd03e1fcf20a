import BinTrace.Proofs.Function.Edits
import BinTrace.Proofs.Liveness.Escapes

/-!
What holds of a function after any history of successful edits since it was digested: what one more
bloat does to it, and whether it passes the check.
-/

namespace BinTrace

namespace FlowGraph

variable {g g' : FlowGraph} {part : Instruction → Part} {move : Nat → Nat} {es : List Expansion}

theorem Bloats.mono {es' : List Expansion} (h : g.Bloats es move part g')
    (hes : ∀ e ∈ es, e ∈ es') : g.Bloats es' move part g' :=
  { h with behind := fun i hi hne =>
      let ⟨e, he, hasked⟩ := h.behind i hi hne
      ⟨e, hes e he, hasked⟩ }

/-- The instructions are the old ones in their order, each with its padding. -/
theorem Bloats.instructions_eq (h : g.Bloats es move part g') :
    g'.instructions = g.instructions.flatMap fun i => (part i).all := by
  have hmap : g.blocks.map (fun b => b.instructions.flatMap fun i => (part i).all) =
      g'.blocks.map Block.instructions :=
    Outcome.map_eq_of_forall₂ (forall₂_blocks h.pieces) fun b c ⟨a, hc⟩ => by rw [hc]; rfl
  rw [instructions, instructions, List.flatMap_assoc, List.flatMap_def, List.flatMap_def, hmap]

theorem Bloats.size_eq (h : g.Bloats es move part g') : g'.size = (g'.pieces.map Piece.size).sum := by
  have htiled := h.tiled
  rw [← List.append_nil g'.pieces, tiles_append] at htiled
  have hstop : g'.base + (g'.pieces.map Piece.size).sum = g'.base + g'.size := htiled.2
  omega

/-- The new graph has at the second address what the old one has at the first: the same place
outside the function, the same raw byte, or the same instruction with the padding in front of it. -/
structure Corresponds (g g' : FlowGraph) (part : Instruction → Part) (a a' : Nat) : Prop where
  outside : g.range.contains a = false → a' = a
  raw : ∀ (n : Nat) (r r' : RawBlock), g.pieces[n]? = some (.raw r) →
    g'.pieces[n]? = some (.raw r') → ∀ k < r.bytes.length, a = r.address + k →
      r'.bytes = r.bytes ∧ a' = r'.address + k
  start : ∀ i ∈ g.instructions, i.address = a → a' = (part i).start

theorem Bloats.corresponds (h : g.Bloats es move part g') (a : Nat) :
    g.Corresponds g' part a (move a) := by
  refine ⟨h.outside a, fun n r r' hr hr' k hk ha => ?_, fun i hi ha => ?_⟩
  · obtain ⟨hn, hget⟩ := List.getElem?_eq_some_iff.mp hr
    obtain ⟨hn', hget'⟩ := List.getElem?_eq_some_iff.mp hr'
    have hexpands := (List.forall₂_iff_get.mp h.pieces).2 n hn hn'
    rw [List.get_eq_getElem, List.get_eq_getElem, hget, hget'] at hexpands
    cases hexpands with
    | raw r a' hmove => exact ⟨rfl, by rw [ha, hmove k hk]⟩
  · rw [← ha, (h.parts i hi).start_eq]

/-- A laid out graph with one block that fills it has no other piece. -/
theorem LaidOut.pieces_eq (hg : g.LaidOut) {b : Block} (hb : g.blocks = [b])
    (hsize : b.size = g.size) : g.pieces = [.code b] := by
  obtain ⟨front, rest, hsplit⟩ := List.append_of_mem (mem_blocks.mp (by simp [hb] : b ∈ g.blocks))
  have hempty {ps : List Piece} (hps : ∀ p ∈ ps, p ∈ g.pieces)
      (hsum : (ps.map Piece.size).sum = 0) : ps = [] := by
    refine List.eq_nil_iff_forall_not_mem.mpr fun p hp => ?_
    have hzero := List.sum_eq_zero_iff.mp hsum p.size (List.mem_map_of_mem hp)
    exact absurd (hg.size_pos (hps p hp)) (by omega)
  have htiled := hg.tiled
  rw [← List.append_nil g.pieces, tiles_append] at htiled
  have hstop : g.base + (g.pieces.map Piece.size).sum = g.base + g.size := htiled.2
  simp only [hsplit, List.map_append, List.map_cons, List.sum_append, List.sum_cons,
    show (Piece.code b).size = b.size from rfl] at hstop
  rw [hsplit, hempty (fun p hp => by simp [hsplit, hp]) (by omega : (front.map Piece.size).sum = 0),
    hempty (fun p hp => by simp [hsplit, hp]) (by omega : (rest.map Piece.size).sum = 0)]
  rfl

end FlowGraph

namespace Function

variable {mayAsk : Function → List Expansion → Prop} {f₀ f f' : Function}

/-- Making room in a function, whatever edits it has gone through. The new instructions are the old
ones in their order, each of them perhaps with a wide displacement and with no-ops around it; they
lie one behind the other from the base on, with the same raw bytes between them. What an
instruction referred to is what it refers to. -/
theorem bloat_of_editedTo (hf₀ : f₀.Digested) (hf : EditedTo mayAsk f₀ f) {es : List Expansion}
    {size : Nat} (h : (bloat es).run f = .ok size f') :
    ∃ g g' move part, f.graph = some g ∧ g.base = f.base ∧ f' = { f with graph := some g' } ∧
      size = (g'.spans.map Prod.snd).sum ∧ g.Bloats es move part g' ∧
      g'.instructions = g.instructions.flatMap (fun i => (part i).all) ∧
      ∀ i ∈ g.instructions, ∀ t, i.relativeTarget? = some t → ∃ t',
        (part i).main.relativeTarget? = some (t' % addressSpace) ∧ g.Corresponds g' part t t' := by
  obtain ⟨g, hgraph, -, hbase, hlaid, -⟩ := hf.laidOut hf₀
  obtain ⟨g', move, part, hf', hsize, hbloats⟩ := bloat_ok hgraph hlaid h
  refine ⟨g, g', move, part, hgraph, hbase, hf', ?_,
    hbloats.mono fun e he => Expansion.mem_of_mem_ordered he, hbloats.instructions_eq,
    fun i hi t ht => ⟨move t, ?_, hbloats.corresponds t⟩⟩
  · rw [hsize, hbloats.size_eq, FlowGraph.spans, List.map_map]
    rfl
  · rw [(hbloats.parts i hi).main.target_eq, ht, Option.map_some]

/-- A function passes the check after any history of edits that ask for no room behind transfers of
control, and a transfer of control of the program is the last instruction of its block. -/
theorem check_of_editedTo (hf₀ : f₀.Digested) (hf : EditedTo SparesTransfers f₀ f) :
    f.check = .ok () ∧ ∃ g, f.graph = some g ∧ g.base = f₀.base ∧
      ∀ b ∈ g.blocks, ∀ i ∈ b.instructions.dropLast, Block.isOwnTransfer i = false := by
  obtain ⟨g, hgraph, hfbase, hbase, -, hwf⟩ := hf.laidOut hf₀
  have hg := hwf fun _ _ hspares => hspares
  refine ⟨?_, g, hgraph, hbase.trans hfbase, fun b hb => (hg.blocks b hb).transfer_last⟩
  rw [check, hgraph]
  simp [FlowGraph.check_eq_ok.mpr hg, Except.mapError]

/-! The conditional jump to itself, edited. -/

namespace SelfJump

/-- A function of one block at the jump's place. -/
def withCode (f : Function) (b : Block) (loops : List Loop) (is : List Instruction) : Function :=
  { f with graph := some {
      base := 0x1000
      size := totalSize is
      pieces := [.code { b with address := 0x1000, instructions := is }]
      loops := loops } }

def nopAt (a : Nat) : Instruction := { Encode.nop with address := a }

/-- The jump with a wide displacement. -/
def wideJump (a : Nat) (displacement : Int) : Instruction :=
  { jump with
    address := a
    bytes := [0x0f, 0x84] ++ LittleEndian.bytesOfInt 4 displacement
    operands := [⟨.relative, displacement, 2, 4⟩] }

variable {f : Function} {g : FlowGraph} {b : Block} {tables : List JumpTable} {loops : List Loop}

theorem Digests.eq_withCode (hd : Digests tables f g b) : f = withCode f b g.loops [jump] := by
  have hdigested : f.Digested := ⟨_, _, _, hd.run_eq⟩
  obtain ⟨g', hgraph, -, -, hlaid⟩ := hdigested.laidOut
  cases hd.graph_eq.symm.trans hgraph
  have hrange := hd.range_eq
  rw [FlowGraph.range, AddressRange.mk.injEq] at hrange
  have hpieces := hlaid.pieces_eq hd.blocks_eq (by
    rw [Block.size, hd.instructions_eq, hrange.2]
    rfl)
  have hb : b = { b with address := 0x1000, instructions := [jump] } := by
    rw [← hd.address_eq, ← hd.instructions_eq]
  have hg : g = ⟨0x1000, totalSize [jump], [.code b], g.loops⟩ := by
    obtain ⟨base, size, pieces, loops⟩ := g
    obtain ⟨rfl, rfl⟩ := hrange
    cases hpieces
    rfl
  rw [withCode, ← hb, ← hg, ← hd.graph_eq]

theorem run_bloat {e : Expansion} (is js : List Instruction)
    (h : (do FlowGraph.widen; FlowGraph.relayout : EStateM EncodeError FlowGraph Unit).run
      (FlowGraph.pad ⟨0x1000, totalSize is, [.code { b with address := 0x1000, instructions := is }],
        loops⟩ [e]) = .ok () ⟨0x1000, totalSize js,
          [.code { b with address := 0x1000, instructions := js }], loops⟩) :
    (bloat [e]).run (withCode f b loops is) = .ok (totalSize js) (withCode f b loops js) := by
  have hordered : Expansion.ordered [e] = [e] := by
    simp [Expansion.ordered, Expansion.dropRepeated]
  rw [bloat, EStateM.run_bind, EStateM.run_get]
  simp only [withCode, hordered, h]
  rfl

set_option maxRecDepth 8192 in
/-- Room in front of the jump. -/
theorem run_bloat_before : (bloat [⟨0x1000, .before, 1⟩]).run (withCode f b loops [jump]) =
    .ok 7 (withCode f b loops [nopAt 0x1000, wideJump 0x1001 (-7)]) :=
  run_bloat [jump] [nopAt 0x1000, wideJump 0x1001 (-7)] (by cbv)

set_option maxRecDepth 8192 in
/-- Room behind the jump. -/
theorem run_bloat_after : (bloat [⟨0x1000, .after, 1⟩]).run (withCode f b loops [jump]) =
    .ok 7 (withCode f b loops [wideJump 0x1000 (-6), nopAt 0x1006]) :=
  run_bloat [jump] [wideJump 0x1000 (-6), nopAt 0x1006] (by cbv)

def breakpoint : Instruction := { Encode.int3 with address := 0x1000 }

/-- A breakpoint in the place of the no-op. -/
theorem swap_nop : (withCode f b loops [nopAt 0x1000, wideJump 0x1001 (-7)]).swap 0x1000
      [Encode.int3] = .ok ([nopAt 0x1000],
    withCode f b loops [breakpoint, wideJump 0x1001 (-7)]) := by
  cbv

theorem check_behind : (withCode f b loops [wideJump 0x1000 (-6), nopAt 0x1006]).check =
    .error (.layout (.earlyTransfer 0x1000)) := by
  cbv

end SelfJump

theorem bloat_of_editedTo_selfJump : ∃ tables f g b f', SelfJump.Digests tables f g b ∧
    (bloat [⟨0x1000, .before, 1⟩]).run f = .ok 7 f' ∧
    ∃ (g' : FlowGraph) (part : Instruction → Part), f' = { f with graph := some g' } ∧
      g'.instructions = g.instructions.flatMap (fun i => (part i).all) ∧
      ∃ t', (part SelfJump.jump).main.relativeTarget? = some (t' % addressSpace) ∧
        t' = (part SelfJump.jump).start := by
  obtain ⟨tables, f, g, b, hd⟩ := SelfJump.exists_digests
  have hrun : _ = EStateM.Result.ok 7 (SelfJump.withCode f b g.loops _) :=
    SelfJump.run_bloat_before
  rw [← hd.eq_withCode] at hrun
  obtain ⟨g₁, g', move, part, hgraph, -, hf', -, -, hinstructions, hrefers⟩ :=
    bloat_of_editedTo ⟨_, _, _, hd.run_eq⟩ (.refl : EditedTo (fun _ _ => True) f f) hrun
  cases hd.graph_eq.symm.trans hgraph
  have hmem : SelfJump.jump ∈ g.instructions := by
    simp [FlowGraph.instructions, hd.blocks_eq, hd.instructions_eq]
  obtain ⟨t', ht', hcorresponds⟩ := hrefers _ hmem 0x1000 (by decide)
  exact ⟨tables, f, g, b, _, hd, hrun, g', part, hf', hinstructions, t', ht',
    hcorresponds.start _ hmem rfl⟩

theorem check_of_editedTo_selfJump : ∃ tables f g b f', SelfJump.Digests tables f g b ∧
    EditedTo SparesTransfers f f' ∧
    f' = SelfJump.withCode f b g.loops [SelfJump.breakpoint, SelfJump.wideJump 0x1001 (-7)] ∧
    f'.check = .ok () := by
  obtain ⟨tables, f, g, b, hd⟩ := SelfJump.exists_digests
  have hbloat : _ = EStateM.Result.ok 7 (SelfJump.withCode f b g.loops _) :=
    SelfJump.run_bloat_before
  rw [← hd.eq_withCode] at hbloat
  have hspares : f.SparesTransfers [⟨0x1000, .before, 1⟩] := by
    intro e he hafter
    rw [List.mem_singleton.mp he] at hafter
    cases hafter
  have hswap : _ = Except.ok (_, SelfJump.withCode f b g.loops _) := SelfJump.swap_nop
  have hedited : EditedTo SparesTransfers f _ := .tail (.tail .refl (.bloat hspares hbloat))
    (.swap (fun i hi => by rw [List.mem_singleton.mp hi]; exact ⟨rfl, by decide⟩) hswap)
  exact ⟨tables, f, g, b, _, hd, hedited, rfl,
    (check_of_editedTo ⟨_, _, _, hd.run_eq⟩ hedited).1⟩

/-- Room behind a transfer of control is put behind the end of its block, and the function does not
pass the check any more. -/
theorem exists_bloat_fails_check : ∃ tables f g b f', SelfJump.Digests tables f g b ∧
    f.check = .ok () ∧ (bloat [⟨0x1000, .after, 1⟩]).run f = .ok 7 f' ∧
    f'.check = .error (.layout (.earlyTransfer 0x1000)) := by
  obtain ⟨tables, f, g, b, hd⟩ := SelfJump.exists_digests
  have hbloat : _ = EStateM.Result.ok 7 (SelfJump.withCode f b g.loops _) :=
    SelfJump.run_bloat_after
  rw [← hd.eq_withCode] at hbloat
  obtain ⟨g', hgraph, -, hwf, -⟩ := Digested.laidOut ⟨_, _, _, hd.run_eq⟩
  refine ⟨tables, f, g, b, _, hd, ?_, hbloat, SelfJump.check_behind⟩
  rw [check, hgraph]
  simp [FlowGraph.check_eq_ok.mpr hwf, Except.mapError]

end Function

end BinTrace
