import BinTrace.Function.Swap
import BinTrace.Proofs.Function.Bloat
import BinTrace.Proofs.Patch.Site

/-!
Editing a function again and again: making room in it and swapping instructions. Whatever the
history, the function stays laid out, so every further bloat does what it does to a function that
has just been digested. A function that passed the check passes it still, unless room was asked for
behind a transfer of control: padding there would stand behind the end of the block.
-/

namespace BinTrace

theorem exists_of_mem_layOutFrom {a : Nat} {is : List Instruction} {j : Instruction}
    (h : j ∈ layOutFrom a is) : ∃ i ∈ is, ∃ a, j = { i with address := a } := by
  induction is generalizing a with
  | nil => cases h
  | cons i rest ih =>
      rcases List.mem_cons.mp h with rfl | h
      · exact ⟨i, List.mem_cons_self, a, rfl⟩
      · obtain ⟨k, hk, hj⟩ := ih h
        exact ⟨k, List.mem_cons_of_mem _ hk, hj⟩

/-- What every instruction has that the encoder made, wherever it has been moved: it is marked as
the encoder's, and it is not empty. -/
structure Encode.Made (i : Instruction) : Prop where
  source_eq : i.source = .instrumentation
  size_pos : 0 < i.size

theorem Encode.Made.isOwnTransfer_eq {i : Instruction} (h : Encode.Made i) :
    Block.isOwnTransfer i = false := by
  simp [Block.isOwnTransfer, h.source_eq]

theorem Encode.made_of_isNop {i : Instruction} (h : Encode.IsNop i) : Encode.Made i := by
  have hpos := h.size_pos
  obtain ⟨n, -, -, heq⟩ := h
  exact ⟨by rw [heq]; rfl, hpos⟩

/-- No instruction but the last is a transfer of control that belongs to the program. -/
def TransferLast (is : List Instruction) : Prop :=
  is.Pairwise fun i _ => Block.isOwnTransfer i = false

theorem transferLast_iff {is : List Instruction} :
    TransferLast is ↔ ∀ i ∈ is.dropLast, Block.isOwnTransfer i = false := by
  induction is with
  | nil => simp [TransferLast]
  | cons i rest ih =>
      rw [TransferLast, List.pairwise_cons]
      cases rest with
      | nil => simp
      | cons j rest =>
          rw [List.dropLast_cons_cons]
          refine Iff.trans ?_ List.forall_mem_cons.symm
          exact and_congr ⟨fun h => h j List.mem_cons_self, fun h _ _ => h⟩ ih

/-- A run of instructions may be exchanged for instructions that are no such transfers. -/
theorem TransferLast.replace {before removed behind incoming : List Instruction}
    (h : TransferLast (before ++ removed ++ behind)) (hne : removed ++ behind ≠ [])
    (hincoming : ∀ i ∈ incoming, Block.isOwnTransfer i = false) :
    TransferLast (before ++ incoming ++ behind) := by
  rw [TransferLast, List.append_assoc, List.pairwise_append] at h ⊢
  obtain ⟨hbefore, hrest, hacross⟩ := h
  obtain ⟨last, others, hlast⟩ := List.exists_cons_of_ne_nil hne
  -- Those in front were followed by something, so none of them is such a transfer.
  refine ⟨hbefore, ?_, fun i hi _ _ => hacross i hi last (by simp [hlast])⟩
  rw [List.pairwise_append] at hrest ⊢
  exact ⟨List.pairwise_of_forall_mem_list fun i hi _ _ => hincoming i hi, hrest.2.1,
    fun i hi _ _ => hincoming i hi⟩

/-- Padding in front of instructions, and behind those that are no such transfers. -/
theorem TransferLast.flatMap {is : List Instruction} {part : Instruction → Part}
    (h : TransferLast is)
    (hpadding : ∀ i ∈ is, ∀ n ∈ (part i).front ++ (part i).behind, Block.isOwnTransfer n = false)
    (hmain : ∀ i ∈ is, Block.isOwnTransfer (part i).main = Block.isOwnTransfer i)
    (hbehind : ∀ i ∈ is, (part i).behind ≠ [] → Block.isOwnTransfer i = false) :
    TransferLast (is.flatMap fun i => (part i).all) := by
  have hown {i : Instruction} (hi : i ∈ is) (hnot : Block.isOwnTransfer i = false) :
      ∀ j ∈ (part i).all, Block.isOwnTransfer j = false := by
    intro j hj
    rcases List.mem_append.mp hj with hj | hj
    · exact hpadding i hi j (List.mem_append_left _ hj)
    · rcases List.mem_cons.mp hj with rfl | hj
      · rw [hmain i hi, hnot]
      · exact hpadding i hi j (List.mem_append_right _ hj)
  refine List.pairwise_flatMap.mpr ⟨fun i hi => ?_, ?_⟩
  · rw [Part.all, List.pairwise_append, List.pairwise_cons]
    refine ⟨List.pairwise_of_forall_mem_list fun n hn _ _ =>
        hpadding i hi n (List.mem_append_left _ hn),
      ⟨fun n hn => ?_, List.pairwise_of_forall_mem_list fun n hn _ _ =>
        hpadding i hi n (List.mem_append_right _ hn)⟩,
      fun n hn _ _ => hpadding i hi n (List.mem_append_left _ hn)⟩
    rw [hmain i hi, hbehind i hi (List.ne_nil_of_mem hn)]
  · exact h.imp_of_mem fun hi _ hnot j hj _ _ => hown hi hnot j hj

/-- What is exchanged for a run of the same size leaves no gap. -/
theorem Block.LaidOut.contiguous_replace {b : Block} (hlaid : b.LaidOut)
    {before removed behind incoming : List Instruction}
    (hb : b.instructions = before ++ removed ++ behind)
    (hincoming : Contiguous (b.address + totalSize before) incoming)
    (hsize : totalSize incoming = totalSize removed) :
    Contiguous b.address (before ++ incoming ++ behind) ∧
      totalSize (before ++ incoming ++ behind) = b.size := by
  have hcontiguous := hlaid.contiguous
  rw [hb, List.append_assoc, contiguous_append, contiguous_append] at hcontiguous
  constructor
  · rw [List.append_assoc, contiguous_append, contiguous_append, hsize]
    exact ⟨hcontiguous.1, hincoming, hcontiguous.2.2⟩
  · rw [Block.size, hb]
    simp only [totalSize_append, hsize]

/-- A run of instructions in a block may be exchanged for another one that fills the same room. -/
theorem Block.LaidOut.replace {b : Block} (hlaid : b.LaidOut)
    {before removed behind incoming : List Instruction}
    (hb : b.instructions = before ++ removed ++ behind)
    (hincoming : Contiguous (b.address + totalSize before) incoming)
    (hpos : ∀ i ∈ incoming, 0 < i.size) (hsize : totalSize incoming = totalSize removed) :
    ({ b with instructions := before ++ incoming ++ behind } : Block).LaidOut ∧
      totalSize (before ++ incoming ++ behind) = b.size := by
  obtain ⟨hcontiguous, hkeeps⟩ := hlaid.contiguous_replace hb hincoming hsize
  refine ⟨⟨fun hnil => ?_, hcontiguous, fun i hi => ?_⟩, hkeeps⟩
  · have hsize := hlaid.size_pos'
    rw [← hkeeps, show before ++ incoming ++ behind = [] from hnil] at hsize
    exact absurd hsize (Nat.lt_irrefl _)
  · rcases List.mem_append.mp hi with hi | hi
    · rcases List.mem_append.mp hi with hi | hi
      · exact hlaid.size_pos i (by simp [hb, hi])
      · exact hpos i hi
    · exact hlaid.size_pos i (by simp [hb, hi])

/-- Ordering expansions adds none. -/
theorem Expansion.mem_of_mem_ordered {es : List Expansion} {e : Expansion} (h : e ∈ ordered es) :
    e ∈ es := by
  have hsub (es : List Expansion) : (dropRepeated es).Sublist es := by
    induction es with
    | nil => exact List.Sublist.slnil
    | cons k rest ih =>
        rw [dropRepeated]
        split
        · rename_i m kept hkept
          rw [hkept] at ih
          split
          · exact ((List.sublist_cons_self m kept).trans ih).cons_cons k
          · exact ih.cons_cons k
        · exact List.singleton_sublist.mpr List.mem_cons_self
  exact (List.mergeSort_perm es precedes).mem_iff.mp ((hsub _).subset h)

namespace FlowGraph

variable {g : FlowGraph}

/-- Every successor of a block counts the block among its predecessors. -/
def EdgesMatch (g : FlowGraph) : Prop :=
  ∀ n b, g.block? n = some b → ∀ m ∈ b.succs, ∃ c, g.block? m = some c ∧ n ∈ c.preds

/-- What a laid out graph needs to pass the check. -/
theorem LaidOut.wellFormed (hg : g.LaidOut) (hedges : g.EdgesMatch)
    (hlast : ∀ b ∈ g.blocks, TransferLast b.instructions) : g.WellFormed :=
  ⟨hg.tiled, fun b hb => ⟨(hg.blocks b hb).nonempty, (hg.blocks b hb).contiguous,
    transferLast_iff.mp (hlast b hb)⟩, hedges⟩

theorem WellFormed.transferLast (hg : g.WellFormed) :
    ∀ b ∈ g.blocks, TransferLast b.instructions :=
  fun b hb => transferLast_iff.mpr (hg.blocks b hb).transfer_last

/-- Edges depend on nothing else of the blocks. -/
theorem EdgesMatch.of_map_eq {g' : FlowGraph} (hg : g.EdgesMatch)
    (h : g'.blocks.map (fun b => (b.preds, b.succs)) = g.blocks.map fun b => (b.preds, b.succs)) :
    g'.EdgesMatch := by
  have hlook (m : Nat) : (g'.block? m).map (fun b => (b.preds, b.succs)) =
      (g.block? m).map fun b => (b.preds, b.succs) := by
    rw [block?, block?, ← List.getElem?_map, ← List.getElem?_map, h]
  intro n b hb m hm
  obtain ⟨b₀, hb₀, heq⟩ := Option.map_eq_some_iff.mp (by rw [← hlook n, hb, Option.map_some])
  rw [← (Prod.mk.inj heq).2] at hm
  obtain ⟨c₀, hc₀, hn⟩ := hg n b₀ hb₀ m hm
  obtain ⟨c, hc, heq⟩ := Option.map_eq_some_iff.mp (by rw [hlook m, hc₀, Option.map_some])
  exact ⟨c, hc, (Prod.mk.inj heq).1 ▸ hn⟩

/-! ### Exchanging the instructions of one block -/

variable {b c : Block} {front rest : List Piece}

theorem exists_modifyPieces_eq {n : Nat} {ps : List Piece}
    (hb : (ps.filterMap Piece.block?)[n]? = some b) : ∃ front rest, ps = front ++ .code b :: rest ∧
      ∀ f, modifyPieces f n ps = front ++ .code (f b) :: rest := by
  induction ps generalizing n with
  | nil => simp at hb
  | cons p ps ih =>
      cases p with
      | raw r =>
          rw [List.filterMap_cons_none (Piece.block?_raw r)] at hb
          obtain ⟨front, rest, hps, hmodify⟩ := ih hb
          refine ⟨.raw r :: front, rest, by rw [hps, List.cons_append], fun f => ?_⟩
          cases n <;> rw [modifyPieces, hmodify f, List.cons_append]
      | code c =>
          rw [List.filterMap_cons_some (Piece.block?_code c)] at hb
          cases n with
          | zero =>
              cases hb
              exact ⟨[], ps, rfl, fun f => rfl⟩
          | succ n =>
              obtain ⟨front, rest, hps, hmodify⟩ := ih (n := n) (by simpa using hb)
              refine ⟨.code c :: front, rest, by rw [hps, List.cons_append], fun f => ?_⟩
              rw [modifyPieces, hmodify f, List.cons_append]

theorem mem_blocks_replace (hsplit : g.pieces = front ++ .code b :: rest) {d : Block}
    (hd : d ∈ ({ g with pieces := front ++ Piece.code c :: rest } : FlowGraph).blocks) :
    d = c ∨ d ∈ g.blocks := by
  rw [mem_blocks] at hd ⊢
  rw [hsplit]
  simp only [List.mem_append, List.mem_cons, Piece.code.injEq] at hd ⊢
  tauto

theorem tiles_replace {a stop : Nat} (h : Tiles a stop (front ++ .code b :: rest))
    (haddress : c.address = b.address) (hsize : c.size = b.size) :
    Tiles a stop (front ++ Piece.code c :: rest) := by
  rw [tiles_append, Tiles] at h ⊢
  refine ⟨h.1, haddress.trans h.2.1, ?_⟩
  rw [show (Piece.code c).size = (Piece.code b).size from hsize]
  exact h.2.2

theorem rawBlocks_replace (hsplit : g.pieces = front ++ .code b :: rest) :
    ({ g with pieces := front ++ Piece.code c :: rest } : FlowGraph).rawBlocks = g.rawBlocks := by
  simp [rawBlocks, hsplit, List.filterMap_cons]

/-- A block may be exchanged for one of the same place and size. -/
theorem LaidOut.replace (hg : g.LaidOut) (hsplit : g.pieces = front ++ .code b :: rest)
    (hc : c.LaidOut) (haddress : c.address = b.address) (hsize : c.size = b.size) :
    ({ g with pieces := front ++ Piece.code c :: rest } : FlowGraph).LaidOut := by
  refine ⟨tiles_replace (hsplit ▸ hg.tiled) haddress hsize, fun d hd => ?_, ?_⟩
  · rcases mem_blocks_replace hsplit hd with rfl | hd
    · exact hc
    · exact hg.blocks d hd
  · rw [rawBlocks_replace hsplit]
    exact hg.rawBlocks

theorem EdgesMatch.replace (hg : g.EdgesMatch) (hsplit : g.pieces = front ++ .code b :: rest)
    (hpreds : c.preds = b.preds) (hsuccs : c.succs = b.succs) :
    ({ g with pieces := front ++ Piece.code c :: rest } : FlowGraph).EdgesMatch :=
  hg.of_map_eq (by simp [blocks, hsplit, hpreds, hsuccs])

end FlowGraph

namespace Function

variable {f f' : Function} {g : FlowGraph}

/-- A swap exchanges a run of instructions of one block, from `a` on, for the replacements with
no-ops behind them, which fill the same room. -/
theorem swap_ok {a : Nat} {replacements removed : List Instruction} (hgraph : f.graph = some g)
    (hg : g.LaidOut) (h : f.swap a replacements = .ok (removed, f')) :
    ∃ front b rest before behind k, g.pieces = front ++ .code b :: rest ∧
      b.instructions = before ++ removed ++ behind ∧ removed ++ behind ≠ [] ∧
      a = b.address + totalSize before ∧ totalSize replacements + k = totalSize removed ∧
      let incoming := layOutFrom a (replacements ++ Encode.nops k)
      let c := { b with instructions := before ++ incoming ++ behind }
      f' = { f with graph := some { g with pieces := front ++ .code c :: rest } } := by
  unfold swap at h
  simp only [hgraph] at h
  split at h
  · rename_i n hn
    split at h
    · rename_i b hb
      split at h
      · rename_i start hstart
        obtain ⟨hroom, hok⟩ := Outcome.guard_eq_ok.mp h
        cases hok
        obtain ⟨hlt, haddress, -⟩ := List.findIdx?_eq_some_iff_getElem.mp hstart
        obtain ⟨behind, hbehind⟩ := coveringRun_isPrefix (totalSize replacements)
          (b.instructions.drop start)
        obtain ⟨front, rest, hsplit, hmodify⟩ := FlowGraph.exists_modifyPieces_eq hb
        -- The instruction found at `a` is where the instructions in front of it stop.
        have hcut := List.drop_eq_getElem_cons hlt
        have hcontiguous := (hg.blocks b (List.mem_of_getElem? hb)).contiguous
        rw [← List.take_append_drop start b.instructions, contiguous_append, hcut] at hcontiguous
        have hdrop (is : List Instruction) (his : is ++ behind = b.instructions.drop start) :
            b.instructions.drop (start + is.length) = behind := by
          rw [← List.drop_drop, ← his, List.drop_left]
        refine ⟨front, b, rest, b.instructions.take start, behind, _, hsplit, ?_, ?_, ?_,
          Nat.add_sub_of_le (Nat.not_lt.mp hroom), ?_⟩
        · rw [List.append_assoc, hbehind, List.take_append_drop]
        · rw [hbehind, hcut]
          exact List.cons_ne_nil _ _
        · rw [← hcontiguous.2.1]
          exact (of_decide_eq_true haddress).symm
        · simp only [FlowGraph.modifyBlock, hmodify, hdrop _ hbehind]
      · cases h
    · cases h
  · cases h

variable {replacements removed : List Instruction} {a : Nat}

/-- What is swapped in is what the encoder made: the replacements, moved, and no-ops. -/
theorem made_of_mem_incoming (hmade : ∀ i ∈ replacements, Encode.Made i) {k : Nat} :
    ∀ i ∈ layOutFrom a (replacements ++ Encode.nops k), Encode.Made i := by
  intro i hi
  obtain ⟨j, hj, place, rfl⟩ := exists_of_mem_layOutFrom hi
  have hj : Encode.Made j := by
    rcases List.mem_append.mp hj with hj | hj
    · exact hmade j hj
    · obtain ⟨n, hpos, hle, rfl⟩ := Encode.mem_nops hj
      exact Encode.made_of_isNop ⟨n, hpos, hle, rfl⟩
  exact ⟨hj.source_eq, hj.size_pos⟩

theorem size_pos_of_mem_incoming (hpos : ∀ i ∈ replacements, 0 < i.size) {k : Nat} :
    ∀ i ∈ layOutFrom a (replacements ++ Encode.nops k), 0 < i.size := by
  intro i hi
  obtain ⟨j, hj, place, rfl⟩ := exists_of_mem_layOutFrom hi
  rcases List.mem_append.mp hj with hj | hj
  · exact hpos j hj
  · obtain ⟨n, hpos, hle, rfl⟩ := Encode.mem_nops hj
    exact Encode.IsNop.size_pos ⟨n, hpos, hle, rfl⟩

/-- Swapping in instructions that are not empty keeps a function laid out, and well-formed if it was
and the encoder made them. -/
theorem swap_keeps (hgraph : f.graph = some g) (hg : g.LaidOut)
    (hpos : ∀ i ∈ replacements, 0 < i.size) (h : f.swap a replacements = .ok (removed, f')) :
    ∃ g', f' = { f with graph := some g' } ∧ g'.base = g.base ∧ g'.LaidOut ∧
      ((∀ i ∈ replacements, Encode.Made i) → g.WellFormed → g'.WellFormed) := by
  obtain ⟨front, b, rest, before, behind, k, hsplit, hb, hne, ha, hroom, rfl⟩ := swap_ok hgraph hg h
  have hmem : b ∈ g.blocks := FlowGraph.mem_blocks.mpr (by simp [hsplit])
  have hsize : totalSize (layOutFrom a (replacements ++ Encode.nops k)) = totalSize removed := by
    rw [Trampoline.totalSize_layOutFrom, totalSize_append, Encode.totalSize_nops, hroom]
  obtain ⟨hc, hkeeps⟩ := (hg.blocks b hmem).replace hb (ha ▸ contiguous_layOutFrom _ _)
    (size_pos_of_mem_incoming hpos) hsize
  have hg' := hg.replace hsplit hc rfl hkeeps
  refine ⟨_, rfl, rfl, hg', fun hmade hwf => ?_⟩
  refine hg'.wellFormed (FlowGraph.EdgesMatch.replace hwf.edges hsplit rfl rfl) fun d hd => ?_
  rcases FlowGraph.mem_blocks_replace hsplit hd with rfl | hd
  · have hlast := hwf.transferLast b hmem
    rw [hb] at hlast
    exact hlast.replace hne fun i hi => (made_of_mem_incoming hmade i hi).isOwnTransfer_eq
  · exact hwf.transferLast d hd

/-- Room behind the end of a block is asked for only where no transfer of control of the program
ends it: behind an instruction that is none. -/
def SparesTransfers (f : Function) (es : List Expansion) : Prop :=
  ∀ e ∈ es, e.location = .after → 0 < e.size →
    ∀ i ∈ f.instructions, i.address = e.address → Block.isOwnTransfer i = false

/-- Making room keeps a function laid out, and well-formed if it was and transfers of control are
spared. -/
theorem bloat_keeps (hgraph : f.graph = some g) (hg : g.LaidOut) {es : List Expansion} {size : Nat}
    (h : (bloat es).run f = .ok size f') :
    ∃ g', f' = { f with graph := some g' } ∧ g'.base = g.base ∧ g'.LaidOut ∧
      (g.WellFormed → f.SparesTransfers es → g'.WellFormed) := by
  obtain ⟨g', move, part, rfl, -, hbloats⟩ := bloat_ok hgraph hg h
  have hblocks := FlowGraph.forall₂_blocks hbloats.pieces
  refine ⟨g', rfl, hbloats.base_eq, hbloats.laidOut hg, fun hwf hspares => ?_⟩
  refine (hbloats.laidOut hg).wellFormed (FlowGraph.EdgesMatch.of_map_eq hwf.edges ?_) fun c hc => ?_
  · exact (Outcome.map_eq_of_forall₂ hblocks fun b c ⟨a, hc⟩ => by rw [hc]; rfl).symm
  · obtain ⟨b, hb, a, rfl⟩ := (Outcome.exists_mem_of_forall₂ hblocks).2 c hc
    have hin {i : Instruction} (hi : i ∈ b.instructions) : i ∈ g.instructions :=
      List.mem_flatMap.mpr ⟨b, hb, hi⟩
    refine (hwf.transferLast b hb).flatMap (fun i hi n hn => ?_) (fun i hi => ?_) fun i hi hne => ?_
    · exact (Encode.made_of_isNop ((hbloats.parts i (hin hi)).padding n hn)).isOwnTransfer_eq
    · have hdeed := (hbloats.parts i (hin hi)).main.deed
      rw [Block.isOwnTransfer, Block.isOwnTransfer, Instruction.isControl, Instruction.isControl,
        hdeed.opcodeClass_eq, hdeed.source_eq]
    · obtain ⟨e, he, hafter, hsize, haddress⟩ := hbloats.behind i (hin hi) hne
      refine hspares e (Expansion.mem_of_mem_ordered he) hafter hsize i ?_ haddress.symm
      rw [instructions, hgraph]
      exact hin hi

/-- One successful edit of a function, with a condition on the room that may be asked for. -/
inductive Edit (mayAsk : Function → List Expansion → Prop) : Function → Function → Prop
  | bloat {f f' : Function} {es : List Expansion} {size : Nat} (hes : mayAsk f es)
      (h : (Function.bloat es).run f = .ok size f') : Edit mayAsk f f'
  | swap {f f' : Function} {a : Nat} {replacements removed : List Instruction}
      (hmade : ∀ i ∈ replacements, Encode.Made i) (h : f.swap a replacements = .ok (removed, f')) :
      Edit mayAsk f f'

/-- The second function comes from the first one by successful edits. -/
def EditedTo (mayAsk : Function → List Expansion → Prop) : Function → Function → Prop :=
  Relation.ReflTransGen (Edit mayAsk)

variable {mayAsk : Function → List Expansion → Prop}

theorem Edit.keeps (h : Edit mayAsk f f') (hgraph : f.graph = some g) (hg : g.LaidOut) :
    ∃ g', f' = { f with graph := some g' } ∧ g'.base = g.base ∧ g'.LaidOut ∧
      (g.WellFormed → (∀ f es, mayAsk f es → f.SparesTransfers es) → g'.WellFormed) := by
  cases h with
  | bloat hes h =>
      obtain ⟨g', hf', hbase, hlaid, hwf⟩ := bloat_keeps hgraph hg h
      exact ⟨g', hf', hbase, hlaid, fun hg hspares => hwf hg (hspares _ _ hes)⟩
  | swap hmade h =>
      obtain ⟨g', hf', hbase, hlaid, hwf⟩ :=
        swap_keeps hgraph hg (fun i hi => (hmade i hi).size_pos) h
      exact ⟨g', hf', hbase, hlaid, fun hg _ => hwf hmade hg⟩

/-- A function stays laid out from its base through all edits. -/
theorem EditedTo.laidOut {f₀ : Function} (hf₀ : f₀.Digested) (h : EditedTo mayAsk f₀ f) :
    ∃ g, f.graph = some g ∧ f.base = f₀.base ∧ g.base = f.base ∧ g.LaidOut ∧
      ((∀ f es, mayAsk f es → f.SparesTransfers es) → g.WellFormed) := by
  induction h with
  | refl =>
      obtain ⟨g, hgraph, hbase, hwf, hlaid⟩ := hf₀.laidOut
      exact ⟨g, hgraph, rfl, hbase, hlaid, fun _ => hwf⟩
  | tail _ hedit ih =>
      obtain ⟨g, hgraph, hfbase, hbase, hlaid, hwf⟩ := ih
      obtain ⟨g', rfl, hbase', hlaid', hwf'⟩ := hedit.keeps hgraph hlaid
      exact ⟨g', rfl, hfbase, hbase'.trans hbase, hlaid',
        fun hspares => hwf' (hwf hspares) hspares⟩

end Function

end BinTrace
