import BinTrace.Proofs.Disassembly.Tables
import BinTrace.Proofs.Flow.Edges
import BinTrace.Proofs.Function.Digest
import BinTrace.Proofs.Liveness.Analysis

/-!
What is live where control can leave the graph of a function other than by a return. Everything is,
behind a branch to an address outside the function or to an address that is not known, and behind
an instruction from which control goes on to no block at all. Behind an instruction that falls off
the end of the code, or that jumps into the middle of an instruction, but that leads to some block
as well, only that block counts.
-/

namespace BinTrace

namespace FlowGraph

variable {g : FlowGraph} {s : Source}

theorem Joined.of_pieces {h : FlowGraph} (hp : h.pieces = g.pieces) (hg : g.Joined s) :
    h.Joined s := by
  obtain ⟨base, size, pieces, loops⟩ := h
  subst hp
  exact ⟨hg.mem_succs_iff, hg.isExit_eq⟩

theorem Joined.setLoops (hg : g.Joined s) : g.setLoops.Joined s := by
  refine Joined.of_pieces (setLoops_pieces g).1 ?_
  unfold setDominators
  split
  · exact hg
  · exact hg.mapBlocks (fun _ _ => ⟨rfl, rfl, rfl, rfl⟩) fun _ _ => rfl

theorem Sequenced.of_pieces {h : FlowGraph} (hp : h.pieces = g.pieces) (hg : g.Sequenced) :
    h.Sequenced := by
  obtain ⟨base, size, pieces, loops⟩ := h
  subst hp
  exact ⟨hg.nonempty, hg.lt, hg.increasing⟩

theorem Sequenced.setLoops (hg : g.Sequenced) : g.setLoops.Sequenced := by
  refine Sequenced.of_pieces (setLoops_pieces g).1 ?_
  rcases setDominators_eq g with heq | ⟨f, hf, heq⟩
  · rwa [heq]
  · rw [heq]
    exact hg.mapBlocks hf

/-- Control can leave the graph behind an instruction: by falling through to where no block starts,
by a direct branch to where no block starts, or by a branch whose target is not known. -/
inductive Escapes (g : FlowGraph) (tables : List JumpTable) (i : Instruction) : Prop
  | fallsOff (hfalls : i.fallsThrough = true) (hstop : ¬ g.StartsAt i.stop)
  | jumpsOff {a : Nat} (hbranch : i.isBranch = true) (hdirect : i.isTableJump = false)
      (ha : i.controlTarget? = some a) (hstart : ¬ g.StartsAt a)
  | unresolved (hbranch : i.isBranch = true) (hindirect : i.controlTarget? = none)
      (htable : ∀ t ∈ tables, t.branch ≠ i.address)

/-- The instruction is a branch, and its target is not known to lie in the function. -/
def LeavesRange (g : FlowGraph) (i : Instruction) : Prop :=
  i.isBranch = true ∧ ∀ a, i.controlTarget? = some a → g.range.contains a = false

/-- Control goes on from the instruction to no block. -/
def LeadsNowhere (g : FlowGraph) (i : Instruction) : Prop :=
  (i.fallsThrough = true → ¬ g.StartsAt i.stop) ∧
    ∀ a, i.controlTarget? = some a → g.range.contains a = true → ¬ g.StartsAt a

end FlowGraph

namespace Function

variable {s : Surroundings} {raw f : Function} {tables : List JumpTable} {g : FlowGraph}

/-- The graph of a digested function is the one that its source asks for. -/
structure Resolved (tables : List JumpTable) (g : FlowGraph) : Prop where
  sequenced : g.Sequenced
  joined : ∃ bytes, g.Joined ⟨g.range, bytes, tables⟩
  tables_of : ∀ t ∈ tables, ∃ i ∈ g.instructions, i.address = t.branch ∧ i.isTableJump = true

theorem resolved_of_digest (h : (digest s).run raw = .ok tables f) (hg : f.graph = some g) :
    Resolved tables g := by
  obtain ⟨strategy, g', tables', bad, hby, hrun⟩ := digest_run raw s
  rw [hrun] at h
  cases h
  obtain rfl : g'.setLoops = g := Option.some.inj hg
  obtain ⟨is, hfound, hbuild⟩ := graphBy_eq_ok hby
  obtain ⟨hreads, -⟩ := graphBy_ok hby
  have htables : (strategy.disassemble (raw.descentInput s)).2 = tables :=
    congrArg Prod.snd hby
  have hrange : g'.setLoops.range = ⟨raw.base, raw.bytes.length⟩ := by
    rw [FlowGraph.range, hreads.setLoops.base_eq, hreads.setLoops.size_eq]
  refine ⟨(FlowGraph.sequenced_of_build hbuild).setLoops, ⟨raw.bytes, ?_⟩, fun t ht => ?_⟩
  · rw [hrange]
    exact (FlowGraph.joined_of_build hbuild).setLoops
  · rw [← htables] at ht
    obtain ⟨i, hi, hjump⟩ := tables_of_disassemble hfound t ht
    rw [FlowGraph.instructions_setLoops]
    exact ⟨i, (FlowGraph.instructions_build hbuild).mem_iff.mpr hi, hjump⟩

/-- An instruction behind which control escapes has no table. -/
theorem Resolved.table?_eq_none (hr : Resolved tables g) {i : Instruction}
    (hi : i ∈ g.instructions) (hescapes : g.Escapes tables i) (range : AddressRange)
    (bytes : List UInt8) : (FlowGraph.Source.mk range bytes tables).table? i = none := by
  refine List.find?_eq_none.mpr fun t ht hbranch => ?_
  replace ht : t ∈ tables := List.mem_reverse.mp ht
  replace hbranch : t.branch = i.address := of_decide_eq_true hbranch
  have hjump : i.isTableJump = true := by
    obtain ⟨j, hj, haddress, hjump⟩ := hr.tables_of t ht
    have hne : g.instructions.Pairwise fun i j => i.address ≠ j.address :=
      hr.sequenced.increasing.imp fun h => Nat.ne_of_lt h
    have : Std.Symm fun i j : Instruction => i.address ≠ j.address := ⟨fun _ _ h => h.symm⟩
    have hsame : j = i := by
      by_contra hji
      exact hne.forall hj hi hji (haddress.trans hbranch)
    exact hsame ▸ hjump
  cases hescapes with
  | fallsOff hfalls _ =>
      simp only [Instruction.isTableJump, Bool.and_eq_true, decide_eq_true_eq] at hjump
      simp [Instruction.fallsThrough, hjump.1] at hfalls
  | jumpsOff _ hdirect _ _ =>
      rw [hjump] at hdirect
      cases hdirect
  | unresolved _ _ htable => exact htable t ht hbranch

theorem leaves_iff_leavesRange {bytes : List UInt8} {i : Instruction} {isStart : Nat → Bool}
    (htable : (FlowGraph.Source.mk g.range bytes tables).table? i = none)
    (hret : i.isReturn = false) :
    (FlowGraph.Source.mk g.range bytes tables).leaves isStart i = true ↔ g.LeavesRange i := by
  rw [FlowGraph.Source.leaves, htable, hret, Bool.false_or, FlowGraph.LeavesRange]
  cases i.controlTarget? with
  | none => simp
  | some a => simp

theorem forall_targets_iff_leadsNowhere {bytes : List UInt8} {i : Instruction}
    (htable : (FlowGraph.Source.mk g.range bytes tables).table? i = none) :
    (∀ a ∈ (FlowGraph.Source.mk g.range bytes tables).targets i, ¬ g.StartsAt a) ↔
      g.LeadsNowhere i := by
  rw [FlowGraph.Source.targets, htable, FlowGraph.LeadsNowhere, List.forall_mem_append]
  refine and_congr ?_ ?_
  · cases i.fallsThrough <;> simp
  · cases i.controlTarget? with
    | none => simp
    | some a => simp [List.filter_cons]

theorem succs_eq_nil_iff {source : FlowGraph.Source} (hj : g.Joined source) {b : Block}
    (hb : b ∈ g.blocks) {last : Instruction} (hlast : b.instructions.getLast? = some last) :
    b.succs = [] ↔ ∀ a ∈ source.targets last, ¬ g.StartsAt a := by
  rw [List.eq_nil_iff_forall_not_mem]
  constructor
  · rintro h a ha ⟨c, hc, rfl⟩
    obtain ⟨m, hm⟩ := List.getElem?_of_mem hc
    exact h m ((hj.mem_succs_iff hb hlast m).mpr ⟨c, hm, ha⟩)
  · intro h m hm
    obtain ⟨c, hc, ha⟩ := (hj.mem_succs_iff hb hlast m).mp hm
    exact h _ ha ⟨c, List.mem_of_getElem? hc, rfl⟩

/-- Behind an escape the graph counts as left exactly if a branch leads out of the function, or if
control goes on to no block. -/
theorem Resolved.leavesOpen_iff (hr : Resolved tables g) {n k : Nat} {b : Block}
    (hb : g.block? n = some b) (hk : k + 1 = b.instructions.length) {i : Instruction}
    (hi : b.instructions.getLast? = some i) (hret : i.isReturn = false)
    (hescapes : g.Escapes tables i) :
    g.LeavesOpen ⟨n, k⟩ ↔ g.LeavesRange i ∨ g.LeadsNowhere i := by
  have hmem := List.mem_of_getElem? hb
  have hinstruction : i ∈ g.instructions :=
    List.mem_flatMap.mpr ⟨b, hmem, List.mem_of_getLast? hi⟩
  obtain ⟨bytes, hj⟩ := hr.joined
  have htable := hr.table?_eq_none hinstruction hescapes g.range bytes
  rw [Liveness.leavesOpen_iff hb hi, hj.isExit_eq hmem hi, leaves_iff_leavesRange htable hret,
    succs_eq_nil_iff hj hmem hi, forall_targets_iff_leadsNowhere htable]
  exact ⟨fun h => h.2.2, fun h => ⟨hk, hret, h⟩⟩

/-- What is live behind an escape: everything, if a branch leads out of the function or control
goes on to no block; and otherwise what is live at the starts of the blocks that follow. -/
theorem liveAfter_escape (h : (digest s).run raw = .ok tables f) (hg : f.graph = some g)
    {b : Block} (hb : b ∈ g.blocks) {i : Instruction} (hi : b.instructions.getLast? = some i)
    (hret : i.isReturn = false) (hescapes : g.Escapes tables i) :
    ∃ outs, f.liveness.liveAt? i.address .after = some outs ∧
      (g.LeavesRange i ∨ g.LeadsNowhere i → outs = RegSet.full) ∧
      (¬ (g.LeavesRange i ∨ g.LeadsNowhere i) →
        b.succs ≠ [] ∧ ∀ c, c ∈ outs ↔ ∃ m ∈ b.succs, g.LiveBefore c ⟨m, 0⟩) := by
  have hr := resolved_of_digest h hg
  obtain ⟨n, hn⟩ := List.getElem?_of_mem hb
  have hpos := List.length_pos_iff.mpr (hr.sequenced.nonempty b hb)
  obtain ⟨k, hk⟩ : ∃ k, k + 1 = b.instructions.length := ⟨_, Nat.sub_add_cancel hpos⟩
  have hplace : g.instruction? ⟨n, k⟩ = some i := by
    refine FlowGraph.instruction?_eq_some.mpr ⟨b, hn, ?_⟩
    rw [List.getLast?_eq_getElem?] at hi
    rwa [← hk] at hi
  have hopen := hr.leavesOpen_iff hn hk hi hret hescapes
  obtain ⟨before, after, hexact⟩ := Liveness.exists_isExact_analyze hr.sequenced
  have hanalyze : f.liveness = Liveness.analyze g := by rw [liveness, hg]
  refine ⟨after ⟨n, k⟩, by rw [hanalyze]; exact (hexact.liveAt?_eq hplace).2, fun hleft => ?_,
    fun hstays => ⟨?_, fun c => ?_⟩⟩
  · refine RegSet.eq_of_mem_iff fun c => iff_of_true ?_ (RegSet.mem_full c)
    exact (hexact.solves.mem_after_iff hplace c).mpr (.inl (hopen.mpr hleft))
  · intro hnone
    refine hstays (hopen.mp ((Liveness.leavesOpen_iff hn hi).mpr ⟨hk, hret, .inr hnone⟩))
  · rw [hexact.solves.mem_after_iff hplace, or_iff_right (mt hopen.mp hstays)]
    simp only [FlowGraph.follows_iff_across hn hk]
    constructor
    · rintro ⟨q, ⟨m, hm, rfl⟩, hc⟩
      obtain ⟨j, hj⟩ := hr.sequenced.exists_instruction (.across hn hk hm)
      exact ⟨m, hm, (hexact.mem_before_iff hj c).mp hc⟩
    · rintro ⟨m, hm, hc⟩
      obtain ⟨j, hj⟩ := hr.sequenced.exists_instruction (.across hn hk hm)
      exact ⟨_, ⟨m, hm, rfl⟩, (hexact.mem_before_iff hj c).mpr hc⟩

/-! A conditional jump to itself that is a whole function. Behind it control falls off the end of
the code, but the jump leads to a block too, and the flag that it reads is all that counts as
live. -/

namespace SelfJump

def function : Function := { name := "self_jump", base := 0x1000, bytes := [0x74, 0xfe] }

def surroundings : Surroundings := { width := .bits64 }

def jump : Instruction :=
  { address := 0x1000, bytes := [0x74, 0xfe], opcodeClass := .condBranch, mnemonic := "je"
    operands := [⟨.relative, -2, 1, 1⟩], uses := .singleton (.flag .zero) }

set_option maxRecDepth 4096 in
theorem decode_jump : decode .bits64 [0x74, 0xfe] 0x1000 = .ok jump := by cbv

/-- What digesting gives: one block, with the jump in it and nothing behind it. -/
structure Digests (tables : List JumpTable) (f : Function) (g : FlowGraph) (b : Block) : Prop where
  run_eq : (digest surroundings).run function = .ok tables f
  graph_eq : f.graph = some g
  range_eq : g.range = ⟨0x1000, 2⟩
  blocks_eq : g.blocks = [b]
  instructions_eq : b.instructions = [jump]
  address_eq : b.address = 0x1000

theorem exists_digests : ∃ tables f g b, Digests tables f g b := by
  obtain ⟨tables, f, hrun⟩ := exists_digest function surroundings
  obtain ⟨-, -, -, g, hgraph, hreads, -⟩ := digest_spec hrun
  obtain ⟨g', b, hgraph', hblocks, hinstructions⟩ :=
    digest_of_covered (by exact decode_jump) (by rfl) hrun
  cases hgraph.symm.trans hgraph'
  have hcontiguous := (hreads.wellFormed.blocks b (by simp [hblocks])).contiguous
  rw [hinstructions] at hcontiguous
  refine ⟨tables, f, g, b, hrun, hgraph, ?_, hblocks, hinstructions, hcontiguous.1.symm⟩
  rw [FlowGraph.range, hreads.base_eq, hreads.size_eq]
  rfl

variable {b : Block}

theorem Digests.mem_blocks (hd : Digests tables f g b) : b ∈ g.blocks := by simp [hd.blocks_eq]

theorem Digests.getLast?_eq (hd : Digests tables f g b) : b.instructions.getLast? = some jump := by
  rw [hd.instructions_eq]
  rfl

theorem Digests.startsAt_iff (hd : Digests tables f g b) {a : Nat} :
    g.StartsAt a ↔ a = 0x1000 := by
  simp [FlowGraph.StartsAt, hd.blocks_eq, hd.address_eq, eq_comm]

theorem Digests.escapes (hd : Digests tables f g b) : g.Escapes tables jump :=
  .fallsOff rfl fun h => absurd (hd.startsAt_iff.mp h) (by decide)

theorem Digests.stays (hd : Digests tables f g b) :
    ¬ (g.LeavesRange jump ∨ g.LeadsNowhere jump) := by
  rintro (hleaves | hnowhere)
  · have hout := hleaves.2 0x1000 (by decide)
    rw [hd.range_eq] at hout
    exact absurd hout (by decide)
  · exact hnowhere.2 0x1000 (by decide) (by rw [hd.range_eq]; decide) (hd.startsAt_iff.mpr rfl)

theorem Digests.instruction?_eq (hd : Digests tables f g b) {p : Place} {i : Instruction}
    (hi : g.instruction? p = some i) : i = jump := by
  have hmem := FlowGraph.mem_instructions_of_instruction? hi
  simpa [FlowGraph.instructions, hd.blocks_eq, hd.instructions_eq] using hmem

theorem Digests.not_leavesOpen (hd : Digests tables f g b) (p : Place) : ¬ g.LeavesOpen p := by
  rintro ⟨c, last, hc, hp, hopen⟩
  obtain rfl : c = b := by simpa [hd.blocks_eq] using List.mem_of_getElem? hc
  have hr := resolved_of_digest hd.run_eq hd.graph_eq
  exact hd.stays ((hr.leavesOpen_iff hc hp hd.getLast?_eq rfl hd.escapes).mp
    ⟨c, last, hc, hp, hopen⟩)

/-- Only the flag that the jump reads is live. -/
theorem Digests.eq_of_liveBefore (hd : Digests tables f g b) {c : Cell} {p : Place}
    (hc : g.LiveBefore c p) : c = .flag .zero := by
  refine hc.induction (motive := fun _ => c = .flag .zero) (fun q hq => ?_) fun _ _ _ _ h => h
  rcases hq with ⟨i, hi, hread⟩ | ⟨hopen, -⟩
  · rw [hd.instruction?_eq hi] at hread
    exact (RegSet.mem_singleton _ _).mp hread
  · exact absurd hopen (hd.not_leavesOpen q)

end SelfJump

theorem liveAfter_escape_selfJump : ∃ tables f g b, SelfJump.Digests tables f g b ∧
    ∃ outs, f.liveness.liveAt? 0x1000 .after = some outs ∧
      ∀ c, c ∈ outs ↔ ∃ m ∈ b.succs, g.LiveBefore c ⟨m, 0⟩ := by
  obtain ⟨tables, f, g, b, hd⟩ := SelfJump.exists_digests
  obtain ⟨outs, houts, -, hstays⟩ := liveAfter_escape hd.run_eq hd.graph_eq hd.mem_blocks
    hd.getLast?_eq rfl hd.escapes
  exact ⟨tables, f, g, b, hd, outs, houts, (hstays hd.stays).2⟩

/-- Where control falls off the end of the code, not everything need count as live. -/
theorem exists_escape_not_full : ∃ tables f g b, SelfJump.Digests tables f g b ∧
    SelfJump.jump.isReturn = false ∧ SelfJump.jump.fallsThrough = true ∧
    ¬ g.StartsAt SelfJump.jump.stop ∧ f.liveness.liveAt? 0x1000 .after ≠ some RegSet.full := by
  obtain ⟨tables, f, g, b, hd⟩ := SelfJump.exists_digests
  refine ⟨tables, f, g, b, hd, rfl, rfl, fun h => absurd (hd.startsAt_iff.mp h) (by decide), ?_⟩
  intro hfull
  have hr := resolved_of_digest hd.run_eq hd.graph_eq
  obtain ⟨before, after, hexact⟩ := Liveness.exists_isExact_analyze hr.sequenced
  have hplace : g.instruction? ⟨0, 0⟩ = some SelfJump.jump :=
    FlowGraph.instruction?_eq_some.mpr ⟨b, by simp [FlowGraph.block?, hd.blocks_eq],
      by simp [hd.instructions_eq]⟩
  have hafter : after ⟨0, 0⟩ = RegSet.full := by
    have heq := (hexact.liveAt?_eq hplace).2
    rw [← show f.liveness = Liveness.analyze g by rw [liveness, hd.graph_eq]] at heq
    exact Option.some.inj (heq.symm.trans hfull)
  have hmem : Cell.gpr .ax ∈ after ⟨0, 0⟩ := hafter ▸ RegSet.mem_full _
  rcases (hexact.solves.mem_after_iff hplace _).mp hmem with hopen | ⟨q, hq, hc⟩
  · exact hd.not_leavesOpen _ hopen
  · obtain ⟨j, hj⟩ := hr.sequenced.exists_instruction hq
    cases hd.eq_of_liveBefore ((hexact.mem_before_iff hj _).mp hc)

end Function

end BinTrace
