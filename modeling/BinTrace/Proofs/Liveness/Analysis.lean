import BinTrace.Proofs.Liveness.Passes
import BinTrace.Proofs.Liveness.Paths

/-!
The analysis finds exactly what is live. Its nodes stand for the instructions of the graph, in the
same order, and its equations are those of the paths: so the sets in which it ends hold a register
or flag if and only if some path shows it to be live.
-/

namespace BinTrace

namespace Liveness

/-! ### The nodes of the analysis and the places of the graph -/

/-- How many instructions there are in front of a place. -/
def positionOf (g : FlowGraph) (p : Place) : Nat :=
  ((g.blocks.take p.block).map fun b => b.instructions.length).sum + p.index

/-- The node tells of the instruction at the place what the equations need. -/
structure Describes (g : FlowGraph) (p : Place) (i : Instruction) (node : LivenessNode) : Prop where
  address_eq : node.address = i.address
  uses_eq : node.uses = i.uses
  defs_eq : node.defs = i.defs
  mem_boundary (c : Cell) : c ∈ node.boundary ↔ g.LeavesOpen p
  mem_next (m : Nat) : m ∈ node.next ↔ ∃ q, g.Follows p q ∧ positionOf g q = m

theorem getElem?_firstPositions {n k : Nat} {bs : List Block} (hk : k < bs.length) :
    (firstPositions n bs)[k]? =
      some (n + ((bs.take k).map fun b => b.instructions.length).sum) := by
  induction bs generalizing n k with
  | nil => cases hk
  | cons b rest ih =>
      cases k with
      | zero => rfl
      | succ k =>
          rw [firstPositions, List.getElem?_cons_succ, ih (by simpa using hk)]
          simp [Nat.add_assoc]

theorem length_blockNodes (starts : Array Nat) (b : Block) (n : Nat) (is : List Instruction) :
    (blockNodes starts b n is).length = is.length := by
  fun_induction blockNodes starts b n is with
  | case1 => rfl
  | case2 => rfl
  | case3 n i rest _ ih => rw [List.length_cons, ih, List.length_cons]

theorem getElem?_blockNodes_of_lt {starts : Array Nat} {b : Block} {n k : Nat}
    {is : List Instruction} (hk : k + 1 < is.length) :
    (blockNodes starts b n is)[k]? =
      is[k]?.map fun i => ⟨i.address, i.uses, i.defs, [n + k + 1], ∅⟩ := by
  fun_induction blockNodes starts b n is generalizing k with
  | case1 => simp at hk
  | case2 => simp at hk
  | case3 n i rest _ ih =>
      cases k with
      | zero => rfl
      | succ k =>
          rw [List.getElem?_cons_succ, List.getElem?_cons_succ, ih (by simpa using hk)]
          simp only [Nat.add_assoc, Nat.add_comm 1]

theorem getElem?_blockNodes_last {starts : Array Nat} {b : Block} {n k : Nat}
    {is : List Instruction} (hk : k + 1 = is.length) :
    (blockNodes starts b n is)[k]? =
      is[k]?.map fun i => ⟨i.address, i.uses, i.defs, b.succs.map fun s => starts.getD s 0,
        if leavesOpen b then RegSet.full else ∅⟩ := by
  fun_induction blockNodes starts b n is generalizing k with
  | case1 => simp at hk
  | case2 =>
      obtain rfl : k = 0 := by simpa using hk
      rfl
  | case3 n i rest hrest ih =>
      cases k with
      | zero => exact absurd (List.length_eq_zero_iff.mp (by simpa using hk.symm)) hrest
      | succ k =>
          rw [List.getElem?_cons_succ, List.getElem?_cons_succ]
          exact ih (by simpa using hk)

/-- The nodes of a block stand behind those of the blocks in front of it. -/
theorem getElem?_flatMap_blockNodes {starts : Array Nat} {bs : List Block} {b : Block} {n k j : Nat}
    (hb : bs[k]? = some b) (hj : j < b.instructions.length) :
    ((bs.zip (firstPositions n bs)).flatMap fun x => blockNodes starts x.1 x.2 x.1.instructions)[
        ((bs.take k).map fun b => b.instructions.length).sum + j]? =
      (blockNodes starts b (n + ((bs.take k).map fun b => b.instructions.length).sum)
        b.instructions)[j]? := by
  induction bs generalizing n k with
  | nil => simp at hb
  | cons c rest ih =>
      have hlen := length_blockNodes starts c n c.instructions
      rw [firstPositions, List.zip_cons_cons, List.flatMap_cons]
      dsimp only
      cases k with
      | zero =>
          obtain rfl : c = b := by simpa using hb
          rw [List.take_zero, List.map_nil, List.sum_nil, Nat.zero_add, Nat.add_zero,
            List.getElem?_append_left (by omega)]
      | succ k =>
          rw [List.take_succ_cons, List.map_cons, List.sum_cons,
            List.getElem?_append_right (by omega), hlen]
          have hindex : c.instructions.length +
              ((rest.take k).map fun b => b.instructions.length).sum + j - c.instructions.length =
                ((rest.take k).map fun b => b.instructions.length).sum + j := by omega
          rw [hindex, ih (by simpa using hb), Nat.add_assoc]

theorem mem_boundary_iff {b : Block} {last : Instruction}
    (hlast : b.instructions.getLast? = some last) (c : Cell) :
    (c ∈ if leavesOpen b then RegSet.full else ∅) ↔
      last.isReturn = false ∧ (b.flags.isExit = true ∨ b.succs = []) := by
  have hopen : leavesOpen b = true ↔
      last.isReturn = false ∧ (b.flags.isExit = true ∨ b.succs = []) := by
    simp [leavesOpen, hlast]
  rw [← hopen]
  split
  · rename_i h
    simp [h, RegSet.mem_full]
  · rename_i h
    simp [h, RegSet.not_mem_empty]

theorem getD_firstPositions {g : FlowGraph} {m : Nat} (hm : m < g.blocks.length) :
    (firstPositions 0 g.blocks).toArray.getD m 0 = positionOf g ⟨m, 0⟩ := by
  rw [Array.getD_eq_getD_getElem?, List.getElem?_toArray, getElem?_firstPositions hm, positionOf,
    Option.getD_some, Nat.zero_add, Nat.add_zero]

section

variable {g : FlowGraph} {b : Block} {n k : Nat}

theorem leavesOpen_iff (hb : g.block? n = some b) {last : Instruction}
    (hlast : b.instructions.getLast? = some last) : g.LeavesOpen ⟨n, k⟩ ↔
      k + 1 = b.instructions.length ∧ last.isReturn = false ∧
        (b.flags.isExit = true ∨ b.succs = []) := by
  constructor
  · rintro ⟨b', last', hb', hk, hlast', hopen⟩
    obtain rfl := Option.some.inj (hb.symm.trans hb')
    obtain rfl := Option.some.inj (hlast.symm.trans hlast')
    exact ⟨hk, hopen⟩
  · rintro ⟨hk, hopen⟩
    exact ⟨b, last, hb, hk, hlast, hopen⟩

end

theorem exists_describes {g : FlowGraph} (hg : g.Sequenced) {p : Place} {i : Instruction}
    (hi : g.instruction? p = some i) :
    ∃ node, (nodes g)[positionOf g p]? = some node ∧ Describes g p i node := by
  obtain ⟨b, hb, hbi⟩ := FlowGraph.instruction?_eq_some.mp hi
  obtain ⟨n, k⟩ := p
  have hk : k < b.instructions.length := (List.getElem?_eq_some_iff.mp hbi).1
  have hnode : (nodes g)[positionOf g ⟨n, k⟩]? =
      (blockNodes (firstPositions 0 g.blocks).toArray b (positionOf g ⟨n, 0⟩)
        b.instructions)[k]? := by
    rw [nodes, positionOf, positionOf, getElem?_flatMap_blockNodes hb hk, Nat.zero_add,
      Nat.add_zero]
  have hne : b.instructions ≠ [] := List.ne_nil_of_length_pos (by omega)
  have hlast := List.getLast?_eq_some_getLast hne
  rw [hnode]
  by_cases hend : k + 1 = b.instructions.length
  · rw [getElem?_blockNodes_last hend, hbi]
    refine ⟨_, rfl, rfl, rfl, rfl, fun c => ?_, fun m => ?_⟩
    · rw [leavesOpen_iff hb hlast, mem_boundary_iff hlast]
      exact (and_iff_right hend).symm
    · have hstart : ∀ s ∈ b.succs,
          (firstPositions 0 g.blocks).toArray.getD s 0 = positionOf g ⟨s, 0⟩ :=
        fun s hs => getD_firstPositions (hg.lt ⟨b, hb, hs⟩)
      rw [List.map_congr_left hstart, List.mem_map]
      constructor
      · rintro ⟨s, hs, rfl⟩
        exact ⟨⟨s, 0⟩, (FlowGraph.follows_iff_across hb hend).mpr ⟨s, hs, rfl⟩, rfl⟩
      · rintro ⟨q, hq, rfl⟩
        obtain ⟨s, hs, rfl⟩ := (FlowGraph.follows_iff_across hb hend).mp hq
        exact ⟨s, hs, rfl⟩
  · rw [getElem?_blockNodes_of_lt (by omega), hbi]
    refine ⟨_, rfl, rfl, rfl, rfl, fun c => ?_, fun m => ?_⟩
    · rw [leavesOpen_iff hb hlast]
      exact ⟨fun hc => absurd hc (RegSet.not_mem_empty c), fun h => absurd h.1 hend⟩
    · have hnext : positionOf g ⟨n, k + 1⟩ = positionOf g ⟨n, 0⟩ + k + 1 := by
        simp only [positionOf]
        omega
      rw [List.mem_singleton, ← hnext]
      constructor
      · rintro rfl
        exact ⟨_, (FlowGraph.follows_iff_within hb (by omega)).mpr rfl, rfl⟩
      · rintro ⟨q, hq, rfl⟩
        rw [(FlowGraph.follows_iff_within hb (by omega)).mp hq]

/-- What is live by the paths respects the equations of the nodes. -/
theorem respects_live {g : FlowGraph} (hg : g.Sequenced) :
    Respects (nodes g)
      (fun n c => ∀ p i, g.instruction? p = some i → positionOf g p = n → g.LiveBefore c p)
      (fun n c => ∀ p i, g.instruction? p = some i → positionOf g p = n → g.LiveAfter c p) := by
  have hdescribes : ∀ {p : Place} {i : Instruction} {n : Nat} {node : LivenessNode},
      (nodes g)[n]? = some node → g.instruction? p = some i → positionOf g p = n →
        Describes g p i node := by
    intro p i n node hn hi hpos
    obtain ⟨node', hn', hdesc⟩ := exists_describes hg hi
    rw [hpos, hn] at hn'
    obtain rfl := Option.some.inj hn'
    exact hdesc
  refine ⟨?_, ?_, ?_, ?_⟩
  · intro n node c hn hc p i hi hpos
    exact .inl (((hdescribes hn hi hpos).mem_boundary c).mp hc)
  · intro n m node c hn hm hc p i hi hpos
    obtain ⟨q, hpq, hq⟩ := ((hdescribes hn hi hpos).mem_next m).mp hm
    obtain ⟨j, hj⟩ := hg.exists_instruction hpq
    exact .inr ⟨q, hpq, hc q j hj hq⟩
  · intro n node c hn hc p i hi hpos
    rw [(hdescribes hn hi hpos).uses_eq] at hc
    exact FlowGraph.liveBefore_of_last (.inl ⟨i, hi, hc⟩)
  · intro n node c hn hc hkept p i hi hpos
    rw [(hdescribes hn hi hpos).defs_eq, ← FlowGraph.writesAt_iff hi] at hkept
    exact (hc p i hi hpos).liveBefore hkept

/-! ### What the analysis finds -/

theorem map_address_blockNodes (starts : Array Nat) (b : Block) (n : Nat)
    (is : List Instruction) : (blockNodes starts b n is).map LivenessNode.address =
      is.map Instruction.address := by
  fun_induction blockNodes starts b n is with
  | case1 => rfl
  | case2 => rfl
  | case3 n i rest _ ih => rw [List.map_cons, ih, List.map_cons]

theorem map_address_nodes (g : FlowGraph) :
    (nodes g).map LivenessNode.address = g.instructions.map Instruction.address := by
  have hall (starts : Array Nat) (n : Nat) (bs : List Block) :
      ((bs.zip (firstPositions n bs)).flatMap fun x =>
        blockNodes starts x.1 x.2 x.1.instructions).map LivenessNode.address =
          (bs.flatMap Block.instructions).map Instruction.address := by
    induction bs generalizing n with
    | nil => rfl
    | cons b rest ih =>
        rw [firstPositions, List.zip_cons_cons, List.flatMap_cons, List.map_append, ih,
          List.flatMap_cons, List.map_append, map_address_blockNodes]
  exact hall _ 0 g.blocks

/-- The entry for an address is found if no other has the same address. -/
theorem at?_of_pairwise {l : Liveness} (h : l.entries.Pairwise fun e f => e.address < f.address)
    {n : Nat} {e : LivenessEntry} (hn : l.entries[n]? = some e) : l.at? e.address = some e := by
  unfold at?
  generalize l.entries = es at *
  induction es generalizing n with
  | nil => cases hn
  | cons d rest ih =>
      obtain ⟨hd, hrest⟩ := List.pairwise_cons.mp h
      cases n with
      | zero =>
          obtain rfl : d = e := by simpa using hn
          simp
      | succ n =>
          rw [List.getElem?_cons_succ] at hn
          have hlt := hd e (List.mem_of_getElem? hn)
          rw [List.find?_cons_of_neg (by simp; omega)]
          exact ih hrest hn

theorem addresses_ofSets (g : FlowGraph) (final : Sets) (passes : Nat) :
    (ofSets (nodes g) final passes).entries.map LivenessEntry.address =
      g.instructions.map Instruction.address := by
  rw [← map_address_nodes, ofSets, List.map_map]
  change (nodes g).zipIdx.map (LivenessNode.address ∘ Prod.fst) = _
  rw [← List.map_map, List.zipIdx_map_fst]

section

variable {g : FlowGraph} {final : Sets} {p : Place} {i : Instruction}

theorem at?_ofSets (hg : g.Sequenced) (passes : Nat) (hi : g.instruction? p = some i) :
    (ofSets (nodes g) final passes).at? i.address = some ⟨i.address,
      final.ins.getD (positionOf g p) ∅, final.outs.getD (positionOf g p) ∅⟩ := by
  obtain ⟨node, hnode, hdesc⟩ := exists_describes hg hi
  have hincreasing : (ofSets (nodes g) final passes).entries.Pairwise
      fun e f => e.address < f.address := by
    rw [← List.pairwise_map (f := LivenessEntry.address), addresses_ofSets, List.pairwise_map]
    exact hg.increasing
  have hentry : (ofSets (nodes g) final passes).entries[positionOf g p]? = some ⟨i.address,
      final.ins.getD (positionOf g p) ∅, final.outs.getD (positionOf g p) ∅⟩ := by
    rw [ofSets, List.getElem?_map, List.getElem?_zipIdx, hnode, ← hdesc.address_eq]
    simp
  exact at?_of_pairwise hincreasing hentry

/-- Where every position is settled the equations hold at every place. -/
theorem solves_of_settled (hg : g.Sequenced)
    (h : ∀ n node, (nodes g)[n]? = some node → Settled final node n) :
    g.Solves (fun p => final.ins.getD (positionOf g p) ∅)
      (fun p => final.outs.getD (positionOf g p) ∅) := by
  refine ⟨fun {p i} hi c => ?_, fun {p i} hi => ?_⟩
  · obtain ⟨node, hnode, hdesc⟩ := exists_describes hg hi
    rw [← (h _ node hnode).1, mem_outOf, hdesc.mem_boundary]
    refine or_congr_right ⟨?_, ?_⟩
    · rintro ⟨m, hm, hc⟩
      obtain ⟨q, hpq, rfl⟩ := (hdesc.mem_next m).mp hm
      exact ⟨q, hpq, hc⟩
    · rintro ⟨q, hpq, hc⟩
      exact ⟨_, (hdesc.mem_next _).mpr ⟨q, hpq, rfl⟩, hc⟩
  · obtain ⟨node, hnode, hdesc⟩ := exists_describes hg hi
    obtain ⟨hout, hin⟩ := h _ node hnode
    rw [← hin, ← hout, inOf, hdesc.uses_eq, hdesc.defs_eq]

end

/-- The analysis of a graph has come to its end; it tells the given sets in front of and behind
every instruction; they are those of the paths, and the least that satisfy the equations. -/
structure IsExact (l : Liveness) (g : FlowGraph) (before after : Place → RegSet) : Prop where
  terminates : ∃ final, Stabilizes (nodes g) (initial (nodes g)) l.passes final ∧
    l = ofSets (nodes g) final l.passes
  addresses : l.entries.map LivenessEntry.address = g.instructions.map Instruction.address
  liveAt?_eq {p : Place} {i : Instruction} : g.instruction? p = some i →
    l.liveAt? i.address .before = some (before p) ∧ l.liveAt? i.address .after = some (after p)
  mem_before_iff {p : Place} {i : Instruction} : g.instruction? p = some i →
    ∀ c, c ∈ before p ↔ g.LiveBefore c p
  solves : g.Solves before after
  least {before' after' : Place → RegSet} : g.Solves before' after' →
    ∀ p i, g.instruction? p = some i →
      (∀ c ∈ before p, c ∈ before' p) ∧ ∀ c ∈ after p, c ∈ after' p

theorem exists_isExact_analyze {g : FlowGraph} (hg : g.Sequenced) :
    ∃ before after, (analyze g).IsExact g before after := by
  obtain ⟨passes, final, heq, hfinal⟩ := exists_stabilizes_analyze g
  have hsolves := solves_of_settled hg (hfinal.settled (rising_initial (nodes g)))
  have hlive := hfinal.within (respects_live hg) (within_initial (respects_live hg))
  have hiff : ∀ {p : Place} {i : Instruction}, g.instruction? p = some i →
      ∀ c, c ∈ final.ins.getD (positionOf g p) ∅ ↔ g.LiveBefore c p :=
    fun hi c => ⟨fun hc => hlive.ins hc _ _ hi rfl, hsolves.mem_before⟩
  refine ⟨_, _, ⟨final, ?_⟩, ?_, fun {p i} hi => ?_, hiff, hsolves, fun hs p i hi => ⟨?_, ?_⟩⟩
  · rw [heq]
    exact ⟨hfinal, rfl⟩
  · rw [heq]
    exact addresses_ofSets g final passes
  · rw [heq, liveAt?, liveAt?, at?_ofSets hg passes hi]
    exact ⟨rfl, rfl⟩
  · intro c hc
    exact hs.mem_before ((hiff hi c).mp hc)
  · intro c hc
    exact hs.mem_after hi (hlive.outs hc p i hi rfl)

/-- In every graph that is built, liveness is exactly what the paths of the graph say. -/
theorem analyze_of_build {s : FlowGraph.Source} {is : List Instruction} {g : FlowGraph}
    (h : FlowGraph.build s is = .ok g) : ∃ before after, (analyze g).IsExact g before after :=
  exists_isExact_analyze (FlowGraph.sequenced_of_build h)

/-! A loop that counts down. The counter is live behind the jump because of the path back. -/

namespace Countdown

def source : FlowGraph.Source :=
  ⟨⟨0x1000, 10⟩, [0xb9, 5, 0, 0, 0, 0xff, 0xc9, 0x75, 0xfc, 0xc3], []⟩

def instructions : List Instruction := [
  { address := 0x1000, bytes := [0xb9, 5, 0, 0, 0], opcodeClass := .int, mnemonic := "mov"
    defs := .singleton (.gpr .cx) },
  { address := 0x1005, bytes := [0xff, 0xc9], opcodeClass := .int, mnemonic := "dec"
    uses := .singleton (.gpr .cx), defs := (RegSet.singleton (.gpr .cx)).insert (.flag .zero) },
  { address := 0x1007, bytes := [0x75, 0xfc], opcodeClass := .condBranch, mnemonic := "jnz"
    operands := [Operand.relative (-4) 1 1], uses := .singleton (.flag .zero) },
  { address := 0x1009, bytes := [0xc3], opcodeClass := .return, mnemonic := "ret"
    uses := .singleton (.gpr .ax) }]

def graph : FlowGraph :=
  match FlowGraph.build source instructions with
  | .ok g => g
  | .error _ => { base := 0, size := 0, pieces := [] }

theorem build_source : FlowGraph.build source instructions = .ok graph := by cbv

example : (analyze graph).liveAt? 0x1007 .after =
    some ((RegSet.singleton (.gpr .ax)).insert (.gpr .cx)) := by cbv

end Countdown

theorem isExact_countdown : FlowGraph.build Countdown.source Countdown.instructions =
    .ok Countdown.graph ∧ ∃ before after, (analyze Countdown.graph).IsExact Countdown.graph
      before after :=
  ⟨Countdown.build_source, analyze_of_build Countdown.build_source⟩

end Liveness

end BinTrace
