import BinTrace.Proofs.Dominators.NaturalLoop
import BinTrace.Proofs.Flow.BackEdges
import BinTrace.Proofs.Flow.Transfers
import BinTrace.Proofs.Function.Digest

/-!
The loops of a flow graph that has been built: one for each edge from a block that can be reached
back to a block that dominates it, made of all blocks that reach the tail around the head. Two of
them with different heads lie one inside of the other, if they share a block that can be reached.
-/

namespace BinTrace.FlowGraph

variable {g : FlowGraph} {s : Source} {is : List Instruction} {entry h t v w : Nat}

/-- What reaches the tail around the head is found by going back from the tail. -/
theorem mem_blocks_loopOf {E : Nat → Nat → Prop} {preds : Edges} {b : Nat}
    (hpreds : ∀ v w, HasEdge preds w v ↔ E v w) (hlt : ∀ v w, E v w → v < preds.size)
    (hh : h < preds.size) (ht : t < preds.size) :
    b ∈ (loopOf preds t h).blocks ↔ InLoop E t h b := by
  rw [loopOf, Marks.mem_toList, inLoop_iff]
  have hhead (v : Nat) : ((Marks.none preds.size).insert h).contains v = true ↔ v = h := by
    simp [Marks.contains_insert hh]
  obtain ⟨hknown, hclosed⟩ := Reach.collect_closed preds (fun v => v = h)
    ((Marks.none preds.size).insert h) [t] fun v hv hne => absurd ((hhead v).mp hv) hne
  constructor
  · refine Reach.collect_subset (P := fun v => v = h ∨ Around E v h t) (fun v => v = h)
      (fun v => (hhead v).mpr) (fun v w hv hne hedge => ?_) (fun v hv => .inl ((hhead v).mp hv))
      (fun v hv => ?_) b
    · by_cases hw : w = h
      · exact .inl hw
      · exact .inr (.cons ((hpreds w v).mp hedge) (Ne.symm hw) (hv.resolve_left hne) (Ne.symm hne))
    · obtain rfl := List.mem_singleton.mp hv
      by_cases hv : v = h
      · exact .inl hv
      · exact .inr (.entry (Ne.symm hv))
  · rintro (rfl | haround)
    · exact hknown b hh fun _ => .inl ((hhead b).mpr rfl)
    · exact haround.start_mem_of_closed (hknown t ht fun _ => .inr List.mem_cons_self)
        fun v w hw hne hedge => hclosed w hw hne v (hlt v w hedge) ((hpreds v w).mpr hedge)

theorem map_setDominators {β : Type} {φ : Block → β}
    (hφ : ∀ f, KeepsCode f → ∀ n b, φ (f n b) = φ b) :
    g.setDominators.blocks.map φ = g.blocks.map φ := by
  rcases setDominators_eq g with heq | ⟨f, hf, heq⟩
  · rw [heq]
  · rw [heq, map_mapBlocks (hφ f hf)]

theorem edges_setDominators : g.setDominators.edges = g.edges :=
  congrArg List.toArray (map_setDominators fun _ hf n b => (hf n b).2.2.2)

theorem backwardEdges_setDominators : g.setDominators.backwardEdges = g.backwardEdges :=
  congrArg List.toArray (map_setDominators fun _ hf n b => (hf n b).2.2.1)

theorem leads_setDominators : g.setDominators.Leads = g.Leads := by
  funext v w
  rw [← hasEdge_edges, ← hasEdge_edges, edges_setDominators]

theorem entryBlock?_setDominators : g.setDominators.entryBlock? = g.entryBlock? := by
  rcases setDominators_eq g with heq | ⟨f, hf, heq⟩
  · rw [heq]
  · rw [heq, entryBlock?_mapBlocks hf]

/-- An edge between blocks that can be reached from the entry leads back to a block that dominates
its source. -/
structure LeadsBack (g : FlowGraph) (entry tail head : Nat) : Prop where
  reaches_tail : Reaches g.Leads entry tail
  reaches_head : Reaches g.Leads entry head
  leads : g.Leads tail head
  dominates : Dominates g.Leads entry head tail

/-- There is one loop for each edge that leads back. It consists of the head and of all blocks that
reach the tail around the head, and the head dominates those of them that can be reached. -/
structure HasLoops (g : FlowGraph) (loops : List Loop) (entry : Nat) : Prop where
  exists_iff (tail head : Nat) :
    (∃ l ∈ loops, l.tail = tail ∧ l.head = head) ↔ g.LeadsBack entry tail head
  nodup : (loops.map fun l => (l.tail, l.head)).Nodup
  mem_blocks_iff : ∀ l ∈ loops, ∀ b, b ∈ l.blocks ↔ InLoop g.Leads l.tail l.head b
  increasing : ∀ l ∈ loops, l.blocks.Pairwise (· < ·)
  dominates : ∀ l ∈ loops, ∀ b ∈ l.blocks, Reaches g.Leads entry b →
    Dominates g.Leads entry l.head b

theorem loops_setLoops (hentry : g.entryBlock? = some entry) : g.setLoops.loops =
    ((backEdges g.edges ((Marks.none g.edges.size).insert entry)
      [(entry, g.edges.getD entry [])]).filter fun e => g.setDominators.dominates e.2 e.1).map
        fun e => loopOf g.backwardEdges e.1 e.2 := by
  unfold setLoops
  dsimp only
  rw [entryBlock?_setDominators, hentry, backwardEdges_setDominators, edges_setDominators]
  rfl

theorem increasing_of_mem_setLoops (hl : l ∈ g.setLoops.loops) : l.blocks.Pairwise (· < ·) := by
  unfold setLoops at hl
  dsimp only at hl
  split at hl
  · cases hl
  · obtain ⟨e, -, rfl⟩ := List.mem_map.mp hl
    exact List.pairwise_lt_range.filter _

theorem hasEdge_edges_eq : HasEdge g.edges = g.Leads := by
  funext v w
  exact propext hasEdge_edges

theorem size_edges : g.edges.size = g.blocks.length := by simp [edges]

theorem size_backwardEdges : g.backwardEdges.size = g.blocks.length := by simp [backwardEdges]

theorem lt_size_edges (hentry : g.entryBlock? = some entry) : entry < g.edges.size := by
  rw [size_edges]
  exact entryBlock?_lt hentry

theorem Mirrored.hasEdge_lt (hg : g.Mirrored) (v w : Nat) (hedge : HasEdge g.edges v w) :
    w < g.edges.size := by
  rw [size_edges]
  exact hg.lt (hasEdge_edges.mp hedge)

theorem nodup_edges (hnodup : ∀ b ∈ g.blocks, b.succs.Nodup) (v : Nat) :
    (g.edges.getD v []).Nodup := by
  simp only [edges, Array.getD_eq_getD_getElem?, List.getElem?_toArray, List.getElem?_map]
  cases hb : g.blocks[v]? with
  | none => exact List.nodup_nil
  | some b => exact hnodup b (List.mem_of_getElem? hb)

theorem Mirrored.mem_setLoops (hg : g.Mirrored) (hentry : g.entryBlock? = some entry) {l : Loop} :
    l ∈ g.setLoops.loops ↔
      ∃ t h, g.LeadsBack entry t h ∧ loopOf g.backwardEdges t h = l := by
  have hlt := lt_size_edges hentry
  have hfound := (hg.hasDominators hentry).2.dominates_iff
  rw [leads_setDominators] at hfound
  simp only [loops_setLoops hentry, List.mem_map, List.mem_filter, Prod.exists]
  refine exists_congr fun t => exists_congr fun h => and_congr_left fun _ => ?_
  constructor
  · rintro ⟨hmem, hdom⟩
    obtain ⟨ht, hedge⟩ :=
      (due_start hlt).mp (due_of_mem_backEdges hg.hasEdge_lt (walks_start hlt) t h hmem)
    rw [hasEdge_edges_eq] at ht hedge
    exact ⟨ht, ht.step hedge, hedge, (hfound h t ht).mp hdom⟩
  · rintro ⟨ht, -, hedge, hdom⟩
    refine ⟨?_, (hfound h t ht).mpr hdom⟩
    rw [← hasEdge_edges_eq] at ht hedge hdom
    exact mem_backEdges_of_due hg.hasEdge_lt (walks_start hlt) hdom ((due_start hlt).mpr ⟨ht, hedge⟩)

theorem Mirrored.mem_blocks_iff (hg : g.Mirrored) (hback : g.LeadsBack entry t h) (b : Nat) :
    b ∈ (loopOf g.backwardEdges t h).blocks ↔ InLoop g.Leads t h b := by
  have hlt : ∀ v w, g.Leads v w → v < g.backwardEdges.size := fun v w ⟨c, hc, _⟩ =>
    size_backwardEdges (g := g) ▸ (List.getElem?_eq_some_iff.mp hc).1
  refine mem_blocks_loopOf (fun v w => ?_) hlt ?_ (hlt t h hback.leads)
  · rw [HasEdge, mem_backwardEdges, hg.preds_iff]
  · exact size_backwardEdges (g := g) ▸ hg.lt hback.leads

theorem Mirrored.hasLoops (hg : g.Mirrored) (hnodup : ∀ b ∈ g.blocks, b.succs.Nodup)
    (hentry : g.entryBlock? = some entry) : g.HasLoops g.setLoops.loops entry := by
  refine ⟨fun tail head => ?_, ?_, fun l hl b => ?_, fun l hl => ?_, fun l hl b hb _ => ?_⟩
  · simp only [hg.mem_setLoops hentry]
    constructor
    · rintro ⟨_, ⟨t, h, hback, rfl⟩, rfl, rfl⟩
      exact hback
    · exact fun hback => ⟨_, ⟨tail, head, hback, rfl⟩, rfl, rfl⟩
  · have hback := nodup_backEdges hg.hasEdge_lt (nodup_edges hnodup)
      (walks_start (lt_size_edges hentry))
    rw [loops_setLoops hentry, List.map_map]
    simpa [Function.comp_def, loopOf] using hback.filter _
  · obtain ⟨t, h, hback, rfl⟩ := (hg.mem_setLoops hentry).mp hl
    exact hg.mem_blocks_iff hback b
  · obtain ⟨t, h, -, rfl⟩ := (hg.mem_setLoops hentry).mp hl
    exact List.pairwise_lt_range.filter _
  · obtain ⟨t, h, hback, rfl⟩ := (hg.mem_setLoops hentry).mp hl
    exact dominates_of_inLoop hback.dominates ((hg.mem_blocks_iff hback b).mp hb)

theorem entryBlock?_eq_none (h : g.entryBlock? = none) : g.blocks = [] := by
  unfold entryBlock? at h
  split at h
  · assumption
  · cases h

/-- A graph without blocks has no loops, and any other one has exactly its natural loops. -/
theorem hasLoops_of_build (h : build s is = .ok g) :
    (g.blocks = [] ∧ g.setLoops.loops = []) ∨
      ∃ entry, g.entryBlock? = some entry ∧ g.HasLoops g.setLoops.loops entry := by
  cases hentry : g.entryBlock? with
  | none =>
      refine .inl ⟨entryBlock?_eq_none hentry, ?_⟩
      unfold setLoops
      dsimp only
      rw [entryBlock?_setDominators, hentry]
  | some entry =>
      exact .inr ⟨entry, rfl, (mirrored_of_build h).hasLoops
        (fun b hb => (nodup_of_build h b hb).1) hentry⟩

/-! An inner loop whose only block is its head, in an outer loop of three blocks. -/

namespace NestedLoops

def source : Source :=
  ⟨⟨0x1000, 7⟩, [0x90, 0x90, 0x74, 0xfe, 0x74, 0xfb, 0xc3], []⟩

def nop (address : Nat) : Instruction :=
  { address, bytes := [0x90], opcodeClass := .nop, mnemonic := "nop" }

def branchBack (address distance : Nat) : Instruction :=
  { address, bytes := [0x74, UInt8.ofNat (0x100 - distance)], opcodeClass := .condBranch
    mnemonic := "jz", operands := [Operand.relative (-distance) 1 1] }

def instructions : List Instruction := [
  nop 0x1000,
  nop 0x1001,
  branchBack 0x1002 2,
  branchBack 0x1004 5,
  { address := 0x1006, bytes := [0xc3], opcodeClass := .return, mnemonic := "ret" }]

def graph : FlowGraph :=
  match build source instructions with
  | .ok g => g
  | .error _ => { base := 0, size := 0, pieces := [] }

def inner : Loop := { head := 2, tail := 2, blocks := [2] }

def outer : Loop := { head := 1, tail := 3, blocks := [1, 2, 3] }

theorem build_eq : build source instructions = .ok graph := by cbv

theorem entryBlock?_eq : graph.entryBlock? = some 0 := by cbv

theorem loops_eq : graph.setLoops.loops = [inner, outer] := by cbv

theorem edges_eq : graph.edges = #[[1], [2], [2, 3], [1, 4], []] := by cbv

end NestedLoops

theorem hasLoops_nestedLoops : ∃ entry, NestedLoops.graph.entryBlock? = some entry ∧
    NestedLoops.graph.HasLoops NestedLoops.graph.setLoops.loops entry := by
  refine (hasLoops_of_build NestedLoops.build_eq).resolve_left fun hnone => ?_
  rw [NestedLoops.loops_eq] at hnone
  cases hnone.2

/-- Both lists being in increasing order, one encloses the other if it contains it as a set. -/
theorem encloses_iff {l m : Loop} (hl : l.blocks.Pairwise (· < ·))
    (hm : m.blocks.Pairwise (· < ·)) : l.encloses m = true ↔ m.blocks ⊆ l.blocks := by
  rw [Loop.encloses, List.isSublist_iff_sublist]
  refine ⟨List.Sublist.subset, fun hsub => ?_⟩
  have hanti : Std.Antisymm fun a b : Nat => a < b :=
    ⟨fun _ _ hab hba => absurd hab (Nat.lt_asymm hba)⟩
  exact List.sublist_of_subperm_of_pairwise (List.subperm_of_subset (hm.imp Nat.ne_of_lt) hsub) hm hl

/-- Of two loops with different heads that share a block which can be reached, one encloses the
other. -/
theorem nested_of_build (h : build s is = .ok g) {l m : Loop} (hl : l ∈ g.setLoops.loops)
    (hm : m ∈ g.setLoops.loops) (hne : l.head ≠ m.head) (hentry : g.entryBlock? = some entry)
    {b : Nat} (hb : Reaches g.Leads entry b) (hbl : b ∈ l.blocks) (hbm : b ∈ m.blocks) :
    (m.blocks ⊆ l.blocks ∧ l.encloses m = true) ∨ (l.blocks ⊆ m.blocks ∧ m.encloses l = true) := by
  have hloops := (mirrored_of_build h).hasLoops (fun b hb => (nodup_of_build h b hb).1) hentry
  have hback := (hloops.exists_iff l.tail l.head).mp ⟨l, hl, rfl, rfl⟩
  have hback' := (hloops.exists_iff m.tail m.head).mp ⟨m, hm, rfl, rfl⟩
  rw [hloops.mem_blocks_iff l hl] at hbl
  rw [hloops.mem_blocks_iff m hm] at hbm
  rw [encloses_iff (hloops.increasing l hl) (hloops.increasing m hm),
    encloses_iff (hloops.increasing m hm) (hloops.increasing l hl), and_self, and_self]
  rcases inLoop_subset_or_subset hne hback.leads hback'.leads hback.dominates hback'.dominates hb
    hbl hbm with hsub | hsub
  · refine .inr fun x hx => (hloops.mem_blocks_iff m hm x).mpr (hsub x ?_)
    exact (hloops.mem_blocks_iff l hl x).mp hx
  · refine .inl fun x hx => (hloops.mem_blocks_iff l hl x).mpr (hsub x ?_)
    exact (hloops.mem_blocks_iff m hm x).mp hx

theorem nested_nestedLoops :
    NestedLoops.inner ∈ NestedLoops.graph.setLoops.loops ∧
      NestedLoops.outer ∈ NestedLoops.graph.setLoops.loops ∧
      NestedLoops.inner.head ≠ NestedLoops.outer.head ∧
      Reaches NestedLoops.graph.Leads 0 2 ∧ 2 ∈ NestedLoops.inner.blocks ∧
      2 ∈ NestedLoops.outer.blocks ∧
      ((NestedLoops.outer.blocks ⊆ NestedLoops.inner.blocks ∧
          NestedLoops.inner.encloses NestedLoops.outer = true) ∨
        (NestedLoops.inner.blocks ⊆ NestedLoops.outer.blocks ∧
          NestedLoops.outer.encloses NestedLoops.inner = true)) := by
  have hinner : NestedLoops.inner ∈ NestedLoops.graph.setLoops.loops := by
    simp [NestedLoops.loops_eq]
  have houter : NestedLoops.outer ∈ NestedLoops.graph.setLoops.loops := by
    simp [NestedLoops.loops_eq]
  have hreach : Reaches NestedLoops.graph.Leads 0 2 := by
    rw [← hasEdge_edges_eq, NestedLoops.edges_eq]
    exact ⟨[0, 1, 2], rfl, rfl, by simp [HasEdge]⟩
  exact ⟨hinner, houter, by decide, hreach, by decide, by decide,
    nested_of_build NestedLoops.build_eq hinner houter (by decide) NestedLoops.entryBlock?_eq hreach
      (by decide) (by decide)⟩

end BinTrace.FlowGraph
