import BinTrace.Proofs.Disassembly.Targets
import BinTrace.Proofs.Flow.Edges
import BinTrace.Proofs.Function.Digest

/-!
Blocks begin at the leaders. Wherever an instruction or its table sends control inside a function
that was found by recursive descent, a block of the function's graph begins.
-/

namespace BinTrace

namespace FlowGraph

variable {g : FlowGraph} {s : Source}

namespace Source

variable {ordered run : List Instruction}

/-- All but the first member of a chain are related to a member in front of them. -/
theorem exists_of_mem_tail {α : Type} {R : α → α → Prop} {l : List α} (h : l.IsChain R) {y : α}
    (hy : y ∈ l.tail) : ∃ x ∈ l, R x y := by
  induction l with
  | nil => cases hy
  | cons x rest ih =>
      cases rest with
      | nil => cases hy
      | cons z rest =>
          obtain ⟨hxz, hrest⟩ := List.isChain_cons_cons.mp h
          rcases List.mem_cons.mp hy with rfl | hy
          · exact ⟨x, List.mem_cons_self, hxz⟩
          · obtain ⟨w, hw, hwy⟩ := ih hrest hy
            exact ⟨w, List.mem_cons_of_mem _ hw, hwy⟩

/-- An instruction at a leader is the first of its run. -/
theorem startOf_of_mem_run (hrun : run ∈ s.splitBlocks ordered) {j : Instruction} (hj : j ∈ run)
    (hleader : j.address ∈ ordered.flatMap s.leadersAfter) : startOf run = j.address := by
  cases run with
  | nil => cases hj
  | cons i rest =>
      rcases List.mem_cons.mp hj with rfl | htail
      · rfl
      · obtain ⟨k, -, hkj⟩ := exists_of_mem_tail (List.isChain_of_mem_splitBy hrun) htail
        simp only [Bool.and_eq_true, Bool.not_eq_true'] at hkj
        rw [← List.contains_iff_mem, hkj.2] at hleader
        cases hleader

theorem startsAt_assemble {a : Nat} (hbegins : Begins ordered a)
    (hleader : a ∈ ordered.flatMap s.leadersAfter) : (s.assemble ordered).StartsAt a := by
  obtain ⟨j, hj, rfl⟩ := hbegins
  obtain ⟨run, hrun, hmem⟩ : ∃ run ∈ s.splitBlocks ordered, j ∈ run := by
    rw [← List.flatten_splitBy (fun i j => i.stop = j.address &&
      !(ordered.flatMap s.leadersAfter).contains j.address) ordered] at hj
    exact List.mem_flatten.mp hj
  have hstart := List.mem_map_of_mem (f := startOf) hrun
  rw [startOf_of_mem_run hrun hmem hleader, ← s.map_address_assemble ordered] at hstart
  exact List.mem_map.mp hstart

/-- An address inside the function to which an instruction or its table sends control. -/
def Aims (s : Source) (i : Instruction) (a : Nat) : Prop :=
  i.controlTarget? = some a ∨ ∃ t, s.table? i = some t ∧ a ∈ t.targets

theorem mem_leadersAfter {i : Instruction} {a : Nat} (h : s.Aims i a)
    (hin : s.range.contains a = true) : a ∈ s.leadersAfter i := by
  refine List.mem_append_right _ (List.mem_filter.mpr ⟨?_, hin⟩)
  rcases h with htarget | ⟨t, ht, ha⟩
  · exact List.mem_append_left _ (by simp [htarget])
  · exact List.mem_append_right _ (by simpa [ht] using ha)

/-- The one table of a jump is found. -/
theorem table?_of_distinct (h : s.tables.Pairwise fun t u => t.branch ≠ u.branch) {t : JumpTable}
    (ht : t ∈ s.tables) {i : Instruction} (hi : i.address = t.branch) : s.table? i = some t := by
  have hsymm : Std.Symm fun t u : JumpTable => t.branch ≠ u.branch := ⟨fun _ _ h => h.symm⟩
  cases hfound : s.table? i with
  | none =>
      have hnot := List.find?_eq_none.mp hfound t (List.mem_reverse.mpr ht)
      exact absurd (decide_eq_true hi.symm) hnot
  | some u =>
      have hu : u ∈ s.tables := List.mem_reverse.mp (List.mem_of_find?_eq_some hfound)
      have hbranch :=
        List.find?_some (p := fun t : JumpTable => decide (t.branch = i.address)) hfound
      by_contra hne
      have hut : u ≠ t := fun heq => hne (congrArg some heq)
      exact h.forall hu ht hut ((of_decide_eq_true hbranch).trans hi)

end Source

theorem StartsAt.setLoops {a : Nat} (h : g.StartsAt a) : g.setLoops.StartsAt a := by
  have hsame : g.setLoops.blocks = g.setDominators.blocks := by
    simp [blocks, (setLoops_pieces g).1]
  rw [StartsAt, hsame]
  rcases setDominators_eq g with heq | ⟨f, hf, heq⟩
  · rwa [heq]
  · rw [heq]
    exact (startsAt_mapBlocks hf a).mpr h

theorem startsAt_of_build {is : List Instruction} (h : build s is = .ok g) {i : Instruction}
    {a : Nat} (hi : i ∈ is) (haims : s.Aims i a) (hin : s.range.contains a = true)
    (hbegins : Begins is a) : g.StartsAt a := by
  obtain ⟨ordered, hperm, -, rfl⟩ := build_eq_ok h
  obtain ⟨j, hj, rfl⟩ := hbegins
  have hstart : (s.assemble ordered).StartsAt j.address :=
    Source.startsAt_assemble ⟨j, hperm.mem_iff.mpr hj, rfl⟩
      (List.mem_flatMap.mpr ⟨i, hperm.mem_iff.mpr hi, Source.mem_leadersAfter haims hin⟩)
  rcases markReachable_eq (s.assemble ordered) with heq | ⟨f, hf, heq⟩
  · rwa [heq]
  · rw [heq]
    exact (startsAt_mapBlocks hf _).mpr hstart

end FlowGraph

namespace Function

variable {raw f : Function} {s : Surroundings} {tables : List JumpTable}

/-- An address that an instruction of the function names as its target, or that stands in a table
that was found with them. -/
def IsTarget (f : Function) (tables : List JumpTable) (a : Nat) : Prop :=
  (∃ i ∈ f.instructions, i.controlTarget? = some a) ∨ ∃ t ∈ tables, a ∈ t.targets

/-- In a function that was found by recursive descent a block begins at every target inside. -/
theorem startsAt_of_isTarget (h : (digest s).run raw = .ok tables f)
    (hrecursive : f.strategy = some .recursive) {g : FlowGraph} (hg : f.graph = some g) {a : Nat}
    (ha : f.IsTarget tables a) (hin : f.range.contains a = true) : g.StartsAt a := by
  obtain ⟨strategy, g', tables', bad, hby, hrun⟩ := digest_run raw s
  rw [hrun] at h
  cases h
  obtain rfl : strategy = .recursive := Option.some.inj hrecursive
  obtain rfl : g'.setLoops = g := Option.some.inj hg
  obtain ⟨is, hfound, hbuild⟩ := graphBy_eq_ok hby
  have htables : (descend (raw.descentInput s)).2 = tables := congrArg Prod.snd hby
  have hbegins := targetsBegin_of_descend (d := raw.descentInput s) hfound
  rw [htables] at hbegins
  have hrange : (raw.descentInput s).range.contains a = true := by
    rwa [range, size, Option.map_some, Option.getD_some, (graphBy_ok hby).1.setLoops.size_eq] at hin
  have hmem {i : Instruction} : i ∈ g'.setLoops.instructions ↔ i ∈ is := by
    rw [FlowGraph.instructions_setLoops]
    exact (FlowGraph.instructions_build hbuild).mem_iff
  refine FlowGraph.StartsAt.setLoops ?_
  rcases ha with ⟨i, hi, htarget⟩ | ⟨t, ht, hlisted⟩
  · have hi : i ∈ is := hmem.mp hi
    exact FlowGraph.startsAt_of_build hbuild hi (.inl htarget) hrange
      (hbegins.direct i hi a htarget hrange)
  · obtain ⟨i, hi, hbranch, -⟩ := tables_of_disassemble hfound t (htables ▸ ht)
    have htable : ((raw.descentInput s).source tables).table? i = some t :=
      FlowGraph.Source.table?_of_distinct hbegins.distinct ht hbranch
    exact FlowGraph.startsAt_of_build hbuild hi (.inr ⟨t, htable, hlisted⟩) hrange
      (hbegins.listed t ht a hlisted hrange)

end Function

end BinTrace
