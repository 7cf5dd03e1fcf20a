import BinTrace.Function.Basic
import BinTrace.Proofs.Disassembly.Strategy
import Mathlib

/-!
Digesting never fails. Where recursive descent meets overlapping code or bytes that are no
instruction, a linear sweep takes over, and a sweep always covers the function. Either way the
graph is well-formed and its bytes are those that the function had before.
-/

namespace BinTrace

namespace FlowGraph

theorem setDominators_eq (g : FlowGraph) :
    g.setDominators = g ∨ ∃ f, KeepsCode f ∧ g.setDominators = g.mapBlocks f := by
  unfold setDominators
  split
  · exact .inl rfl
  · refine .inr ⟨_, ?_, rfl⟩
    exact fun n b => ⟨rfl, rfl, rfl, rfl⟩

/-- Layout, code and edges do not depend on the loops that are recorded. -/
theorem setLoops_pieces (g : FlowGraph) : g.setLoops.pieces = g.setDominators.pieces ∧
    g.setLoops.base = g.setDominators.base ∧ g.setLoops.size = g.setDominators.size := by
  unfold setLoops
  dsimp only
  split <;> exact ⟨rfl, rfl, rfl⟩

/-- The graph is a right reading of the given bytes at `base`. -/
structure Reads (g : FlowGraph) (base : Nat) (bytes : List UInt8) : Prop where
  base_eq : g.base = base
  size_eq : g.size = bytes.length
  wellFormed : g.WellFormed
  dump_eq : g.dump = bytes

variable {g : FlowGraph} {base : Nat} {bytes : List UInt8}

theorem Reads.mapBlocks {f : Nat → Block → Block} (hf : KeepsCode f) (hg : g.Reads base bytes) :
    (g.mapBlocks f).Reads base bytes :=
  ⟨hg.base_eq, hg.size_eq, hg.wellFormed.mapBlocks hf, (dump_mapBlocks hf g).trans hg.dump_eq⟩

theorem Reads.of_pieces {h : FlowGraph} (hp : h.pieces = g.pieces) (hb : h.base = g.base)
    (hs : h.size = g.size) (hg : g.Reads base bytes) : h.Reads base bytes := by
  obtain ⟨base', size', pieces', loops'⟩ := h
  subst hp hb hs
  exact ⟨hg.base_eq, hg.size_eq, ⟨hg.wellFormed.tiled, hg.wellFormed.blocks, hg.wellFormed.edges⟩,
    hg.dump_eq⟩

theorem instructions_setLoops (g : FlowGraph) : g.setLoops.instructions = g.instructions := by
  have hsame : g.setLoops.instructions = g.setDominators.instructions := by
    simp [FlowGraph.instructions, FlowGraph.blocks, (setLoops_pieces g).1]
  rcases setDominators_eq g with heq | ⟨f, hf, heq⟩
  · rw [hsame, heq]
  · rw [hsame, heq, instructions_mapBlocks hf]

theorem Reads.setLoops (hg : g.Reads base bytes) : g.setLoops.Reads base bytes := by
  obtain ⟨hp, hb, hs⟩ := setLoops_pieces g
  refine Reads.of_pieces hp hb hs ?_
  rcases setDominators_eq g with heq | ⟨f, hf, heq⟩
  · rwa [heq]
  · rw [heq]
    exact hg.mapBlocks hf

end FlowGraph

namespace Function

variable {f : Function} {s : Surroundings}

/-- A graph comes out of the instructions that were found. -/
theorem graphBy_eq_ok {strategy : Strategy} {g : FlowGraph} {tables : List JumpTable}
    (h : f.graphBy s strategy = (.ok g, tables)) :
    ∃ is, (strategy.disassemble (f.descentInput s)).1 = .ok is ∧
      FlowGraph.build ((f.descentInput s).source tables) is = .ok g := by
  have hfst := congrArg Prod.fst h
  have hsnd := congrArg Prod.snd h
  simp only [graphBy] at hfst hsnd
  rw [hsnd] at hfst
  exact Outcome.bind_eq_ok.mp hfst

theorem graphBy_ok {strategy : Strategy} {g : FlowGraph} {tables : List JumpTable}
    (h : f.graphBy s strategy = (.ok g, tables)) :
    g.Reads f.base f.bytes ∧ ∀ i ∈ g.instructions, (f.descentInput s).Finds i := by
  obtain ⟨is, hfound, hbuild⟩ := graphBy_eq_ok h
  have hfinds := finds_of_disassemble hfound
  have hholds : ∀ i ∈ is, ((f.descentInput s).source tables).Holds i :=
    fun i hi => (hfinds i hi).holds tables
  obtain ⟨hwf, hbase, hsize, hdump⟩ := FlowGraph.build_wellFormed rfl hholds hbuild
  refine ⟨⟨hbase, hsize, hwf, hdump⟩, fun i hi => hfinds i ?_⟩
  exact (FlowGraph.instructions_build hbuild).mem_iff.mp hi

/-- A graph can always be built from a sweep. -/
theorem graphBy_linear (f : Function) (s : Surroundings) :
    ∃ g, f.graphBy s .linear = (.ok g, []) := by
  obtain ⟨hcontiguous, hfinds⟩ := sweep_spec (d := f.descentInput s) s.width f.bytes
    (Nat.le_refl f.base) (by simp [descentInput])
  obtain ⟨g, hg⟩ := FlowGraph.build_of_contiguous hcontiguous fun i hi => (hfinds i hi).holds []
  exact ⟨g, Prod.ext hg rfl⟩

theorem digest_of_graphBy {g : FlowGraph} {tables : List JumpTable}
    (h : f.graphBy s .recursive = (.ok g, tables)) : (digest s).run f =
      .ok tables { f with graph := some g.setLoops, strategy := some .recursive } := by
  simp [digest, EStateM.run, bind, EStateM.bind, get, getThe, MonadStateOf.get, EStateM.get, h, set,
    EStateM.set, pure, EStateM.pure]

/-- Digesting keeps the first graph that can be built. -/
theorem digest_run (f : Function) (s : Surroundings) :
    ∃ strategy g tables bad, f.graphBy s strategy = (.ok g, tables) ∧
      (digest s).run f = .ok tables { f with
        graph := some g.setLoops, strategy := some strategy, badAddress := bad } := by
  cases hr : f.graphBy s .recursive with
  | mk result tables =>
      cases result with
      | ok g =>
          exact ⟨.recursive, g, tables, f.badAddress, hr, digest_of_graphBy hr⟩
      | error e =>
          obtain ⟨g, hl⟩ := graphBy_linear f s
          refine ⟨.linear, g, [], some (e.address?.getD f.base), hl, ?_⟩
          simp [digest, EStateM.run, bind, EStateM.bind, get, getThe, MonadStateOf.get,
            EStateM.get, hr, hl, set, EStateM.set, modify, modifyGet, MonadStateOf.modifyGet,
            EStateM.modifyGet, pure, EStateM.pure]

theorem exists_digest (f : Function) (s : Surroundings) :
    ∃ tables f', (digest s).run f = .ok tables f' := by
  obtain ⟨strategy, g, tables, bad, -, hrun⟩ := digest_run f s
  exact ⟨tables, _, hrun⟩

/-- What is known of a function that has been digested. -/
theorem digest_spec {tables : List JumpTable} {f' : Function}
    (h : (digest s).run f = .ok tables f') :
    f'.name = f.name ∧ f'.base = f.base ∧ f'.bytes = f.bytes ∧ ∃ g, f'.graph = some g ∧
      g.Reads f.base f.bytes ∧ ∀ i ∈ g.instructions, (f.descentInput s).Finds i := by
  obtain ⟨strategy, g, tables', bad, hg, hrun⟩ := digest_run f s
  obtain ⟨hreads, hfinds⟩ := graphBy_ok hg
  rw [hrun] at h
  cases h
  refine ⟨rfl, rfl, rfl, _, rfl, hreads.setLoops, ?_⟩
  rwa [FlowGraph.instructions_setLoops]

/-- A function that is one instruction gets a graph of one block. -/
theorem digest_of_covered {i : Instruction} (hi : decode s.width f.bytes f.base = .ok i)
    (hsize : i.size = f.bytes.length) {tables : List JumpTable} {f' : Function}
    (h : (digest s).run f = .ok tables f') :
    ∃ g b, f'.graph = some g ∧ g.blocks = [b] ∧ b.instructions = [i] := by
  obtain ⟨strategy, g, tables', bad, hg, hrun⟩ := digest_run f s
  obtain ⟨is, hfound, hbuild⟩ := graphBy_eq_ok hg
  have hdecode : (f.descentInput s).decodeAt f.base = .ok i := by
    simpa [DescentInput.decodeAt, descentInput] using hi
  obtain rfl := disassemble_of_covered hdecode hsize hfound
  have hinstructions : g.setLoops.instructions = [i] := by
    rw [FlowGraph.instructions_setLoops]
    exact List.perm_singleton.mp (FlowGraph.instructions_build hbuild)
  have hwf := (graphBy_ok hg).1.setLoops.wellFormed
  obtain ⟨b, hblocks, hb⟩ := hwf.blocks_of_instructions hinstructions
  rw [hrun] at h
  cases h
  exact ⟨_, b, rfl, hblocks, hb⟩

/-- A function that is one instruction is digested by recursive descent, unless the instruction
sends control into itself. -/
theorem exists_digest_recursive {i : Instruction} (hi : decode s.width f.bytes f.base = .ok i)
    (hsize : i.size = f.bytes.length) (hjump : i.isTableJump = false)
    (htarget : ∀ a, i.controlTarget? = some a →
      (f.descentInput s).range.contains a = true → a = f.base) :
    ∃ f', (digest s).run f = .ok [] f' ∧ f'.strategy = some .recursive := by
  have hdecode : (f.descentInput s).decodeAt f.base = .ok i := by
    simpa [DescentInput.decodeAt, descentInput] using hi
  have hfound := descend_of_covered hdecode hsize hjump htarget
  have hholds := (finds_of_decodeAt (Nat.le_refl _) hdecode).holds []
  have hcontiguous : Contiguous i.address [i] := ⟨rfl, trivial⟩
  obtain ⟨g, hg⟩ := FlowGraph.build_of_contiguous hcontiguous (by simpa using hholds)
  have hgraph : f.graphBy s .recursive = (.ok g, []) := by
    rw [graphBy, Strategy.disassemble, hfound]
    exact Prod.ext hg rfl
  exact ⟨_, digest_of_graphBy hgraph, rfl⟩

/-- The function is what digesting has made of some function. -/
def Digested (f : Function) : Prop :=
  ∃ (raw : Function) (s : Surroundings) (tables : List JumpTable), (digest s).run raw = .ok tables f

theorem Digested.spec (hf : f.Digested) : ∃ (d : DescentInput) (g : FlowGraph),
    d.base = f.base ∧ d.bytes = f.bytes ∧ f.graph = some g ∧ g.Reads f.base f.bytes ∧
      ∀ i ∈ g.instructions, d.Finds i := by
  obtain ⟨raw, s, tables, h⟩ := hf
  obtain ⟨-, hbase, hbytes, g, hgraph, hreads, hfinds⟩ := digest_spec h
  rw [← hbase, ← hbytes] at hreads
  exact ⟨raw.descentInput s, g, hbase.symm, hbytes.symm, hgraph, hreads, hfinds⟩

/-- Digesting does not change how many bytes a function has. -/
theorem Digested.size_eq (hf : f.Digested) : f.size = f.bytes.length := by
  obtain ⟨d, g, -, -, hgraph, hreads, -⟩ := hf.spec
  rw [size, hgraph]
  exact hreads.size_eq

theorem Digested.dump_eq (hf : f.Digested) : f.dump = f.bytes := by
  obtain ⟨d, g, -, -, hgraph, hreads, -⟩ := hf.spec
  rw [dump, hgraph]
  exact hreads.dump_eq

/-- Every function can be digested, by one of the two ways. Then its graph passes the check, no
instruction but the last of a block transfers control, and dumping gives the bytes back. -/
theorem digest_total (f : Function) (s : Surroundings) :
    ∃ tables f' g, (digest s).run f = .ok tables f' ∧ f'.graph = some g ∧
      (f'.strategy = some .recursive ∨ f'.strategy = some .linear) ∧
      g.base = f.base ∧ g.size = f.bytes.length ∧ g.WellFormed ∧
      (∀ b ∈ g.blocks, ∀ i ∈ b.instructions.dropLast, i.isControl = false) ∧
      f'.check = .ok () ∧ f'.dump = f.bytes := by
  obtain ⟨strategy, g, tables, bad, hg, hrun⟩ := digest_run f s
  obtain ⟨-, -, -, g', hgraph, hreads, hfinds⟩ := digest_spec hrun
  refine ⟨tables, _, g', hrun, hgraph, ?_, hreads.base_eq, hreads.size_eq, hreads.wellFormed,
    fun b hb i hi => ?_, ?_, ?_⟩
  · cases strategy with
    | recursive => exact .inl rfl
    | linear => exact .inr rfl
  · have hown := (hreads.wellFormed.blocks b hb).transfer_last i hi
    have hmem : i ∈ g'.instructions := List.mem_flatMap.mpr ⟨b, hb, List.dropLast_subset _ hi⟩
    simpa [Block.isOwnTransfer, (hfinds i hmem).source_eq] using hown
  · rw [check, hgraph]
    simp [FlowGraph.check_eq_ok.mpr hreads.wellFormed, Except.mapError]
  · rw [dump, hgraph]
    exact hreads.dump_eq

end Function

end BinTrace
