import BinTrace.Proofs.Patch.Instrument

/-!
A function that is one instruction with room for a jump. A point in front of the instruction
displaces it, and what becomes of the point depends only on the inserted code and on what is live.
-/

namespace BinTrace

open Outcome

/-- What is known of a function that is one instruction once it has been digested. -/
structure Function.Single (f : Function) (g : FlowGraph) (b : Block) (i : Instruction) : Prop where
  digested : f.Digested
  base_eq : f.base = i.address
  bytes_eq : f.bytes = i.bytes
  graph_eq : f.graph = some g
  blocks_eq : g.blocks = [b]
  instructions_eq : b.instructions = [i]
  address_eq : b.address = i.address
  room : Encode.jumpSize ≤ i.size
  relocatable : i.isRelocatable = true

namespace Function.Single

variable {w : Width} {raw f : Function} {s : Surroundings} {g : FlowGraph} {b : Block}
  {i : Instruction} {l : Liveness} {p : PatchPoint} {protection : Protection} {d : Detour}

theorem of_digest {tables : List JumpTable} (hi : decode s.width raw.bytes raw.base = .ok i)
    (hsize : i.size = raw.bytes.length) (hroom : Encode.jumpSize ≤ i.size)
    (hrelocatable : i.isRelocatable = true) (hrun : (digest s).run raw = .ok tables f) :
    ∃ g b, f.Single g b i := by
  obtain ⟨haddress, -, n, -, -, hle, hbytes⟩ := decode_ok hi
  have hwhole : i.bytes = raw.bytes := by
    have hn : n = raw.bytes.length := by
      have hlength := congrArg List.length hbytes
      rw [List.length_take, Nat.min_eq_left hle] at hlength
      exact hlength.symm.trans hsize
    rw [hbytes, hn, List.take_length]
  obtain ⟨-, hbase, hsame, g, hgraph, hreads, -⟩ := digest_spec hrun
  obtain ⟨g', b, hgraph', hblocks, hb⟩ := digest_of_covered hi hsize hrun
  cases hgraph.symm.trans hgraph'
  have hcontiguous := (hreads.wellFormed.blocks b (by simp [hblocks])).contiguous
  rw [hb] at hcontiguous
  exact ⟨g, b, ⟨raw, s, tables, hrun⟩, hbase.trans haddress.symm, hsame.trans hwhole.symm, hgraph,
    hblocks, hb, hcontiguous.1.symm, hroom, hrelocatable⟩

variable (h : f.Single g b i)

include h

theorem range_eq : f.range = ⟨i.address, i.size⟩ := by
  rw [Function.range, h.digested.size_eq, h.base_eq, h.bytes_eq]
  rfl

theorem block?_eq : g.block? 0 = some b := by
  simp [FlowGraph.block?, h.blocks_eq]

theorem blockContaining?_eq : g.blockContaining? i.address = some 0 := by
  have hpos : 0 < i.size := Nat.lt_of_lt_of_le (by decide) h.room
  simp [FlowGraph.blockContaining?, h.block?_eq, h.blocks_eq, h.address_eq, Block.contains,
    Block.stop, Block.size, h.instructions_eq, hpos]

theorem instructionAt?_eq : g.instructionAt? i.address = some i := by
  simp [FlowGraph.instructionAt?, h.blockContaining?_eq, h.block?_eq, Block.instructionAt?,
    h.instructions_eq]

theorem patchStart?_eq : f.patchStart? i.address Encode.jumpSize .before = some i.address := by
  have hcovers : Block.covers Encode.jumpSize [i] = true := by
    simp [Block.covers, h.relocatable, Nat.sub_eq_zero_of_le h.room]
  have hpatch : b.patchStart? i.address Encode.jumpSize .before = some i.address := by
    simp [Block.patchStart?, Block.patchIndex?, Block.indexAt?, h.instructions_eq, hcovers]
  simp only [Function.patchStart?, h.graph_eq, Option.bind_eq_bind, Option.bind_some,
    h.blockContaining?_eq, h.block?_eq, hpatch]

theorem displacedAt_eq : PatchPoint.displacedAt b i.address = [i] := by
  have hneed : Encode.jumpSize ≠ 0 := by decide
  simp [PatchPoint.displacedAt, h.instructions_eq, coveringRun, hneed]

variable (ha : p.address = i.address) (hlocation : p.location = .before)

include ha hlocation

theorem findProtection_eq :
    p.findProtection w f l = p.protectionFor w (l.liveAt i.address .before) := by
  simp only [PatchPoint.findProtection, h.graph_eq, Option.bind_some, ha, hlocation,
    h.instructionAt?_eq]
  rfl

theorem buildDetour_eq {t : Trampoline}
    (ht : Trampoline.build w protection p.code [i] (PatchPoint.resume? i.address [i] [i]) = .ok t) :
    p.buildDetour w f protection = .ok ⟨i.address, [i], protection, t⟩ := by
  have hrelocated : PatchPoint.relocated .before [i] = [i] := rfl
  simp only [PatchPoint.buildDetour, ha, hlocation, h.patchStart?_eq, h.graph_eq, Option.bind_some,
    h.blockContaining?_eq, h.block?_eq, h.displacedAt_eq, hrelocated, ht]
  rfl

theorem run_analyze (hrequested : p.progress = .requested)
    (hprotection : p.protectionFor w (l.liveAt i.address .before) = .ok protection) :
    (PatchPoint.analyze w f l).run p = .ok () (p.withProgress (.analyzed protection)) := by
  simp only [PatchPoint.analyze, EStateM.run_bind, EStateM.run_get, hrequested,
    h.findProtection_eq ha hlocation, hprotection]
  rfl

theorem run_generate {t : Trampoline}
    (ht : Trampoline.build w protection p.code [i] (PatchPoint.resume? i.address [i] [i]) = .ok t) :
    (PatchPoint.generate w f).run (p.withProgress (.analyzed protection)) =
      .ok () (p.withProgress (.generated ⟨i.address, [i], protection, t⟩)) := by
  have hbuild : (p.withProgress (.analyzed protection)).buildDetour w f protection =
      .ok ⟨i.address, [i], protection, t⟩ := h.buildDetour_eq ha hlocation ht
  simp only [PatchPoint.withProgress] at hbuild ⊢
  simp only [PatchPoint.generate, EStateM.run_bind, EStateM.run_get, hbuild]
  rfl

/-- The point gets its trampoline behind those that have a place, if its range is free. -/
theorem advance_eq {c : PatchSet.Placement} {t : Trampoline} (hc : c.function = f)
    (hrequested : p.progress = .requested)
    (hprotection : p.protectionFor c.width (c.liveness.liveAt i.address .before) = .ok protection)
    (ht : Trampoline.build c.width protection p.code [i] (PatchPoint.resume? i.address [i] [i]) =
      .ok t)
    (hfree : (c.taken.any (AddressRange.mk i.address (totalSize [i])).overlaps) = false) :
    PatchSet.advance c p =
      (c.grow ⟨i.address, [i], protection, t⟩,
        p.withProgress (.placed (Detour.placedAt ⟨i.address, [i], protection, t⟩ c.next)),
        .kept) := by
  have hconcerns : PatchSet.concerns c.function p = true := by
    have hin : f.range.contains p.address = true := by
      rw [h.range_eq, ha, AddressRange.contains_iff]
      exact ⟨Nat.le_refl _, Nat.lt_add_of_pos_right (Nat.lt_of_lt_of_le (by decide) h.room)⟩
    simp [PatchSet.concerns, PatchPoint.stage, hrequested, PatchProgress.stage, hc, hin]
  have hprepare : (PatchSet.prepare c).run p = .ok ⟨i.address, totalSize [i]⟩
      (p.withProgress (.generated ⟨i.address, [i], protection, t⟩)) := by
    simp only [PatchSet.prepare, EStateM.run_bind, hc,
      h.run_analyze ha hlocation hrequested hprotection, h.run_generate ha hlocation ht,
      EStateM.run_get]
    simp only [PatchPoint.withProgress, PatchProgress.detour?, Option.map_some, Option.getD_some,
      Detour.range, hfree]
    rfl
  simp only [PatchSet.advance, hconcerns, EStateM.run_bind, hprepare]
  rfl

end Function.Single

namespace PatchSet

variable {s : PatchSet} {f : Function} {l : Liveness} {c c' : Placement} {p q : PatchPoint}
  {front : List PatchPoint}

/-- Points that are not concerned are passed over. -/
theorem advanceAll_append (hfront : ∀ r ∈ front, concerns c.function r = false)
    (ps : List PatchPoint) : advanceAll c (front ++ ps) =
      ((advanceAll c ps).1, front.map (fun r => (r, .kept)) ++ (advanceAll c ps).2) := by
  induction front with
  | nil => rfl
  | cons r rest ih =>
      obtain ⟨hr, hrest⟩ := List.forall_mem_cons.mp hfront
      have hadvance : advance c r = (c, r, .kept) := by simp [advance, hr]
      simp only [List.cons_append, advanceAll, hadvance, ih hrest, List.map_cons]

/-- A function with one new point, behind all others. -/
theorem instrument_eq (hsorted : s.points.mergeSort precedes = front ++ [p])
    (hfront : ∀ r ∈ front, concerns f r = false)
    (hp : advance (s.initial f l) p = (c, q, .kept)) :
    (instrument f l).run s =
      .ok c.placed { s with points := front ++ [q], regionSize := c.regionSize } := by
  obtain ⟨done, hdone⟩ : ∃ done, done = front.map (fun r => (r, Verdict.kept)) ++ [(q, .kept)] :=
    ⟨_, rfl⟩
  have hall : advanceAll (s.initial f l) (front ++ [p]) = (c, done) := by
    rw [advanceAll_append hfront, hdone]
    simp only [advanceAll, hp]
  have hverdict : ∀ x ∈ done, x.2 = .kept := by
    rw [hdone, List.forall_mem_append, List.forall_mem_map]
    simp
  have hfailure : failure? done = none :=
    List.findSome?_eq_none_iff.mpr fun x hx => by simp only [hverdict x hx]
  have hpoints : done.map Prod.fst = front ++ [q] := by
    simp [hdone, Function.comp_def]
  rw [initial, hsorted] at hall
  simp only [instrument, EStateM.run_bind, EStateM.run_get, hsorted, hall, hfailure]
  rw [List.filter_eq_self.mpr fun x hx => by simp only [hverdict x hx], Nat.sub_self, Nat.add_zero,
    hpoints]
  rfl
end PatchSet

/-! Functions that are one jump each, and points in front of the jumps. -/

namespace LoneJump

def jumpAt (a : Nat) (bytes : List UInt8) (displacement : Int) : Instruction :=
  { address := a, bytes, opcodeClass := .uncondBranch, mnemonic := "jmp",
    operands := [Operand.relative displacement 1 4] }

/-- The function that an instruction is. -/
def functionOf (i : Instruction) : Function :=
  match (Function.digest { width := .bits64 }).run
    { name := "f", base := i.address, bytes := i.bytes } with
  | .ok _ f => f
  | .error _ f => f

def pointAt (a : Nat) : PatchPoint :=
  { address := a, location := .before, code := { body := .snippet [] } }

def protection : Protection := ⟨.none, [], false⟩

/-- Nothing is known of what is live. -/
def liveness : Liveness := ⟨[], 0⟩

def detour (i : Instruction) : Detour :=
  ⟨i.address, [i], protection, .ofEmissions [.anchored i]⟩

/-- The point in front of a jump once its trampoline lies at an address. -/
def placed (i : Instruction) (a : Nat) : PatchPoint :=
  (pointAt i.address).withProgress (.placed ((detour i).placedAt a))

theorem single_functionOf {i : Instruction} (hi : decode .bits64 i.bytes i.address = .ok i)
    (hroom : Encode.jumpSize ≤ i.size) (hrelocatable : i.isRelocatable = true) :
    ∃ g b, (functionOf i).Single g b i := by
  obtain ⟨tables, f, hrun⟩ := Function.exists_digest
    { name := "f", base := i.address, bytes := i.bytes } { width := .bits64 }
  have hf : functionOf i = f := by rw [functionOf, hrun]
  rw [hf]
  exact Function.Single.of_digest (by exact hi) (by rfl) hroom hrelocatable hrun

theorem protectionFor_pointAt (a : Nat) :
    (pointAt a).protectionFor .bits64 (liveness.liveAt a .before) = .ok protection := by
  cbv

/-- A new point behind all others is placed if no range begins in the function so far. -/
theorem instrument_eq {s : PatchSet} {i : Instruction} {g : FlowGraph} {b : Block}
    (h : (functionOf i).Single g b i) (hw : s.width = .bits64)
    (hsorted : (s.points ++ [pointAt i.address]).mergeSort PatchSet.precedes =
      s.points ++ [pointAt i.address])
    (hpoints : ∀ p ∈ s.points, PatchSet.concerns (functionOf i) p = false)
    (htaken : PatchSet.takenIn (functionOf i) (s.points ++ [pointAt i.address]) = [])
    (ht : Trampoline.build .bits64 protection (pointAt i.address).code [i]
      (PatchPoint.resume? i.address [i] [i]) = .ok (detour i).trampoline) :
    (PatchSet.instrument (functionOf i) liveness).run (s.add (pointAt i.address)) =
      .ok 1 { s with
        regionSize := s.regionSize + i.size
        points := s.points ++ [placed i (s.regionBase + s.regionSize)] } := by
  have hwidth : ((s.add (pointAt i.address)).initial (functionOf i) liveness).width =
      .bits64 := hw
  have hadvance := h.advance_eq (p := pointAt i.address)
    (c := (s.add (pointAt i.address)).initial (functionOf i) liveness) rfl rfl rfl rfl
    (by rw [hwidth]; exact protectionFor_pointAt i.address) (by rw [hwidth]; exact ht)
    (by simp [PatchSet.initial, PatchSet.add, hsorted, htaken])
  exact PatchSet.instrument_eq (s := s.add (pointAt i.address)) hsorted hpoints hadvance

end LoneJump

end BinTrace
