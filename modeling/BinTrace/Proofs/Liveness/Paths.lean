import BinTrace.Liveness
import BinTrace.Proofs.Flow.Places

/-!
Liveness by paths. A register or flag is live in front of an instruction if some path from there
comes to an instruction that reads it, or leaves the graph, before anything on the path writes it.
What is live satisfies the equations of liveness, and it is in every solution of them.
-/

namespace BinTrace

namespace FlowGraph

/-- Control may go on from an instruction to somewhere that the graph does not know: its block ends
there, other than with a return, and is an exit or has no successors. -/
def LeavesOpen (g : FlowGraph) (p : Place) : Prop :=
  ∃ b last, g.block? p.block = some b ∧ p.index + 1 = b.instructions.length ∧
    b.instructions.getLast? = some last ∧ last.isReturn = false ∧
    (b.flags.isExit = true ∨ b.succs = [])

def ReadsAt (g : FlowGraph) (c : Cell) (p : Place) : Prop :=
  ∃ i, g.instruction? p = some i ∧ c ∈ i.uses

def WritesAt (g : FlowGraph) (c : Cell) (p : Place) : Prop :=
  ∃ i, g.instruction? p = some i ∧ c ∈ i.defs

/-- A path from `p` on which a cell keeps its value, up to where that value is read or may be read
outside the graph. -/
structure LivePath (g : FlowGraph) (c : Cell) (p : Place) (path : List Place) : Prop where
  head_eq : path.head? = some p
  chain : path.IsChain g.Follows
  kept : ∀ q ∈ path.dropLast, ¬ g.WritesAt c q
  last : ∃ q, path.getLast? = some q ∧
    (g.ReadsAt c q ∨ (g.LeavesOpen q ∧ ¬ g.WritesAt c q))

def LiveBefore (g : FlowGraph) (c : Cell) (p : Place) : Prop := ∃ path, g.LivePath c p path

/-- Live behind an instruction, whether control stays in the graph or not. -/
def LiveAfter (g : FlowGraph) (c : Cell) (p : Place) : Prop :=
  g.LeavesOpen p ∨ ∃ q, g.Follows p q ∧ g.LiveBefore c q

/-- Sets in front of and behind every instruction that satisfy the equations of liveness. -/
structure Solves (g : FlowGraph) (before after : Place → RegSet) : Prop where
  mem_after_iff {p : Place} {i : Instruction} : g.instruction? p = some i →
    ∀ c, c ∈ after p ↔ g.LeavesOpen p ∨ ∃ q, g.Follows p q ∧ c ∈ before q
  before_eq {p : Place} {i : Instruction} : g.instruction? p = some i →
    before p = i.uses ∪ (after p \ i.defs)

variable {g : FlowGraph} {c : Cell} {p q : Place} {i : Instruction}

theorem liveBefore_of_last (h : g.ReadsAt c p ∨ (g.LeavesOpen p ∧ ¬ g.WritesAt c p)) :
    g.LiveBefore c p :=
  ⟨[p], rfl, .singleton _, by simp, p, rfl, h⟩

theorem LiveBefore.cons (hq : g.LiveBefore c q) (hpq : g.Follows p q) (hp : ¬ g.WritesAt c p) :
    g.LiveBefore c p := by
  obtain ⟨path, hpath⟩ := hq
  obtain ⟨hhead, hchain, hkept, r, hr, hlast⟩ := hpath
  cases path with
  | nil => cases hhead
  | cons q' rest =>
      obtain rfl : q' = q := Option.some.inj hhead
      refine ⟨p :: q' :: rest, rfl, List.isChain_cons_cons.mpr ⟨hpq, hchain⟩, ?_, r, ?_, hlast⟩
      · rw [List.dropLast_cons_cons]
        exact List.forall_mem_cons.mpr ⟨hp, hkept⟩
      · rwa [List.getLast?_cons_cons]

/-- What holds at the ends of paths and of every instruction in front that keeps the cell holds
wherever the cell is live. -/
theorem LiveBefore.induction {motive : Place → Prop} (hc : g.LiveBefore c p)
    (last : ∀ q, g.ReadsAt c q ∨ (g.LeavesOpen q ∧ ¬ g.WritesAt c q) → motive q)
    (cons : ∀ q r, g.Follows q r → ¬ g.WritesAt c q → motive r → motive q) : motive p := by
  obtain ⟨path, hhead, hchain, hkept, r, hr, hlast⟩ := hc
  induction path generalizing p with
  | nil => cases hhead
  | cons q rest ih =>
      obtain rfl : q = p := Option.some.inj hhead
      cases rest with
      | nil =>
          obtain rfl : q = r := Option.some.inj hr
          exact last q hlast
      | cons q' rest =>
          obtain ⟨hqq', hrest⟩ := List.isChain_cons_cons.mp hchain
          rw [List.dropLast_cons_cons] at hkept
          obtain ⟨hq, hkept⟩ := List.forall_mem_cons.mp hkept
          exact cons q q' hqq' hq (ih rfl hrest hkept (by rwa [List.getLast?_cons_cons] at hr))

theorem writesAt_iff (hi : g.instruction? p = some i) : g.WritesAt c p ↔ c ∈ i.defs :=
  ⟨fun ⟨_, hj, hc⟩ => Option.some.inj (hi.symm.trans hj) ▸ hc, fun hc => ⟨i, hi, hc⟩⟩

theorem LeavesOpen.exists_instruction (h : g.LeavesOpen p) : ∃ i, g.instruction? p = some i := by
  obtain ⟨b, last, hb, hp, -⟩ := h
  have hlt : p.index < b.instructions.length := by omega
  exact ⟨_, instruction?_eq_some.mpr ⟨b, hb, List.getElem?_eq_getElem hlt⟩⟩

/-- Any solution of the equations holds what is live. -/
theorem Solves.mem_before {before after : Place → RegSet} (hs : g.Solves before after)
    (hc : g.LiveBefore c p) : c ∈ before p := by
  have hmem : ∀ {q : Place} {i : Instruction}, g.instruction? q = some i →
      (c ∈ before q ↔ c ∈ i.uses ∨ (c ∈ after q ∧ ¬ g.WritesAt c q)) := by
    intro q i hi
    rw [hs.before_eq hi, RegSet.mem_union, RegSet.mem_sdiff, writesAt_iff hi]
  refine hc.induction (motive := fun q => c ∈ before q) (fun q hq => ?_)
    (fun q r hqr hkept ih => ?_)
  · rcases hq with ⟨i, hi, hread⟩ | ⟨hopen, hkept⟩
    · exact (hmem hi).mpr (.inl hread)
    · obtain ⟨i, hi⟩ := hopen.exists_instruction
      exact (hmem hi).mpr (.inr ⟨(hs.mem_after_iff hi c).mpr (.inl hopen), hkept⟩)
  · obtain ⟨i, hi⟩ := hqr.exists_instruction
    exact (hmem hi).mpr (.inr ⟨(hs.mem_after_iff hi c).mpr (.inr ⟨r, hqr, ih⟩), hkept⟩)

theorem Solves.mem_after {before after : Place → RegSet} (hs : g.Solves before after)
    (hi : g.instruction? p = some i) (hc : g.LiveAfter c p) : c ∈ after p :=
  (hs.mem_after_iff hi c).mpr (hc.imp_right fun ⟨q, hpq, hq⟩ => ⟨q, hpq, hs.mem_before hq⟩)

theorem LiveAfter.liveBefore (hc : g.LiveAfter c p) (hp : ¬ g.WritesAt c p) : g.LiveBefore c p := by
  rcases hc with hopen | ⟨q, hpq, hq⟩
  · exact liveBefore_of_last (.inr ⟨hopen, hp⟩)
  · exact hq.cons hpq hp

end FlowGraph

end BinTrace
