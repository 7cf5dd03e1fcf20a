import BinTrace.Liveness
import BinTrace.Proofs.Flow.Loops
import BinTrace.Proofs.Liveness.Escapes

/-!
How far the values that a loop computes are from their next use. A walk round the loop's body drops
every register that is written again from the set of those it still looks for, and stops at the
first read of one that is left. So it finds the least distance at which a register carries a value
from one instruction to another, up to one full turn, which ends at the instruction itself.
-/

namespace BinTrace

/-! ### The walk along a list of instructions -/

variable {c : Cell} {i : Instruction} {is rest : List Instruction} {k d step left : Nat}
  {pending : RegSet}

/-- The instruction at position `k` reads the cell, and no one in front of it writes it. -/
structure ReadsAt (is : List Instruction) (c : Cell) (k : Nat) : Prop where
  reads : ∃ i, is[k]? = some i ∧ c ∈ i.uses
  kept : ∀ j < k, ∀ i, is[j]? = some i → c ∉ i.defs

theorem readsAt_cons_zero : ReadsAt (i :: rest) c 0 ↔ c ∈ i.uses := by
  constructor
  · rintro ⟨⟨j, hj, hc⟩, -⟩
    obtain rfl : i = j := by simpa using hj
    exact hc
  · exact fun hc => ⟨⟨i, rfl, hc⟩, fun j hj => absurd hj (Nat.not_lt_zero j)⟩

theorem readsAt_cons_succ : ReadsAt (i :: rest) c (k + 1) ↔ c ∉ i.defs ∧ ReadsAt rest c k := by
  constructor
  · rintro ⟨hreads, hkept⟩
    refine ⟨hkept 0 (Nat.zero_lt_succ k) i rfl, by simpa using hreads, fun j hj e he => ?_⟩
    exact hkept (j + 1) (Nat.succ_lt_succ hj) e (by simpa using he)
  · rintro ⟨hi, hreads, hkept⟩
    refine ⟨by simpa using hreads, fun j hj e he => ?_⟩
    cases j with
    | zero =>
        obtain rfl : i = e := by simpa using he
        exact hi
    | succ j => exact hkept j (Nat.lt_of_succ_lt_succ hj) e (by simpa using he)

/-- The steps, counted from `step` on, to those of `left` instructions that read one of the cells
before it is written. -/
def readSteps (pending : RegSet) (step left : Nat) (is : List Instruction) : Set Nat :=
  {d | ∃ k < left, d = step + k ∧ ∃ c ∈ pending, ReadsAt is c k}

theorem readSteps_empty : readSteps ∅ step left is = ∅ := by
  ext d
  simp [readSteps, RegSet.not_mem_empty]

/-- If the first instruction reads none of the cells, the walk goes on behind it, with those that
it does not write. -/
theorem readSteps_cons (h : i.uses ∩ pending = ∅) :
    readSteps pending step (left + 1) (i :: rest) =
      readSteps (pending \ i.defs) (step + 1) left rest := by
  have hunread : ∀ c ∈ pending, ¬ ReadsAt (i :: rest) c 0 := by
    intro c hc hreads
    refine RegSet.not_mem_empty c (h ▸ ?_)
    exact (RegSet.mem_inter c i.uses pending).mpr ⟨readsAt_cons_zero.mp hreads, hc⟩
  ext d
  constructor
  · rintro ⟨k, hk, rfl, c, hc, hreads⟩
    cases k with
    | zero => exact absurd hreads (hunread c hc)
    | succ k =>
        obtain ⟨hkept, hreads⟩ := readsAt_cons_succ.mp hreads
        exact ⟨k, Nat.lt_of_succ_lt_succ hk, by omega, c,
          (RegSet.mem_sdiff c pending i.defs).mpr ⟨hc, hkept⟩, hreads⟩
  · rintro ⟨k, hk, rfl, c, hc, hreads⟩
    obtain ⟨hc, hkept⟩ := (RegSet.mem_sdiff c pending i.defs).mp hc
    exact ⟨k + 1, Nat.succ_lt_succ hk, by omega, c, hc, readsAt_cons_succ.mpr ⟨hkept, hreads⟩⟩

/-- If the first instruction reads one of the cells, its step is the least. -/
theorem isLeast_readSteps_cons (h : i.uses ∩ pending ≠ ∅) :
    IsLeast (readSteps pending step (left + 1) (i :: rest)) step := by
  obtain ⟨c, hc⟩ := RegSet.exists_mem_of_ne_empty h
  obtain ⟨huses, hpending⟩ := (RegSet.mem_inter c i.uses pending).mp hc
  constructor
  · exact ⟨0, Nat.zero_lt_succ left, rfl, c, hpending, readsAt_cons_zero.mpr huses⟩
  · rintro d ⟨k, -, rfl, -⟩
    exact Nat.le_add_right step k

/-- The walk stops at the least step, for all cells that it looks for together. -/
theorem stepsToUse?_eq_some_iff :
    stepsToUse? pending step left is = some d ↔ IsLeast (readSteps pending step left is) d := by
  -- By `readSteps_cons` the steps that are left are those of the smaller set behind the first
  -- instruction. They are none at all once that set is empty, so it is right to give up there.
  fun_induction stepsToUse? pending step left is with
  | case1 pending step left i rest huses =>
      have hleast : IsLeast (readSteps pending step (left + 1) (i :: rest)) step :=
        isLeast_readSteps_cons huses
      rw [Option.some.injEq]
      exact ⟨fun h => h ▸ hleast, fun h => hleast.unique h⟩
  | case2 pending step left i rest huses remaining hempty =>
      rw [readSteps_cons (not_not.mp huses), show pending \ i.defs = ∅ from hempty,
        readSteps_empty]
      exact iff_of_false (Option.some_ne_none _).symm fun h => h.1
  | case3 pending step left i rest huses remaining hempty ih =>
      rw [readSteps_cons (not_not.mp huses), ih]
  | case4 left pending step is hend =>
      refine iff_of_false (Option.some_ne_none _).symm fun h => ?_
      obtain ⟨k, hk, -, c, -, ⟨i, hi, -⟩, -⟩ := h.1
      cases left with
      | zero => exact Nat.not_lt_zero k hk
      | succ left =>
          cases is with
          | nil => simp at hi
          | cons i rest => exact hend left i rest rfl rfl

/-! ### Round the body of a loop -/

variable {body : List Instruction} {r : Gpr} {p a : Nat}

/-- The register carries a value from the instruction at position `p` of the body to the one that
is `d` steps further round it. -/
structure Carries (body : List Instruction) (r : Gpr) (p d : Nat) : Prop where
  defines : ∃ i, body[p]? = some i ∧ .gpr r ∈ i.defs
  uses : ∃ i, body[(p + d) % body.length]? = some i ∧ .gpr r ∈ i.uses
  kept : ∀ k, 0 < k → k < d → ∀ i, body[(p + k) % body.length]? = some i → .gpr r ∉ i.defs

/-- The distances, up to a full turn, over which a register other than the stack pointer carries a
value from the instruction at position `p`. -/
def useDistances (body : List Instruction) (p : Nat) : Set Nat :=
  {d | 1 ≤ d ∧ d ≤ body.length ∧ ∃ r, r ≠ .sp ∧ Carries body r p d}

/-- Behind position `p` of two copies of the body lies one turn round it, back to `p` itself. -/
theorem getElem?_drop_twice (hp : p < body.length) (hk : k < body.length) :
    ((body ++ body).drop (p + 1))[k]? = body[(p + (1 + k)) % body.length]? := by
  rw [List.getElem?_drop, List.getElem?_append, Nat.add_assoc]
  split
  · rename_i hlt
    rw [Nat.mod_eq_of_lt hlt]
  · rename_i hge
    rw [Nat.mod_eq_sub_mod (Nat.not_lt.mp hge), Nat.mod_eq_of_lt (by omega)]

/-- Reads behind position `p`, along two copies of the body, are reads round the body. -/
theorem readsAt_drop_twice (hi : body[p]? = some i) (hr : .gpr r ∈ i.defs) (hk : k < body.length) :
    ReadsAt ((body ++ body).drop (p + 1)) (.gpr r) k ↔ Carries body r p (1 + k) := by
  have hp : p < body.length := (List.getElem?_eq_some_iff.mp hi).1
  constructor
  · rintro ⟨hreads, hkept⟩
    rw [getElem?_drop_twice hp hk] at hreads
    refine ⟨⟨i, hi, hr⟩, hreads, fun j hpos hj e he => hkept (j - 1) (by omega) e ?_⟩
    rw [getElem?_drop_twice hp (by omega), Nat.add_sub_cancel' hpos]
    exact he
  · rintro ⟨-, huses, hkept⟩
    rw [← getElem?_drop_twice hp hk] at huses
    refine ⟨huses, fun j hj e he => hkept (1 + j) (by omega) (by omega) e ?_⟩
    rwa [getElem?_drop_twice hp (by omega)] at he

/-- What the walk looks for: the registers that the instruction writes. -/
theorem mem_written {c : Cell} : c ∈ i.defs.onlyGprs.erase (.gpr .sp) ↔
    ∃ r, c = .gpr r ∧ r ≠ .sp ∧ .gpr r ∈ i.defs := by
  rw [RegSet.mem_erase, RegSet.mem_onlyGprs]
  constructor
  · rintro ⟨⟨hc, r, rfl⟩, hne⟩
    exact ⟨r, rfl, fun h => hne (h ▸ rfl), hc⟩
  · rintro ⟨r, rfl, hne, hr⟩
    exact ⟨⟨hr, r, rfl⟩, fun h => hne (Cell.gpr.inj h)⟩

/-- The walk from an instruction goes over all its distances round the body. -/
theorem readSteps_body (hi : body[p]? = some i) :
    readSteps (i.defs.onlyGprs.erase (.gpr .sp)) 1 body.length ((body ++ body).drop (p + 1)) =
      useDistances body p := by
  ext d
  constructor
  · rintro ⟨k, hk, rfl, c, hc, hreads⟩
    obtain ⟨r, rfl, hne, hr⟩ := mem_written.mp hc
    exact ⟨Nat.le_add_right 1 k, by omega, r, hne, (readsAt_drop_twice hi hr hk).mp hreads⟩
  · rintro ⟨hpos, hle, r, hne, hcarries⟩
    obtain ⟨e, he, hr⟩ := hcarries.defines
    obtain rfl : i = e := Option.some.inj (hi.symm.trans he)
    obtain ⟨k, rfl⟩ := Nat.exists_eq_add_of_le hpos
    have hk : k < body.length := by omega
    exact ⟨k, hk, rfl, .gpr r, mem_written.mpr ⟨r, rfl, hne, hr⟩,
      (readsAt_drop_twice hi hr hk).mpr hcarries⟩

/-- The entry of the instruction at a position of the body, if it has one. -/
def distanceOf? (body : List Instruction) (x : Instruction × Nat) : Option (Nat × Nat) :=
  let pending := x.1.defs.onlyGprs.erase (.gpr .sp)
  if pending = ∅ then none
  else (stepsToUse? pending 1 body.length ((body ++ body).drop (x.2 + 1))).map fun d =>
    (x.1.address, d)

theorem distanceOf?_eq_some_iff (hi : body[p]? = some i) :
    distanceOf? body (i, p) = some (a, d) ↔ i.address = a ∧ IsLeast (useDistances body p) d := by
  rw [distanceOf?, ← readSteps_body hi, ← stepsToUse?_eq_some_iff]
  split
  · -- An instruction that writes no register is passed over; no walk from it would find a read.
    rename_i hempty
    refine iff_of_false (Option.some_ne_none _).symm fun h => ?_
    rw [hempty, stepsToUse?_eq_some_iff, readSteps_empty] at h
    exact h.2.1
  · simp only [Option.map_eq_some_iff, Prod.mk.injEq]
    exact ⟨fun ⟨e, he, ha, hd⟩ => ⟨ha, hd ▸ he⟩, fun ⟨ha, hd⟩ => ⟨d, hd, ha, rfl⟩⟩

namespace FlowGraph

variable {g : FlowGraph} {l : Loop} {s : Source}

/-- The instructions of the blocks of a loop. -/
def loopBody (g : FlowGraph) (l : Loop) : List Instruction :=
  l.blocks.flatMap fun n => ((g.block? n).map Block.instructions).getD []

theorem defUseDistances_eq : defUseDistances g l =
    (g.loopBody l).zipIdx.filterMap (distanceOf? (g.loopBody l)) := by
  simp only [defUseDistances, List.getElem?_toArray]
  rfl

theorem mem_instructionsOf {n : Nat} :
    i ∈ ((g.block? n).map Block.instructions).getD [] ↔
      ∃ b, g.block? n = some b ∧ i ∈ b.instructions := by
  cases g.block? n <;> simp

theorem mem_loopBody : i ∈ g.loopBody l ↔
    ∃ n ∈ l.blocks, ∃ b, g.block? n = some b ∧ i ∈ b.instructions := by
  simp only [loopBody, List.mem_flatMap, mem_instructionsOf]

/-- Blocks come in the order of their numbers, and so of their addresses. -/
theorem increasing_loopBody (hg : g.Sequenced) (hl : l.blocks.Pairwise (· < ·)) :
    (g.loopBody l).Pairwise fun i j => i.address < j.address := by
  obtain ⟨hwithin, hacross⟩ := List.pairwise_flatMap.mp hg.increasing
  refine List.pairwise_flatMap.mpr ⟨fun n _ => ?_, hl.imp fun {m n} hlt i hi j hj => ?_⟩
  · cases hb : g.block? n with
    | none => exact List.Pairwise.nil
    | some b => exact hwithin b (List.mem_of_getElem? hb)
  · obtain ⟨b, hb, hi⟩ := mem_instructionsOf.mp hi
    obtain ⟨c, hc, hj⟩ := mem_instructionsOf.mp hj
    obtain ⟨hm, rfl⟩ := List.getElem?_eq_some_iff.mp hb
    obtain ⟨hn, rfl⟩ := List.getElem?_eq_some_iff.mp hc
    exact List.pairwise_iff_getElem.mp hacross m n hm hn hlt i hi j hj

theorem mem_defUseDistances : (a, d) ∈ defUseDistances g l ↔ ∃ p i, (g.loopBody l)[p]? = some i ∧
    i.address = a ∧ IsLeast (useDistances (g.loopBody l) p) d := by
  rw [defUseDistances_eq, List.mem_filterMap]
  constructor
  · rintro ⟨⟨i, p⟩, hmem, hfound⟩
    have hi := List.mem_zipIdx_iff_getElem?.mp hmem
    exact ⟨p, i, hi, (distanceOf?_eq_some_iff hi).mp hfound⟩
  · rintro ⟨p, i, hi, hleast⟩
    exact ⟨(i, p), List.mem_zipIdx_iff_getElem?.mpr hi, (distanceOf?_eq_some_iff hi).mpr hleast⟩

/-- Instructions of a body are told apart by their addresses. -/
theorem position_unique {is : List Instruction} {i j : Instruction} {p q : Nat}
    (hbody : is.Pairwise fun i j => i.address < j.address) (hi : is[p]? = some i)
    (hj : is[q]? = some j) (haddress : j.address = i.address) : q = p := by
  have hnodup : (is.map Instruction.address).Nodup :=
    (List.pairwise_map.mpr hbody).imp Nat.ne_of_lt
  have hq : q < (is.map Instruction.address).length := by
    rw [List.length_map]
    exact (List.getElem?_eq_some_iff.mp hj).1
  refine (List.getElem?_inj hq hnodup).mp ?_
  rw [List.getElem?_map, List.getElem?_map, hi, hj, Option.map_some, Option.map_some, haddress]

/-- No address has two distances. -/
theorem increasing_keys_defUseDistances
    (hbody : (g.loopBody l).Pairwise fun i j => i.address < j.address) :
    ((defUseDistances g l).map Prod.fst).Pairwise (· < ·) := by
  have hplaces : (g.loopBody l).zipIdx.Pairwise fun x y => x.1.address < y.1.address := by
    rw [← List.pairwise_map (R := fun i j : Instruction => i.address < j.address),
      List.zipIdx_map_fst]
    exact hbody
  rw [defUseDistances_eq, List.pairwise_map, List.pairwise_filterMap]
  refine hplaces.imp_of_mem fun {x y} hx hy hlt e he f hf => ?_
  have haddress := (distanceOf?_eq_some_iff (List.mem_zipIdx_iff_getElem?.mp hx)).mp he
  have haddress' := (distanceOf?_eq_some_iff (List.mem_zipIdx_iff_getElem?.mp hy)).mp hf
  rwa [← haddress.1, ← haddress'.1]

/-- The distances tell of the instructions of a loop, in the order of their addresses, the least
distance over which one of them carries a value, where there is such a distance. -/
structure HasDistances (g : FlowGraph) (l : Loop) (distances : List (Nat × Nat)) : Prop where
  mem_body_iff (i : Instruction) : i ∈ g.loopBody l ↔
    ∃ n ∈ l.blocks, ∃ b, g.block? n = some b ∧ i ∈ b.instructions
  increasing : (g.loopBody l).Pairwise fun i j => i.address < j.address
  mem_iff {p : Nat} {i : Instruction} (d : Nat) : (g.loopBody l)[p]? = some i →
    ((i.address, d) ∈ distances ↔ IsLeast (useDistances (g.loopBody l) p) d)
  exists_instruction : ∀ x ∈ distances, ∃ i ∈ g.loopBody l, i.address = x.1
  increasing_keys : (distances.map Prod.fst).Pairwise (· < ·)

theorem Sequenced.hasDistances (hg : g.Sequenced) (hl : l.blocks.Pairwise (· < ·)) :
    g.HasDistances l (defUseDistances g l) := by
  have hbody := increasing_loopBody hg hl
  refine ⟨fun i => mem_loopBody, hbody, fun {p i} d hi => ?_, fun x hx => ?_, ?_⟩
  · rw [mem_defUseDistances]
    constructor
    · rintro ⟨q, j, hj, haddress, hleast⟩
      obtain rfl := position_unique hbody hi hj haddress
      exact hleast
    · exact fun hleast => ⟨p, i, hi, rfl, hleast⟩
  · obtain ⟨p, i, hi, haddress, -⟩ := mem_defUseDistances.mp hx
    exact ⟨i, List.mem_of_getElem? hi, haddress⟩
  · exact increasing_keys_defUseDistances hbody

/-- In every graph that is built, each loop has the distances that the walk finds. -/
theorem hasDistances_of_build {is : List Instruction} (h : build s is = .ok g)
    (hl : l ∈ g.setLoops.loops) :
    g.setLoops.HasDistances l (defUseDistances g.setLoops l) :=
  (sequenced_of_build h).setLoops.hasDistances (increasing_of_mem_setLoops hl)

/-! A loop of one block. The copy at `0x1002` is written over by the next instruction before it is
read, and the counter at `0x1006` is not read until its own next turn. -/

namespace Copies

def source : Source :=
  ⟨⟨0x1000, 11⟩, [0xff, 0xc0, 0x89, 0xc1, 0x89, 0xd1, 0xff, 0xce, 0x75, 0xf6, 0xc3], []⟩

def instructions : List Instruction := [
  { address := 0x1000, bytes := [0xff, 0xc0], opcodeClass := .int, mnemonic := "inc"
    uses := .singleton (.gpr .ax), defs := .singleton (.gpr .ax) },
  { address := 0x1002, bytes := [0x89, 0xc1], opcodeClass := .int, mnemonic := "mov"
    uses := .singleton (.gpr .ax), defs := .singleton (.gpr .cx) },
  { address := 0x1004, bytes := [0x89, 0xd1], opcodeClass := .int, mnemonic := "mov"
    uses := .singleton (.gpr .dx), defs := .singleton (.gpr .cx) },
  { address := 0x1006, bytes := [0xff, 0xce], opcodeClass := .int, mnemonic := "dec"
    uses := .singleton (.gpr .si), defs := (RegSet.singleton (.gpr .si)).insert (.flag .zero) },
  { address := 0x1008, bytes := [0x75, 0xf6], opcodeClass := .condBranch, mnemonic := "jnz"
    operands := [Operand.relative (-10) 1 1], uses := .singleton (.flag .zero) },
  { address := 0x100a, bytes := [0xc3], opcodeClass := .return, mnemonic := "ret"
    uses := .singleton (.gpr .ax) }]

def graph : FlowGraph :=
  match build source instructions with
  | .ok g => g
  | .error _ => { base := 0, size := 0, pieces := [] }

def loop : Loop := { head := 0, tail := 0, blocks := [0] }

theorem build_eq : build source instructions = .ok graph := by cbv

theorem loops_eq : graph.setLoops.loops = [loop] := by cbv

example : defUseDistances graph.setLoops loop = [(0x1000, 1), (0x1006, 5)] := by cbv

end Copies

theorem hasDistances_copies : build Copies.source Copies.instructions = .ok Copies.graph ∧
    Copies.loop ∈ Copies.graph.setLoops.loops ∧
    Copies.graph.setLoops.HasDistances Copies.loop
      (defUseDistances Copies.graph.setLoops Copies.loop) := by
  have hl : Copies.loop ∈ Copies.graph.setLoops.loops := by
    rw [Copies.loops_eq]
    exact List.mem_singleton_self _
  exact ⟨Copies.build_eq, hl, hasDistances_of_build Copies.build_eq hl⟩

end FlowGraph

end BinTrace
