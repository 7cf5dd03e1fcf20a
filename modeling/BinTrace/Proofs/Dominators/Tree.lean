import BinTrace.Proofs.Dominators.Immediate
import Mathlib.Data.Finset.Basic

/-!
From numbers to nodes. A path from the entry meets nodes with numbers only, so the dominators of a
node are those of its number, and what lies above it in the recorded tree are all its dominators.
-/

namespace BinTrace

open BinTrace.Numbering

/-- The edges of a graph as a relation. -/
def HasEdge (edges : Edges) (v w : Nat) : Prop := w ∈ edges.getD v []

variable {edges : Edges} {t : Numbering edges.size} {entry a b d i j : Nat}

namespace Numbering

/-- Nodes go by their numbers. Those that have none go by a number that no node has. -/
def Names (t : Numbering edges.size) (i d : Nat) : Prop := ∀ j < t.nodes.size, i = j ↔ d = t.nodeAt j

theorem names_nodeAt (ht : t.Matched) (hi : i < t.nodes.size) : t.Names i (t.nodeAt i) :=
  fun _ hj => (nodeAt_inj ht hi hj).symm

theorem names_of_unnumbered (ht : t.Matched) (hd : t.number? d = none) : t.Names t.nodes.size d := by
  intro j hj
  have hne : d ≠ t.nodeAt j := by
    rintro rfl
    rw [number?_nodeAt ht hj] at hd
    cases hd
  exact ⟨fun h => absurd h hj.ne', fun h => absurd h hne⟩

theorem exists_names (ht : t.Matched) (d : Nat) : ∃ i, t.Names i d := by
  cases hd : t.number? d with
  | none => exact ⟨_, names_of_unnumbered ht hd⟩
  | some i =>
      have hi := (ht d i).mp hd
      exact ⟨i, eq_nodeAt hi ▸ names_nodeAt ht (lt_size hi)⟩

namespace Walking

theorem nodeAt_zero (hw : Walking edges entry t []) : t.nodeAt 0 = entry := (eq_nodeAt hw.first).symm

/-- A way from the entry meets nodes with numbers only. -/
theorem exists_number (hw : Walking edges entry t []) (hd : t.Names i d)
    (h : Around (HasEdge edges) entry d b) :
    ∃ j, j < t.nodes.size ∧ b = t.nodeAt j ∧ Around (t.Edge edges) 0 i j := by
  induction h with
  | entry hne =>
      have hpos := lt_size hw.first
      refine ⟨0, hpos, hw.nodeAt_zero.symm, .entry fun h => hne ?_⟩
      rw [(hd 0 hpos).mp h, hw.nodeAt_zero]
  | @step x y _ hedge hne ih =>
      obtain ⟨j, hj, rfl, haround⟩ := ih
      obtain ⟨k, hk⟩ := hw.closed (nodes_eq_some hj) hedge
      have hy := eq_nodeAt hk
      refine ⟨k, lt_size hk, hy, haround.step ⟨_, y, nodes_eq_some hj, hk, hedge⟩ fun h => hne ?_⟩
      rw [(hd k (lt_size hk)).mp h, hy]

theorem around_iff (hw : Walking edges entry t []) (hd : t.Names i d) (hj : j < t.nodes.size) :
    Around (HasEdge edges) entry d (t.nodeAt j) ↔ Around (t.Edge edges) 0 i j := by
  constructor
  · intro h
    obtain ⟨k, hk, heq, haround⟩ := hw.exists_number hd h
    rwa [(nodeAt_inj hw.matched hj hk).mp heq]
  · intro h
    induction h with
    | entry hne =>
        rw [hw.nodeAt_zero]
        exact .entry fun h => hne ((hd 0 hj).mpr (h.trans hw.nodeAt_zero.symm))
    | @step x y _ hedge hne ih =>
        obtain ⟨u, v, hu, hv, huv⟩ := hedge
        refine (ih (lt_size hu)).step ?_ fun h => hne ((hd y hj).mpr h)
        rw [← eq_nodeAt hu, ← eq_nodeAt hv]
        exact huv

theorem dominates_iff (hw : Walking edges entry t []) (hd : t.Names i d) (hj : j < t.nodes.size) :
    Dominates (HasEdge edges) entry d (t.nodeAt j) ↔ ¬ Around (t.Edge edges) 0 i j := by
  rw [BinTrace.dominates_iff, hw.around_iff hd hj]

/-- The walk numbers exactly what can be reached from the entry. -/
theorem reaches_iff (hw : Walking edges entry t []) :
    Reaches (HasEdge edges) entry b ↔ ∃ j, j < t.nodes.size ∧ b = t.nodeAt j := by
  constructor
  · rintro ⟨path, hpath⟩
    -- The path leads around any node that it does not meet.
    obtain ⟨d, hd⟩ := Infinite.exists_notMem_finset path.toFinset
    rw [List.mem_toFinset] at hd
    have haround : Around (HasEdge edges) entry d b := by
      by_contra h
      exact hd (BinTrace.dominates_iff.mpr h path hpath)
    obtain ⟨i, hi⟩ := exists_names hw.matched d
    obtain ⟨j, hj, heq, -⟩ := hw.exists_number hi haround
    exact ⟨j, hj, heq⟩
  · rintro ⟨j, hj, rfl⟩
    have hout : t.number? edges.size = none := by
      simp [number?]
    have haround := hw.depthFirst.around_of_lt hj hj
    rw [← hw.around_iff (names_of_unnumbered hw.matched hout) hj] at haround
    obtain ⟨path, hpath, -⟩ := haround.exists_path
    exact ⟨path, hpath⟩

end Walking

end Numbering

namespace Recorded

variable {idom : Nat → Option Nat}

/-- The immediate dominator is a strict dominator that all strict dominators dominate. -/
theorem exists_idom (hr : Recorded t (t.Edge edges) idom) (hw : Walking edges entry t [])
    (hb : Reaches (HasEdge edges) entry b) (hne : b ≠ entry) :
    ∃ d, idom b = some d ∧ StrictlyDominates (HasEdge edges) entry d b ∧
      ∀ c, StrictlyDominates (HasEdge edges) entry c b → Dominates (HasEdge edges) entry c d := by
  obtain ⟨j, hj, rfl⟩ := hw.reaches_iff.mp hb
  have hpos : 0 < j := by
    rcases Nat.eq_zero_or_pos j with rfl | hpos
    · exact absurd hw.nodeAt_zero hne
    · exact hpos
  obtain ⟨d, hd, hidom, hisIdom⟩ := hr.found j hpos hj
  have hdsize : d < t.nodes.size := by omega
  refine ⟨t.nodeAt d, hidom, ⟨fun h => ?_, ?_⟩, fun c hc => ?_⟩
  · exact hisIdom.ne ((nodeAt_inj hw.matched hdsize hj).mp h)
  · rw [hw.dominates_iff (names_nodeAt hw.matched hdsize) hj]
    exact hisIdom.dominates
  · obtain ⟨i, hi⟩ := exists_names hw.matched c
    obtain ⟨hcne, hcdom⟩ := hc
    rw [hw.dominates_iff hi hj] at hcdom
    rw [hw.dominates_iff hi hdsize]
    exact hisIdom.nearest (fun h => hcne ((hi j hj).mp h)) hcdom

theorem idom_entry (hr : Recorded t (t.Edge edges) idom) (hw : Walking edges entry t []) :
    idom entry = none := by
  rw [← hw.nodeAt_zero]
  exact hr.root

theorem idom_of_not_reaches (hr : Recorded t (t.Edge edges) idom) (hw : Walking edges entry t [])
    (hb : ¬ Reaches (HasEdge edges) entry b) : idom b = none := by
  refine hr.unnumbered b ?_
  by_contra hsome
  obtain ⟨j, hj⟩ := Option.ne_none_iff_exists'.mp hsome
  have hnode := (hw.matched b j).mp hj
  exact hb (hw.reaches_iff.mpr ⟨j, lt_size hnode, eq_nodeAt hnode⟩)

end Recorded

namespace IsIdom

/-- Another node dominates as far as it dominates the immediate dominator. -/
theorem around_iff {E : Nat → Nat → Prop} (h : IsIdom E d j) (hne : i ≠ j) :
    Around E 0 i j ↔ Around E 0 i d := by
  constructor
  · intro hij
    exact (hij.of_ne d).resolve_left h.dominates
  · intro hid
    by_contra hij
    exact h.nearest hne hij hid

end IsIdom

namespace FlowGraph

variable {idoms : Array (Option Nat)} {fuel : Nat}

/-- The walk up from a block that can be reached comes to its end, at the latest at the entry. -/
theorem dominatesWithin_nodeAt (hr : Recorded t (t.Edge edges) fun v => idoms.getD v none)
    (ha : t.Names i a) (hj : j < t.nodes.size) (hfuel : j < fuel) :
    ∃ answer, dominatesWithin idoms a fuel (t.nodeAt j) = some answer ∧
      (answer = true ↔ ¬ Around (t.Edge edges) 0 i j) := by
  -- Each step leads to a lesser number.
  induction fuel generalizing j with
  | zero => omega
  | succ fuel ih =>
      rw [dominatesWithin]
      by_cases hij : i = j
      · rw [if_pos ((ha j hj).mp hij).symm]
        exact ⟨true, rfl, by simpa using fun h => h.ne hij⟩
      · rw [if_neg fun h => hij ((ha j hj).mpr h.symm)]
        rcases Nat.eq_zero_or_pos j with rfl | hpos
        · rw [hr.root]
          exact ⟨false, rfl, by simpa using .entry hij⟩
        · obtain ⟨d, hd, hidom, hisIdom⟩ := hr.found j hpos hj
          rw [hidom, hisIdom.around_iff hij]
          exact ih (by omega) (by omega)

theorem dominatesWithin_of_root (hb : idoms.getD b none = none) (hfuel : 0 < fuel) :
    dominatesWithin idoms a fuel b = some (decide (b = a)) := by
  obtain ⟨fuel, rfl⟩ := Nat.exists_eq_succ_of_ne_zero hfuel.ne'
  rw [dominatesWithin, hb]
  by_cases h : b = a
  · simp [h]
  · simp [h]

end FlowGraph

end BinTrace
