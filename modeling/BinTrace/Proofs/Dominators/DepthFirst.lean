import BinTrace.Proofs.Dominators.Paths
import Mathlib.Logic.Relation
import Mathlib.Order.Lattice.Nat

/-!
Depth-first trees and semidominators. Nodes go by their numbers, of which the entry has the first.
Everything about the tree comes from one fact: an edge from below a node, to a number that is not
less than that of the node, leads to below the node.
-/

namespace BinTrace

open Relation

/-- What a depth-first walk knows about a graph with edges `E`; `P` relates parents to children. -/
structure DepthFirst (size : Nat) (E P : Nat → Nat → Prop) : Prop where
  edge_lt {i j : Nat} : E i j → i < size ∧ j < size
  parent_lt {p i : Nat} : P p i → p < i
  parent_edge {p i : Nat} : P p i → E p i
  parent_unique {p q i : Nat} : P p i → P q i → p = q
  exists_parent {i : Nat} : 0 < i → i < size → ∃ p, P p i
  /-- The next node is found from the node that was numbered last, or from above it. -/
  next {p i : Nat} : P p (i + 1) → ReflTransGen P p i
  /-- Edges to greater numbers lead down the tree. -/
  forward {i j : Nat} : E i j → i < j → ReflTransGen P i j

/-- A path from `s` that passes through numbers greater than `m` only, its ends apart. -/
inductive Leads (E : Nat → Nat → Prop) (m s : Nat) : Nat → Prop
  | edge {y : Nat} (hedge : E s y) : Leads E m s y
  | step {x y : Nat} (hx : Leads E m s x) (hm : m < x) (hedge : E x y) : Leads E m s y

theorem Leads.mono {E : Nat → Nat → Prop} {m k s v : Nat} (h : Leads E m s v) (hle : k ≤ m) :
    Leads E k s v := by
  induction h with
  | edge hedge => exact .edge hedge
  | step _ hm hedge ih => exact .step ih (by omega) hedge

/-- The least number from which greater ones lead to `w`. -/
noncomputable def semidominator (E : Nat → Nat → Prop) (w : Nat) : Nat := sInf {s | Leads E w s w}

/-- The immediate dominator: a strict dominator that all strict dominators dominate. -/
structure IsIdom (E : Nat → Nat → Prop) (d w : Nat) : Prop where
  ne : d ≠ w
  dominates : ¬ Around E 0 d w
  nearest {c : Nat} : c ≠ w → ¬ Around E 0 c w → ¬ Around E 0 c d

namespace DepthFirst

variable {size : Nat} {E P : Nat → Nat → Prop} {m s u v w x y d : Nat}

theorem above_le (t : DepthFirst size E P) (h : ReflTransGen P u v) : u ≤ v := by
  induction h with
  | refl => exact Nat.le_refl _
  | tail _ hp ih => exact ih.trans (t.parent_lt hp).le

/-- The nodes above a node lie above each other. -/
theorem above_of_le (t : DepthFirst size E P) (hu : ReflTransGen P u x) (hv : ReflTransGen P v x)
    (hle : u ≤ v) : ReflTransGen P u v := by
  induction hv with
  | refl => exact hu
  | @tail p x hp hpx ih =>
      rcases ReflTransGen.cases_tail hu with heq | ⟨q, hq, hqx⟩
      · have := t.above_le hp
        have := t.parent_lt hpx
        omega
      · obtain rfl := t.parent_unique hqx hpx
        exact ih hq

/-- A node that is strictly above another one is above the parent of that one. -/
theorem above_parent (t : DepthFirst size E P) (h : ReflTransGen P u v) (hne : u ≠ v)
    (hp : P x v) : ReflTransGen P u x := by
  rcases ReflTransGen.cases_tail h with heq | ⟨q, hq, hqv⟩
  · exact absurd heq.symm hne
  · obtain rfl := t.parent_unique hqv hp
    exact hq

/-- The numbers below a node are an interval. -/
theorem above_of_between (t : DepthFirst size E P) (h : ReflTransGen P u x) (hx : x < size)
    (huy : u ≤ y) (hyx : y ≤ x) : ReflTransGen P u y := by
  -- One number at a time: the parent of the next number is above `y` as well.
  obtain ⟨k, rfl⟩ := Nat.exists_eq_add_of_le hyx
  clear hyx
  induction k with
  | zero => exact h
  | succ k ih =>
      obtain ⟨p, hp⟩ := t.exists_parent (Nat.succ_pos (y + k)) hx
      have hup : ReflTransGen P u p := t.above_parent h (by omega) hp
      exact ih (hup.trans (t.next hp)) (by omega)

theorem above_edge (t : DepthFirst size E P) (h : ReflTransGen P u x) (hxy : E x y) (huy : u ≤ y) :
    ReflTransGen P u y := by
  by_cases hlt : x < y
  · exact h.trans (t.forward hxy hlt)
  · exact t.above_of_between h (t.edge_lt hxy).1 huy (by omega)

/-! Paths through greater numbers. -/

theorem leads_above (t : DepthFirst size E P) (h : Leads E m s x) (hm : m < x)
    (hxy : ReflTransGen P x y) : Leads E m s y := by
  induction hxy with
  | refl => exact h
  | tail hxy hp ih => exact .step ih (hm.trans_le (t.above_le hxy)) (t.parent_edge hp)

theorem above_of_leads (t : DepthFirst size E P) (h : Leads E m s v) (hsm : s ≤ m) (hsv : s ≤ v) :
    ReflTransGen P s v := by
  induction h with
  | edge hedge => exact t.above_edge .refl hedge hsv
  | step _ hm hedge ih => exact t.above_edge (ih (by omega)) hedge hsv

/-- Above the end of a path through greater numbers there is a node to which a part of the path
leads through numbers greater than its own. -/
theorem exists_above_of_leads (t : DepthFirst size E P) (h : Leads E m s v) (hm : m < v) :
    ∃ u, ReflTransGen P u v ∧ m < u ∧ Leads E u s u := by
  induction h with
  | edge hedge => exact ⟨_, .refl, hm, .edge hedge⟩
  | @step x y _ hx hxy ih =>
      obtain ⟨u, hux, hmu, hu⟩ := ih hx
      by_cases huy : u ≤ y
      · exact ⟨u, t.above_edge hux hxy huy, hmu, hu⟩
      · -- The path has come back to a lesser number, which is its own witness.
        have hle := t.above_le hux
        have hsx : Leads E y s x := t.leads_above (hu.mono (by omega)) (by omega) hux
        exact ⟨y, .refl, hm, .step hsx (by omega) hxy⟩

/-! Semidominators. -/

theorem semidominator_le (h : Leads E w s w) : semidominator E w ≤ s := Nat.sInf_le h

theorem leads_semidominator (t : DepthFirst size E P) (hpos : 0 < w) (hw : w < size) :
    Leads E w (semidominator E w) w := by
  obtain ⟨p, hp⟩ := t.exists_parent hpos hw
  have hmem : p ∈ {s | Leads E w s w} := .edge (t.parent_edge hp)
  exact Nat.sInf_mem ⟨p, hmem⟩

theorem semidominator_lt (t : DepthFirst size E P) (hpos : 0 < w) (hw : w < size) :
    semidominator E w < w := by
  obtain ⟨p, hp⟩ := t.exists_parent hpos hw
  exact (semidominator_le (.edge (t.parent_edge hp))).trans_lt (t.parent_lt hp)

theorem above_semidominator (t : DepthFirst size E P) (hpos : 0 < w) (hw : w < size) :
    ReflTransGen P (semidominator E w) w :=
  have hlt := t.semidominator_lt hpos hw
  t.above_of_leads (t.leads_semidominator hpos hw) hlt.le hlt.le

/-- The semidominator is found from the edges to `w`: an edge from a greater number counts for all
greater numbers above its source. -/
theorem semidominator_eq (t : DepthFirst size E P) (hpos : 0 < w) (hw : w < size)
    (hsmall : m = w ∨ Leads E w m w)
    (hedges : ∀ v, E v w → (v ≤ w → m ≤ v) ∧
      ∀ u, ReflTransGen P u v → w < u → m ≤ semidominator E u) : m = semidominator E w := by
  refine Nat.le_antisymm ?_ ?_
  · have hle : ∀ s, Leads E w s w → m ≤ s := by
      intro s hs
      cases hs with
      | edge hedge =>
          by_cases hsw : s ≤ w
          · exact (hedges s hedge).1 hsw
          · obtain ⟨p, hp⟩ := t.exists_parent hpos hw
            have hmp := (hedges p (t.parent_edge hp)).1 (t.parent_lt hp).le
            have := t.parent_lt hp
            omega
      | @step x _ hx hwx hedge =>
          obtain ⟨u, hux, hwu, hu⟩ := t.exists_above_of_leads hx hwx
          exact ((hedges x hedge).2 u hux hwu).trans (semidominator_le hu)
    exact hle _ (t.leads_semidominator hpos hw)
  · rcases hsmall with rfl | hm
    · exact (t.semidominator_lt hpos hw).le
    · exact semidominator_le hm

/-! Ways around a node. -/

theorem around_of_lt (t : DepthFirst size E P) (hx : x < size) (hlt : x < d) : Around E 0 d x := by
  induction x using Nat.strongRecOn with
  | ind x ih =>
      rcases Nat.eq_zero_or_pos x with rfl | hpos
      · exact .entry (by omega)
      · obtain ⟨p, hp⟩ := t.exists_parent hpos hx
        have hpx := t.parent_lt hp
        exact (ih p hpx (by omega) (by omega)).step (t.parent_edge hp) (by omega)

theorem around_above (t : DepthFirst size E P) (h : Around E 0 d x) (hxy : ReflTransGen P x y)
    (hd : d < x) : Around E 0 d y := by
  induction hxy with
  | refl => exact h
  | tail hxy hp ih =>
      have := t.above_le hxy
      have := t.parent_lt hp
      exact ih.step (t.parent_edge hp) (by omega)

theorem around_leads (h : Around E 0 d s) (hs : Leads E m s w) (hm : d ≤ m) (hne : d ≠ w) :
    Around E 0 d w := by
  induction hs with
  | edge hedge => exact h.step hedge hne
  | step _ hx hedge ih => exact (ih (by omega)).step hedge hne

/-- A way around `d` to a greater number passes `d` by once for all. -/
theorem exists_crossing (h : Around E 0 d w) (hdw : d < w) : ∃ s, s < d ∧ Leads E d s w := by
  -- The crossing is the last edge from a number below `d`.
  induction h with
  | entry => omega
  | @step x y hx hedge hne ih =>
      have hdx := hx.ne
      rcases Nat.lt_or_ge x d with hlt | hge
      · exact ⟨x, hlt, .edge hedge⟩
      · obtain ⟨s, hs, hsx⟩ := ih (by omega)
        exact ⟨s, hs, .step hsx (by omega) hedge⟩

/-- Dominators lie above. -/
theorem above_of_dominates (t : DepthFirst size E P) (hw : w < size) (h : ¬ Around E 0 d w) :
    ReflTransGen P d w := by
  induction w using Nat.strongRecOn with
  | ind w ih =>
      by_cases hdw : d = w
      · rw [hdw]
      · rcases Nat.eq_zero_or_pos w with rfl | hpos
        · exact absurd (.entry hdw) h
        · obtain ⟨p, hp⟩ := t.exists_parent hpos hw
          have hlt := t.parent_lt hp
          have hdp : ¬ Around E 0 d p := fun hdp => h (hdp.step (t.parent_edge hp) hdw)
          exact (ih p hlt (by omega) hdp).tail hp

/-- Strict dominators dominate the semidominator. -/
theorem dominates_semidominator (t : DepthFirst size E P) (hpos : 0 < w) (hw : w < size)
    (hne : d ≠ w) (h : ¬ Around E 0 d w) : ¬ Around E 0 d (semidominator E w) := by
  intro haround
  have hle := t.above_le (t.above_of_dominates hw h)
  exact h (around_leads haround (t.leads_semidominator hpos hw) hle hne)

/-- If no node between has a lesser semidominator, the semidominator is the immediate dominator. -/
theorem isIdom_semidominator (t : DepthFirst size E P) (hpos : 0 < w) (hw : w < size)
    (hleast : ∀ u, ReflTransGen P u w → semidominator E w < u →
      semidominator E w ≤ semidominator E u) : IsIdom E (semidominator E w) w := by
  have hlt := t.semidominator_lt hpos hw
  -- A way around the semidominator would have a lesser one between it and `w`.
  refine ⟨hlt.ne, fun haround => ?_, t.dominates_semidominator hpos hw⟩
  obtain ⟨s, hs, hsw⟩ := exists_crossing haround hlt
  obtain ⟨u, huw, hu, hsu⟩ := t.exists_above_of_leads hsw hlt
  have := hleast u huw hu
  have := semidominator_le hsu
  omega

/-- Otherwise a node between with the least semidominator has the same immediate dominator. -/
theorem isIdom_of_least (t : DepthFirst size E P) (hpos : 0 < w) (hw : w < size)
    (huw : ReflTransGen P u w) (hsu : semidominator E w < u)
    (hless : semidominator E u < semidominator E w)
    (hleast : ∀ x, ReflTransGen P x w → semidominator E w < x →
      semidominator E u ≤ semidominator E x) (hd : IsIdom E d u) : IsIdom E d w := by
  have hule := t.above_le huw
  have hdu : d ≤ semidominator E u := by
    have hdom := t.dominates_semidominator (by omega) (by omega) hd.ne hd.dominates
    have hsize : semidominator E u < size := by omega
    exact t.above_le (t.above_of_dominates hsize hdom)
  have hslt := t.semidominator_lt hpos hw
  refine ⟨by omega, fun haround => ?_, fun {c} hc hcw => ?_⟩
  · -- A way around `d` to `w` would lead to `u`, too.
    obtain ⟨s, hs, hsw⟩ := exists_crossing haround (by omega)
    obtain ⟨y, hyw, hdy, hsy⟩ := t.exists_above_of_leads hsw (by omega)
    have hyle : y ≤ semidominator E w := by
      by_contra hlt
      have := hleast y hyw (by omega)
      have := semidominator_le hsy
      omega
    have hyu : ReflTransGen P y u := t.above_of_le hyw huw (by omega)
    have hyaround : Around E 0 d y :=
      around_leads (t.around_of_lt (by omega) hs) hsy hdy.le (by omega)
    exact hd.dominates (t.around_above hyaround hyu hdy)
  · have hcs := t.dominates_semidominator hpos hw hc hcw
    have hcle := t.above_le (t.above_of_dominates (by omega) hcs)
    exact hd.nearest (by omega) fun hcu => hcw (t.around_above hcu huw (by omega))

end DepthFirst

end BinTrace
