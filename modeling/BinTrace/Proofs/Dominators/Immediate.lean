import BinTrace.Proofs.Dominators.Passes

/-!
The immediate dominators, told by the numbers. On the way up each node that has the same immediate
dominator as a node above takes it from there.
-/

namespace BinTrace

open BinTrace.Numbering

variable {n : Nat} {t : Numbering n} {E P : Nat → Nat → Prop} {i j k : Nat}

namespace SemiPass

variable {idom : Vector (Option Nat) n} {semi : Nat → Nat}

/-- The way up has come to number `k`. -/
structure Corrected (t : Numbering n) (E P : Nat → Nat → Prop) (idom : Vector (Option Nat) n)
    (k : Nat) : Prop where
  found (j : Nat) : 0 < j → j < k → j < t.nodes.size →
    ∃ d, d < j ∧ idom[t.nodeAt j]? = some (some (t.nodeAt d)) ∧ IsIdom E d j
  decided (j : Nat) : k ≤ j → j < t.nodes.size → Decided t E P idom j

/-- One more node has its immediate dominator. -/
theorem Corrected.extend (h : Corrected t E P idom k) {idom' : Vector (Option Nat) n}
    (hother : ∀ j < t.nodes.size, j ≠ k → idom'[t.nodeAt j]? = idom[t.nodeAt j]?)
    (hfound : ∃ d, d < k ∧ idom'[t.nodeAt k]? = some (some (t.nodeAt d)) ∧ IsIdom E d k) :
    Corrected t E P idom' (k + 1) := by
  refine ⟨fun j hj hjk hjsize => ?_, fun j hkj hj => ?_⟩
  · by_cases hne : j = k
    · rw [hne]
      exact hfound
    · rw [hother j hjsize hne]
      exact h.found j hj (by omega) hjsize
  · obtain ⟨u, hu, hidom⟩ := h.decided j (by omega) hj
    exact ⟨u, hu, (hother j hj (by omega)).trans hidom⟩

variable (D : DepthFirst t.nodes.size E P) (ht : t.Matched)
  (hsemi : ∀ j, 0 < j → j < t.nodes.size → semi (t.nodeAt j) = semidominator E j)

include D ht hsemi

theorem Corrected.correct (h : Corrected t E P idom k) (hpos : 0 < k) (hk : k < t.nodes.size) :
    Corrected t E P (correct t semi idom (t.nodeAt k)) (k + 1) := by
  obtain ⟨u, hu, hidom⟩ := h.decided k (Nat.le_refl k) hk
  have huk := D.above_le hu.above
  have hslt := D.semidominator_lt hpos hk
  rw [SemiPass.correct, hidom, hsemi k hpos hk, Option.join_some, Option.bind_some]
  by_cases hless : semidominator E u < semidominator E k
  · -- The immediate dominator is that of `u`, which comes earlier on the way up.
    have hlt := hu.lt
    have hne : u ≠ k := by
      rintro rfl
      omega
    obtain ⟨d, hd, hdu, hisIdom⟩ := h.found u (by omega) (by omega) (by omega)
    have hnode : t.nodeAt u ≠ t.nodeAt (semidominator E k) := fun heq => by
      have := (nodeAt_inj ht (by omega) (by omega)).mp heq
      omega
    rw [if_pos hless, if_neg fun heq => hnode (Option.some.inj heq), hdu, Option.join_some]
    refine h.extend (fun j hj hjk => ?_) ⟨d, by omega, ?_, ?_⟩
    · have hother : t.nodeAt k ≠ t.nodeAt j := fun heq => hjk ((nodeAt_inj ht hk hj).mp heq).symm
      rw [Vector.getElem?_setIfInBounds, if_neg hother]
    · rw [Vector.getElem?_setIfInBounds, if_pos rfl, if_pos (nodeAt_lt ht hk)]
    · exact D.isIdom_of_least hpos hk hu.above hlt hless hu.least hisIdom
  · rw [if_neg hless] at hidom ⊢
    rw [if_pos rfl]
    refine h.extend (fun _ _ _ => rfl) ⟨_, hslt, hidom, ?_⟩
    refine D.isIdom_semidominator hpos hk fun x hx hxk => ?_
    exact (Nat.not_lt.mp hless).trans (hu.least x hx hxk)

theorem Corrected.foldl (h : Corrected t E P idom k) (hpos : 0 < k) (hk : k ≤ t.nodes.size) :
    Corrected t E P ((t.nodes.toList.drop k).foldl (SemiPass.correct t semi) idom)
      t.nodes.size := by
  -- Induction on how many nodes are left.
  obtain ⟨m, hm⟩ := Nat.exists_eq_add_of_le hk
  induction m generalizing k idom with
  | zero =>
      rw [List.drop_eq_nil_of_le (by simpa using hm.le)]
      rw [hm]
      exact h
  | succ m ih =>
      have hlt : k < t.nodes.size := by omega
      have hdrop : t.nodes.toList.drop k = t.nodeAt k :: t.nodes.toList.drop (k + 1) := by
        rw [List.drop_eq_getElem_cons (by simpa using hlt)]
        simp [nodeAt, hlt]
      rw [hdrop, List.foldl_cons]
      exact ih (h.correct D ht hsemi hpos hlt) (Nat.succ_pos k) hlt (by omega)

end SemiPass

/-- What is recorded: the immediate dominators of all numbers but the first, and nothing else. -/
structure Recorded (t : Numbering n) (E : Nat → Nat → Prop) (idom : Nat → Option Nat) : Prop where
  root : idom (t.nodeAt 0) = none
  unnumbered (v : Nat) : t.number? v = none → idom v = none
  found (j : Nat) : 0 < j → j < t.nodes.size →
    ∃ d, d < j ∧ idom (t.nodeAt j) = some (t.nodeAt d) ∧ IsIdom E d j

variable {edges preds : Edges} {entry : Nat}

theorem predecessors_ofEdges {t : Numbering edges.size} (ht : t.Matched)
    (hpreds : ∀ v w, v ∈ preds.getD w [] ↔ w ∈ edges.getD v []) :
    Predecessors t (t.Edge edges) preds := by
  intro i x hi
  rw [hpreds]
  constructor
  · rintro ⟨hmem, hx⟩
    obtain ⟨v, hv⟩ := Option.isSome_iff_exists.mp hx
    have hnode := (ht x v).mp hv
    exact ⟨v, eq_nodeAt hnode, x, t.nodeAt i, hnode, nodes_eq_some hi, hmem⟩
  · rintro ⟨v, rfl, a, b, ha, hb, hab⟩
    rw [eq_nodeAt ha, eq_nodeAt hb] at hab
    exact ⟨hab, by rw [number?_nodeAt ht (lt_size ha)]; rfl⟩

theorem recorded_of_passed {P : Nat → Nat → Prop} {s : SemiPass n}
    (D : DepthFirst t.nodes.size E P) (ht : t.Matched) (hs : s.Passed t E P 1 1)
    (hpos : 0 < t.nodes.size) : Recorded t E fun v =>
      (t.number.zipWith (fun number d => if number.getD 0 = 0 then none else d)
        ((t.nodes.toList.drop 1).foldl (SemiPass.correct t s.forest.semiOf) s.idom))[v]?.join := by
  have hdecided : SemiPass.Corrected t E P s.idom 1 :=
    ⟨fun j hj hj1 => by omega, fun j hj hjs => hs.decided_all D ht hj hjs⟩
  have hcorrected := hdecided.foldl D ht hs.linked.semi_eq Nat.one_pos hpos
  generalize (t.nodes.toList.drop 1).foldl _ s.idom = idom at hcorrected ⊢
  have hlookup : ∀ v, (t.number.zipWith (fun number d => if number.getD 0 = 0 then none else d)
      idom)[v]?.join = if (t.number? v).getD 0 = 0 then none else idom[v]?.join := by
    intro v
    rw [Vector.getElem?_zipWith, number?]
    by_cases hv : v < n
    · simp [hv]
    · simp [Nat.not_lt.mp hv]
  refine ⟨?_, fun v hv => ?_, fun j hj hjs => ?_⟩
  · rw [hlookup, number?_nodeAt ht hpos]
    rfl
  · rw [hlookup, hv]
    rfl
  · obtain ⟨d, hd, hidom, hisIdom⟩ := hcorrected.found j hj hjs hjs
    refine ⟨d, hd, ?_, hisIdom⟩
    rw [hlookup, number?_nodeAt ht hjs, Option.getD_some, if_neg hj.ne', hidom]
    rfl

/-- The computation comes to its end, with the immediate dominators as its result. -/
theorem immediateDominators_recorded (hentry : entry < edges.size)
    (hedges : ∀ v, ∀ w ∈ edges.getD v [], w < edges.size)
    (hpreds : ∀ v w, v ∈ preds.getD w [] ↔ w ∈ edges.getD v []) :
    ∃ idom, immediateDominators edges preds entry = some idom ∧
      Recorded (ofEntry edges entry) ((ofEntry edges entry).Edge edges) fun v => idom[v]?.join := by
  have hw := walking_ofEntry hentry hedges
  have hpos : 0 < (ofEntry edges entry).nodes.size := lt_size hw.first
  obtain ⟨last, hlast⟩ := Nat.exists_eq_succ_of_ne_zero hpos.ne'
  have hstart := SemiPass.passed_start (E := (ofEntry edges entry).Edge edges)
    (P := (ofEntry edges entry).Parent) hw.matched
  rw [hlast] at hstart
  obtain ⟨s, heq, hs⟩ := hstart.down hw.depthFirst hw.matched (by omega)
    (predecessors_ofEdges hw.matched hpreds)
  refine ⟨_, ?_, recorded_of_passed hw.depthFirst hw.matched hs hpos⟩
  rw [immediateDominators, hlast, Nat.succ_sub_one, heq]
  rfl

end BinTrace
