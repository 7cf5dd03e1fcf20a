import BinTrace.Flow.Dominators
import BinTrace.Proofs.Dominators.Numbering
import Mathlib.Data.Finset.Card

/-!
The forest with compressed paths. Whichever pointers have been shortened, the label of a node is a
node with the least semidominator among those that its pointer passes over, and these are all linked.
-/

namespace BinTrace

open Relation

namespace Numbering

variable {n : Nat} {t : Numbering n} {i j v : Nat}

theorem nodes_eq_some (hi : i < t.nodes.size) : t.nodes[i]? = some (t.nodeAt i) := by
  simp [nodeAt, hi]

theorem eq_nodeAt (h : t.nodes[i]? = some v) : v = t.nodeAt i := by
  rw [nodes_eq_some (lt_size h)] at h
  exact (Option.some.inj h).symm

theorem number?_nodeAt (ht : t.Matched) (hi : i < t.nodes.size) :
    t.number? (t.nodeAt i) = some i :=
  (ht _ i).mpr (nodes_eq_some hi)

theorem nodeAt_lt (ht : t.Matched) (hi : i < t.nodes.size) : t.nodeAt i < n :=
  lt_of_number? (number?_nodeAt ht hi)

theorem nodeAt_inj (ht : t.Matched) (hi : i < t.nodes.size) (hj : j < t.nodes.size) :
    t.nodeAt i = t.nodeAt j ↔ i = j := by
  refine ⟨fun h => ?_, fun h => h ▸ rfl⟩
  exact ht.eq (h ▸ nodes_eq_some hi) (nodes_eq_some hj)

/-- There are not more numbers than nodes. -/
theorem size_le (ht : t.Matched) : t.nodes.size ≤ n := by
  have hcard : (Finset.range t.nodes.size).card ≤ (Finset.range n).card := by
    refine Finset.card_le_card_of_injOn t.nodeAt (fun i hi => ?_) (fun i hi j hj h => ?_)
    · exact Finset.mem_coe.mpr (Finset.mem_range.mpr (nodeAt_lt ht (Finset.mem_range.mp hi)))
    · exact (nodeAt_inj ht (Finset.mem_range.mp hi) (Finset.mem_range.mp hj)).mp h
  rwa [Finset.card_range, Finset.card_range] at hcard

end Numbering

namespace Forest

open BinTrace.Numbering

variable {n : Nat} {f g : Forest n} {t : Numbering n} {E P : Nat → Nat → Prop}
variable {a b i j k l m v w : Nat}

theorem semiOf_set (hw : w < n) (m : Nat) :
    semiOf { f with semi := f.semi.setIfInBounds w m } v = if v = w then m else f.semiOf v := by
  unfold semiOf
  rw [Vector.getElem?_setIfInBounds]
  by_cases hv : v = w
  · simp [hv, hw]
  · simp [hv, Ne.symm hv]

theorem ancestor?_link (hv : v < n) (p : Nat) :
    (f.link p v).ancestor? w = if w = v then some p else f.ancestor? w := by
  unfold ancestor? link
  rw [Vector.getElem?_setIfInBounds]
  by_cases hw : w = v
  · simp [hw, hv]
  · simp [hw, Ne.symm hw]

/-- What is known of a pointer from `j` to `a` when all numbers from `k` on are linked. -/
structure Passes (E P : Nat → Nat → Prop) (k a l j : Nat) : Prop where
  above_end : ReflTransGen P a j
  above_label : ReflTransGen P l j
  end_lt : a < l
  linked (x : Nat) : ReflTransGen P x j → a < x → k ≤ x
  least (x : Nat) : ReflTransGen P x j → a < x → semidominator E l ≤ semidominator E x

/-- The nodes with numbers from `k` on have been linked to their parents. -/
structure Linked (f : Forest n) (t : Numbering n) (E P : Nat → Nat → Prop) (k : Nat) : Prop where
  semi_eq (j : Nat) : k ≤ j → j < t.nodes.size → f.semiOf (t.nodeAt j) = semidominator E j
  root (j : Nat) : j < k → j < t.nodes.size →
    f.ancestor? (t.nodeAt j) = none ∧ f.labelOf (t.nodeAt j) = t.nodeAt j
  pointer (j : Nat) : k ≤ j → j < t.nodes.size → ∃ a l, f.ancestor? (t.nodeAt j) =
    some (t.nodeAt a) ∧ f.labelOf (t.nodeAt j) = t.nodeAt l ∧ Passes E P k a l j

/-- One pointer behind the other. -/
theorem Passes.trans (D : DepthFirst t.nodes.size E P) (hj : Passes E P k a l j)
    (ha : Passes E P k b m a) :
    Passes E P k b (if semidominator E m < semidominator E l then m else l) j := by
  have hma := D.above_le ha.above_label
  have hal := hj.end_lt
  have hbm := ha.end_lt
  refine ⟨ha.above_end.trans hj.above_end, ?_, ?_, fun x hx hbx => ?_, fun x hx hbx => ?_⟩
  · split
    · exact ha.above_label.trans hj.above_end
    · exact hj.above_label
  · split <;> omega
  · rcases (Nat.lt_or_ge a x).symm with hxa | hax
    · exact ha.linked x (D.above_of_le hx hj.above_end hxa) hbx
    · exact hj.linked x hx hax
  · rcases (Nat.lt_or_ge a x).symm with hxa | hax
    · have := ha.least x (D.above_of_le hx hj.above_end hxa) hbx
      split <;> omega
    · have := hj.least x hx hax
      split <;> omega

/-- A pointer of a node that has just been linked passes over that node alone. -/
theorem passes_parent (D : DepthFirst t.nodes.size E P) {p : Nat} (hp : P p i) :
    Passes E P i p i i := by
  have hlt := D.parent_lt hp
  have honly : ∀ x, ReflTransGen P x i → p < x → x = i := by
    intro x hx hpx
    by_contra hne
    have := D.above_le (D.above_parent hx hne hp)
    omega
  exact ⟨.single hp, .refl, hlt, fun x hx hpx => (honly x hx hpx).ge,
    fun x hx hpx => (honly x hx hpx) ▸ Nat.le_refl _⟩

theorem semi_shorten (v : Nat) (f : Forest n) : (f.shorten v).semi = f.semi := by
  unfold shorten
  split <;> rfl

theorem ancestor?_shorten (hv : v < n) (ha : f.ancestor? v = some a) :
    (f.shorten v).ancestor? w = if w = v then f.ancestor? a else f.ancestor? w := by
  unfold shorten
  rw [ha]
  simp only [ancestor?]
  rw [Vector.getElem?_setIfInBounds]
  by_cases hw : w = v
  · simp [hw, hv]
  · simp [hw, Ne.symm hw]

theorem labelOf_shorten (hv : v < n) (ha : f.ancestor? v = some a) :
    (f.shorten v).labelOf w =
      if w = v ∧ f.semiOf (f.labelOf a) < f.semiOf (f.labelOf v) then f.labelOf a
      else f.labelOf w := by
  unfold shorten
  rw [ha]
  by_cases hless : f.semiOf (f.labelOf a) < f.semiOf (f.labelOf v)
  · simp only [hless, if_true, and_true]
    conv_lhs => rw [labelOf]
    rw [Vector.getElem?_setIfInBounds]
    by_cases hw : w = v
    · simp [hw, hv]
    · simp [hw, Ne.symm hw, labelOf]
  · simp only [hless, if_false, and_false]
    rfl

variable (D : DepthFirst t.nodes.size E P) (ht : t.Matched)

include D ht in
/-- Shortening a pointer that leads to a linked node changes no other one. -/
theorem Linked.shorten (hf : f.Linked t E P k) (hk : k ≤ j) (hj : j < t.nodes.size)
    (ha : f.ancestor? (t.nodeAt j) = some (t.nodeAt a)) (hka : k ≤ a) (haj : a < j) :
    (f.shorten (t.nodeAt j)).Linked t E P k := by
  have hvn := nodeAt_lt ht hj
  have hsemi : ∀ v, (f.shorten (t.nodeAt j)).semiOf v = f.semiOf v := fun v => by
    rw [semiOf, semi_shorten, semiOf]
  refine ⟨fun i hi hin => (hsemi _).trans (hf.semi_eq i hi hin), fun i hi hin => ?_,
    fun i hi hin => ?_⟩
  · have hne : t.nodeAt i ≠ t.nodeAt j := fun h => by
      have := (nodeAt_inj ht hin hj).mp h
      omega
    rw [ancestor?_shorten hvn ha, labelOf_shorten hvn ha, if_neg hne, if_neg fun h => hne h.1]
    exact hf.root i hi hin
  · rw [ancestor?_shorten hvn ha, labelOf_shorten hvn ha]
    by_cases hij : i = j
    · -- The two pointers become one, which has the better of the two labels.
      subst hij
      obtain ⟨a', l, ha', hl, hpass⟩ := hf.pointer i hi hin
      obtain ⟨b, m, hb, hm, hpass'⟩ := hf.pointer a hka (by omega)
      have haa : a' = a := by
        have hle := D.above_le hpass.above_end
        exact (nodeAt_inj ht (by omega) (by omega)).mp (Option.some.inj (ha'.symm.trans ha))
      subst haa
      have hl' := D.above_le hpass.above_label
      have hm' := D.above_le hpass'.above_label
      have hsl := hf.semi_eq l (hpass.linked l hpass.above_label hpass.end_lt) (by omega)
      have hsm := hf.semi_eq m (hpass'.linked m hpass'.above_label hpass'.end_lt) (by omega)
      refine ⟨b, _, by rw [if_pos rfl, hb], ?_, hpass.trans D hpass'⟩
      rw [hl, hm, hsl, hsm]
      by_cases hless : semidominator E m < semidominator E l
      · simp [hless]
      · simp [hless]
    · have hne : t.nodeAt i ≠ t.nodeAt j := fun h => hij ((nodeAt_inj ht hin hj).mp h)
      rw [if_neg hne, if_neg fun h => hne h.1]
      exact hf.pointer i hi hin

include D ht in
/-- The way up from `j` comes to its end. Once the upper pointers have been shortened, that of `j`
leads to the root, and the pointers of greater numbers are as they were. -/
theorem Linked.foldr_trail (hf : f.Linked t E P k) (hk : k ≤ j) (hj : j < t.nodes.size)
    {fuel : Nat} (hfuel : j < fuel) :
    ∃ path, f.trail fuel (t.nodeAt j) = some path ∧ (path.foldr Forest.shorten f).Linked t E P k ∧
      (path.foldr Forest.shorten f).semi = f.semi ∧
      (∃ a, a < k ∧ a < j ∧
        (path.foldr Forest.shorten f).ancestor? (t.nodeAt j) = some (t.nodeAt a)) ∧
      ∀ i, j < i → i < t.nodes.size →
        (path.foldr Forest.shorten f).ancestor? (t.nodeAt i) = f.ancestor? (t.nodeAt i) := by
  -- Pointers lead to lesser numbers, so the fuel suffices as long as it is greater than `j`.
  induction fuel generalizing j with
  | zero => omega
  | succ fuel ih =>
      obtain ⟨a, l, ha, -, hpass⟩ := hf.pointer j hk hj
      have hal := hpass.end_lt
      have hlj := D.above_le hpass.above_label
      rw [trail, ha]
      dsimp only
      by_cases hroot : a < k
      · rw [(hf.root a hroot (by omega)).1, Option.isSome_none, if_neg (by simp)]
        exact ⟨[], rfl, hf, rfl, ⟨a, hroot, by omega, ha⟩, fun _ _ _ => rfl⟩
      · obtain ⟨b, m, hb, -, -⟩ := hf.pointer a (by omega) (by omega)
        obtain ⟨path, hpath, hlinked, hsemi, ⟨c, hck, hca, hc⟩, hframe⟩ :=
          ih (j := a) (by omega) (by omega) (by omega)
        rw [hb, Option.isSome_some, if_pos rfl, hpath]
        -- The upper pointers have been shortened by now, that of `j` has not.
        have haj : a < j := by omega
        have hstill := (hframe j haj hj).trans ha
        have hvn := nodeAt_lt ht hj
        refine ⟨t.nodeAt j :: path, rfl, hlinked.shorten D ht hk hj hstill (by omega) haj,
          (semi_shorten _ _).trans hsemi, ⟨c, hck, by omega, ?_⟩, fun i hji hi => ?_⟩
        · rw [List.foldr_cons, ancestor?_shorten hvn hstill, if_pos rfl, hc]
        · have hne : t.nodeAt i ≠ t.nodeAt j := fun h => by
            have := (nodeAt_inj ht hi hj).mp h
            omega
          rw [List.foldr_cons, ancestor?_shorten hvn hstill, if_neg hne]
          exact hframe i (by omega) hi

include D ht in
/-- What is found for a node that is not linked is the node itself; for another one it is a linked
node above with the least semidominator. -/
theorem Linked.eval (hf : f.Linked t E P k) (hj : j < t.nodes.size) :
    ∃ g l, f.eval (t.nodeAt j) = some (g, t.nodeAt l) ∧ g.Linked t E P k ∧ g.semi = f.semi ∧
      (j < k → l = j) ∧ (k ≤ j → ReflTransGen P l j ∧ k ≤ l ∧
        ∀ x, ReflTransGen P x j → k ≤ x → semidominator E l ≤ semidominator E x) := by
  by_cases hk : j < k
  · refine ⟨f, j, ?_, hf, rfl, fun _ => rfl, fun hle => by omega⟩
    rw [Forest.eval, (hf.root j hk hj).1]
  · have hfuel : j < n := hj.trans_le (size_le ht)
    obtain ⟨path, hpath, hlinked, hsemi, ⟨c, hck, -, hc⟩, -⟩ :=
      hf.foldr_trail D ht (by omega) hj hfuel
    obtain ⟨a, l, ha, hl, hpass⟩ := hlinked.pointer j (by omega) hj
    obtain ⟨b, m, hb, -, -⟩ := hf.pointer j (by omega) hj
    have hac : a = c := by
      have hle := D.above_le hpass.above_end
      exact (nodeAt_inj ht (by omega) (by omega)).mp (Option.some.inj (ha.symm.trans hc))
    refine ⟨path.foldr Forest.shorten f, l, ?_, hlinked, hsemi, fun h => absurd h hk, fun _ => ?_⟩
    · rw [Forest.eval, hb, compress, hpath, ← hl]
      rfl
    · refine ⟨hpass.above_label, hpass.linked l hpass.above_label hpass.end_lt, fun x hx hkx => ?_⟩
      exact hpass.least x hx (by omega)

include ht in
/-- The semidominators of nodes that are not linked may change. -/
theorem Linked.setSemi (hf : f.Linked t E P k) (hi : i < k) (hin : i < t.nodes.size) (m : Nat) :
    ({ f with semi := f.semi.setIfInBounds (t.nodeAt i) m } : Forest n).Linked t E P k := by
  refine ⟨fun j hkj hj => ?_, hf.root, hf.pointer⟩
  have hne : t.nodeAt j ≠ t.nodeAt i := fun h => by
    have := (nodeAt_inj ht hj hin).mp h
    omega
  rw [semiOf_set (nodeAt_lt ht hin), if_neg hne]
  exact hf.semi_eq j hkj hj

include D ht in
/-- Linking the node with the greatest number that is left. -/
theorem Linked.link (hf : f.Linked t E P (i + 1)) (hi : i < t.nodes.size) {p : Nat} (hp : P p i)
    (hsemi : f.semiOf (t.nodeAt i) = semidominator E i) :
    (f.link (t.nodeAt p) (t.nodeAt i)).Linked t E P i := by
  have hvn := nodeAt_lt ht hi
  have hother : ∀ j < t.nodes.size, j ≠ i → t.nodeAt j ≠ t.nodeAt i :=
    fun j hj hne h => hne ((nodeAt_inj ht hj hi).mp h)
  refine ⟨fun j hij hj => ?_, fun j hji hj => ?_, fun j hij hj => ?_⟩
  · by_cases hne : j = i
    · rw [hne]
      exact hsemi
    · exact hf.semi_eq j (by omega) hj
  · rw [ancestor?_link hvn, if_neg (hother j hj (by omega))]
    exact hf.root j (by omega) hj
  · rw [ancestor?_link hvn]
    by_cases hne : j = i
    · subst hne
      exact ⟨p, j, if_pos rfl, (hf.root j (by omega) hj).2, passes_parent D hp⟩
    · rw [if_neg (hother j hj hne)]
      obtain ⟨a, l, ha, hl, hpass⟩ := hf.pointer j (by omega) hj
      refine ⟨a, l, ha, hl, hpass.above_end, hpass.above_label, hpass.end_lt, fun x hx hax => ?_,
        hpass.least⟩
      have := hpass.linked x hx hax
      omega

end Forest

end BinTrace
