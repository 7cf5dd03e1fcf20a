import BinTrace.Proofs.Reuse.WeightTree
import BinTrace.Reuse.Approximate

/-!
Scales: nodes in the order of their times, each of which stands for the references since the node
before it. A scale counts some times if the weight behind every node is the number of later times,
and it is bounded if no node is heavier than the rule allows it for the weight behind it. Merging
two neighbours keeps both, and so does every change that an analyzer makes.
-/

namespace BinTrace.Reuse

open WeightTree

/-- A node of a scale. -/
abbrev ScaleNode := WeightEntry Unit

namespace ScaleRule

/-- Two neighbours become one node at the time of the later one. -/
inductive Merge (rule : ScaleRule) : List ScaleNode → List ScaleNode → Prop
  | intro {older newer : List ScaleNode} {m n : ScaleNode}
      (hweight : m.weight + n.weight ≤ rule.maxSize (weightOf newer)) :
      Merge rule (older ++ m :: n :: newer)
        (older ++ { n with weight := m.weight + n.weight } :: newer)

/-- What is asked of a rule: every node may have some weight, and no less with more behind it. -/
structure Sound (rule : ScaleRule) : Prop where
  one_le : ∀ n, 1 ≤ rule.maxSize n
  mono : Monotone rule.maxSize

end ScaleRule

/-- The nodes count the given times, and none is too heavy for the weight behind it together with
an extra one. -/
structure Scales (rule : ScaleRule) (extra : Nat) (times : List Nat) (es : List ScaleNode) :
    Prop where
  increasing : Increasing es
  total : weightOf es = times.length
  behind : ∀ n ∈ es, weightOf (upper n.key es) = times.countP fun t => n.key < t
  bounded : ∀ n ∈ es, n.weight ≤ rule.maxSize (weightOf (upper n.key es) + extra)

variable {rule : ScaleRule} {extra : Nat} {times : List Nat} {es older newer : List ScaleNode}
  {m n : ScaleNode} {k t : Nat}

/-! ### Changes of a scale -/

theorem increasing_merge (h : Increasing (older ++ m :: n :: newer)) (w : Nat) :
    Increasing (older ++ { n with weight := w } :: newer) := by
  obtain ⟨hold, hrest, hlt, hgt⟩ := increasing_append_cons.mp h
  obtain ⟨hn, hnew⟩ := List.pairwise_cons.mp hrest
  refine increasing_append_cons.mpr ⟨hold, hnew, fun f hf => ?_, hn⟩
  exact Nat.lt_trans (hlt f hf) (hgt n List.mem_cons_self)

/-- Outside of the two times that become one, merging does not change what lies behind a time. -/
theorem weightOf_upper_merge (hk : k < m.key ∧ m.key < n.key ∨ m.key < n.key ∧ n.key ≤ k) :
    weightOf (upper k (older ++ { n with weight := m.weight + n.weight } :: newer)) =
      weightOf (upper k (older ++ m :: n :: newer)) := by
  simp only [weightOf_upper_append, weightOf_upper_cons]
  split <;> split <;> omega

theorem weightOf_merges {es fs : List ScaleNode} (h : Relation.ReflTransGen rule.Merge es fs) :
    weightOf fs = weightOf es := by
  induction h with
  | refl => rfl
  | tail _ hstep ih =>
      rw [← ih]
      obtain @⟨older, newer, m, n, -⟩ := hstep
      simp only [weightOf_append, weightOf_cons]
      omega

/-- Merging makes no new times. -/
theorem exists_key_of_merges {es fs : List ScaleNode} (h : Relation.ReflTransGen rule.Merge es fs) :
    ∀ p ∈ fs, ∃ q ∈ es, q.key = p.key := by
  induction h with
  | refl => exact fun p hp => ⟨p, hp, rfl⟩
  | tail _ hstep ih =>
      obtain @⟨older, newer, m, n, -⟩ := hstep
      intro p hp
      rcases List.mem_append.mp hp with hp | hp
      · exact ih p (List.mem_append_left _ hp)
      · rcases List.mem_cons.mp hp with rfl | hp
        · exact ih n (by simp)
        · exact ih p (by simp [hp])

theorem Scales.merge {fs : List ScaleNode} (hr : rule.Sound) (h : Scales rule extra times es)
    (hm : rule.Merge es fs) : Scales rule extra times fs := by
  obtain @⟨older, newer, m, n, hweight⟩ := hm
  have hinc := increasing_merge h.increasing (m.weight + n.weight)
  obtain ⟨-, hrest, hlt, hgt⟩ := increasing_append_cons.mp h.increasing
  obtain ⟨hn, -⟩ := List.pairwise_cons.mp hrest
  have hmn : m.key < n.key := hgt n List.mem_cons_self
  have hkeep : ∀ p ∈ older ++ { n with weight := m.weight + n.weight } :: newer,
      weightOf (upper p.key (older ++ { n with weight := m.weight + n.weight } :: newer)) =
        weightOf (upper p.key (older ++ m :: n :: newer)) := by
    intro p hp
    refine weightOf_upper_merge ?_
    rcases List.mem_append.mp hp with hp | hp
    · exact .inl ⟨hlt p hp, hmn⟩
    · rcases List.mem_cons.mp hp with rfl | hp
      · exact .inr ⟨hmn, Nat.le_refl _⟩
      · exact .inr ⟨hmn, Nat.le_of_lt (hn p hp)⟩
  refine ⟨hinc, ?_, fun p hp => ?_, fun p hp => ?_⟩
  · rw [← h.total]
    simp only [weightOf_append, weightOf_cons]
    omega
  · rw [hkeep p hp]
    rcases List.mem_append.mp hp with hp | hp
    · exact h.behind p (List.mem_append_left _ hp)
    · rcases List.mem_cons.mp hp with rfl | hp
      · exact h.behind n (by simp)
      · exact h.behind p (by simp [hp])
  · rcases List.mem_append.mp hp with hold | hp'
    · rw [hkeep p hp]
      exact h.bounded p (List.mem_append_left _ hold)
    · rcases List.mem_cons.mp hp' with rfl | hnew
      · rw [hinc.at_entry.2.2]
        exact Nat.le_trans hweight (hr.mono (Nat.le_add_right _ _))
      · rw [hkeep p hp]
        exact h.bounded p (by simp [hnew])

theorem Scales.merges {fs : List ScaleNode} (hr : rule.Sound) (h : Scales rule extra times es)
    (hm : Relation.ReflTransGen rule.Merge es fs) : Scales rule extra times fs := by
  induction hm with
  | refl => exact h
  | tail _ hstep ih => exact ih.merge hr hstep

theorem Scales.of_le (hr : rule.Sound) (h : Scales rule extra times es) {more : Nat}
    (hle : extra ≤ more) : Scales rule more times es :=
  ⟨h.increasing, h.total, h.behind, fun n hn =>
    Nat.le_trans (h.bounded n hn) (hr.mono (Nat.add_le_add_left hle _))⟩

/-- A node without weight can be left out. -/
theorem Scales.drop (h : Scales rule extra times (older ++ n :: newer)) (hn : n.weight = 0) :
    Scales rule extra times (older ++ newer) := by
  have hsub : List.Sublist (older ++ newer) (older ++ n :: newer) :=
    (List.sublist_cons_self n newer).append_left older
  have hkeep : ∀ k, weightOf (upper k (older ++ newer)) =
      weightOf (upper k (older ++ n :: newer)) := by
    intro k
    simp only [weightOf_upper_append, weightOf_upper_cons, hn, ite_self, Nat.zero_add]
  refine ⟨h.increasing.sublist hsub, ?_, fun p hp => ?_, fun p hp => ?_⟩
  · rw [← h.total]
    simp only [weightOf_append, weightOf_cons]
    omega
  · rw [hkeep, h.behind p (hsub.subset hp)]
  · rw [hkeep]
    exact h.bounded p (hsub.subset hp)

/-- A time is taken out, and with it one from the weight of the node that stands for it. The older
nodes are still bounded if another time takes its place behind them. -/
theorem Scales.takeOut (hr : rule.Sound) {before after : List Nat}
    (h : Scales rule 0 (before ++ t :: after) (older ++ n :: newer))
    (hlt : ∀ p ∈ older, p.key < t) (hle : t ≤ n.key) (hpos : 1 ≤ n.weight) :
    Scales rule 1 (before ++ after) (older ++ { n with weight := n.weight - 1 } :: newer) := by
  have hinc := increasing_append_cons.mp h.increasing
  have holder := hinc.2.2.1
  have hnewer := hinc.2.2.2
  -- the nodes before the time have it behind them, and the others do not
  have hcases : ∀ p ∈ older ++ { n with weight := n.weight - 1 } :: newer,
      ∃ q ∈ older ++ n :: newer, q.key = p.key ∧ p.weight ≤ q.weight ∧
        (p.key < t ∧ p.key < n.key ∨ t ≤ p.key ∧ n.key ≤ p.key) := by
    intro p hp
    rcases List.mem_append.mp hp with hp | hp
    · exact ⟨p, List.mem_append_left _ hp, rfl, Nat.le_refl _, .inl ⟨hlt p hp, holder p hp⟩⟩
    · rcases List.mem_cons.mp hp with rfl | hp
      · exact ⟨n, by simp, rfl, Nat.sub_le _ _, .inr ⟨hle, Nat.le_refl _⟩⟩
      · have hn := hnewer p hp
        exact ⟨p, by simp [hp], rfl, Nat.le_refl _, .inr ⟨by omega, by omega⟩⟩
  refine ⟨increasing_append_cons.mpr hinc, ?_, fun p hp => ?_, fun p hp => ?_⟩
  · have htotal := h.total
    simp only [weightOf_append, weightOf_cons, List.length_append, List.length_cons] at htotal ⊢
    omega
  · obtain ⟨q, hq, hkey, -, hside⟩ := hcases p hp
    have hbehind := h.behind q hq
    rw [hkey] at hbehind
    simp only [weightOf_upper_append, weightOf_upper_cons, List.countP_append, List.countP_cons,
      decide_eq_true_eq] at hbehind ⊢
    rcases hside with ⟨ht, hn⟩ | ⟨ht, hn⟩
    · rw [if_pos hn, if_pos ht] at hbehind
      rw [if_pos hn]
      omega
    · rw [if_neg (Nat.not_lt.mpr hn), if_neg (Nat.not_lt.mpr ht)] at hbehind
      rw [if_neg (Nat.not_lt.mpr hn)]
      omega
  · obtain ⟨q, hq, hkey, hweight, hside⟩ := hcases p hp
    have hbounded := h.bounded q hq
    rw [hkey] at hbounded
    refine Nat.le_trans hweight (Nat.le_trans hbounded (hr.mono ?_))
    simp only [weightOf_upper_append, weightOf_upper_cons]
    split <;> omega

/-- The next time gets a node of its own. -/
theorem Scales.concat (hr : rule.Sound) (h : Scales rule 1 times es) (hes : ∀ n ∈ es, n.key < t)
    (htimes : ∀ s ∈ times, s < t) :
    Scales rule 0 (times ++ [t]) (es ++ [⟨t, (), 1⟩]) := by
  have hlast : weightOf (upper t (es ++ [⟨t, (), 1⟩])) = 0 := by
    rw [weightOf_upper_append, upper_eq_nil fun n hn => Nat.le_of_lt (hes n hn),
      upper_cons_of_le (Nat.le_refl t)]
    rfl
  have hgrows : ∀ n ∈ es, weightOf (upper n.key (es ++ [⟨t, (), 1⟩])) =
      weightOf (upper n.key es) + 1 := by
    intro n hn
    rw [weightOf_upper_append, weightOf_upper_cons, if_pos (hes n hn)]
    rfl
  refine ⟨increasing_append_cons.mpr ⟨h.increasing, .nil, hes, by simp⟩, ?_, fun p hp => ?_,
    fun p hp => ?_⟩
  · rw [weightOf_append, List.length_append, h.total]
    rfl
  · rw [List.countP_append, List.countP_singleton]
    rcases List.mem_append.mp hp with hp | hp
    · rw [hgrows p hp, h.behind p hp]
      simp [hes p hp]
    · obtain rfl := List.mem_singleton.mp hp
      have hnone : times.countP (fun s => decide (t < s)) = 0 :=
        List.countP_eq_zero.mpr fun s hs => by
          have hst := htimes s hs
          simp
          omega
      simp [hlast, hnone]
  · rcases List.mem_append.mp hp with hp | hp
    · rw [hgrows p hp]
      exact h.bounded p hp
    · obtain rfl := List.mem_singleton.mp hp
      exact hr.one_le _

/-! ### What a scale tells -/

theorem Scales.weightOf_newer (h : Scales rule extra times (older ++ newer)) :
    weightOf newer = times.countP fun t => ∀ m ∈ older, m.key < t := by
  cases older using List.reverseRecOn with
  | nil => simpa using h.total
  | append_singleton front m =>
      rw [List.append_assoc, List.singleton_append] at h
      have hlt := (increasing_append_cons.mp h.increasing).2.2.1
      have hbehind := h.behind m (by simp)
      rw [h.increasing.at_entry.2.2] at hbehind
      rw [hbehind]
      refine List.countP_congr fun t _ => ?_
      simp only [decide_eq_true_eq, List.forall_mem_append, List.forall_mem_singleton]
      exact ⟨fun ht => ⟨fun p hp => Nat.lt_trans (hlt p hp) ht, ht⟩, And.right⟩

/-- A node weighs as much as there are times between the node before it and itself. -/
theorem Scales.weight_eq (h : Scales rule extra times (older ++ n :: newer)) :
    n.weight = times.countP fun t => (∀ m ∈ older, m.key < t) ∧ t ≤ n.key := by
  have hfrom := h.weightOf_newer
  have hbehind : weightOf newer = times.countP fun t => n.key < t := by
    rw [← h.behind n (by simp), h.increasing.at_entry.2.2]
  have hsplit := List.countP_eq_countP_filter_add times
    (fun t => decide (∀ m ∈ older, m.key < t)) fun t => decide (t ≤ n.key)
  rw [List.countP_filter, List.countP_filter, ← hfrom, weightOf_cons, hbehind] at hsplit
  have hlt := (increasing_append_cons.mp h.increasing).2.2.1
  have hlater : ∀ t ∈ times, (decide (∀ m ∈ older, m.key < t) && !decide (t ≤ n.key)) = true ↔
      decide (n.key < t) = true := by
    intro t _
    simp only [Bool.and_eq_true, decide_eq_true_eq, Bool.not_eq_true', decide_eq_false_iff_not,
      Nat.not_le]
    exact ⟨And.right, fun ht => ⟨fun m hm => Nat.lt_trans (hlt m hm) ht, ht⟩⟩
  rw [List.countP_congr hlater] at hsplit
  rw [Nat.add_right_cancel hsplit]
  exact List.countP_congr fun t _ => by simp

/-- Every time has a node that stands for it. -/
theorem Scales.exists_node (h : Scales rule extra times es) (ht : t ∈ times) :
    ∃ older n newer, es = older ++ n :: newer ∧ (∀ m ∈ older, m.key < t) ∧ t ≤ n.key := by
  cases hfind : es.find? fun n => t ≤ n.key with
  | none =>
      have hlt : ∀ m ∈ es, m.key < t := fun m hm => by
        simpa using List.find?_eq_none.mp hfind m hm
      rw [← List.append_nil es] at h
      have hzero := h.weightOf_newer
      have hpos : 0 < times.countP fun s => ∀ m ∈ es, m.key < s :=
        List.countP_pos_iff.mpr ⟨t, ht, decide_eq_true hlt⟩
      rw [weightOf_nil] at hzero
      omega
  | some n =>
      obtain ⟨hle, older, newer, rfl, hlt⟩ := List.find?_eq_some_iff_append.mp hfind
      exact ⟨older, n, newer, rfl, fun m hm => by simpa using hlt m hm, by simpa using hle⟩

/-- Where a time has its node, what lies behind that node and half of its weight come close to the
number of later times. -/
theorem Scales.near (hr : rule.Sound) {before after : List Nat}
    (h : Scales rule 0 (before ++ t :: after) (older ++ n :: newer))
    (htimes : (before ++ t :: after).Pairwise (· < ·)) (hlt : ∀ m ∈ older, m.key < t)
    (hle : t ≤ n.key) :
    1 ≤ n.weight ∧ ((n.weight / 2 + weightOf newer : Nat) - (after.length : Int)).natAbs ≤
      rule.maxSize after.length / 2 := by
  obtain ⟨-, hafter, hcross⟩ := List.pairwise_append.mp htimes
  obtain ⟨hgt, -⟩ := List.pairwise_cons.mp hafter
  have hnone : (before ++ [t]).countP (fun s => n.key < s) = 0 := by
    refine List.countP_eq_zero.mpr fun s hs => ?_
    rcases List.mem_append.mp hs with hs | hs
    · have hst := hcross s hs t List.mem_cons_self
      simp
      omega
    · obtain rfl := List.mem_singleton.mp hs
      simpa using hle
  have hlow : weightOf newer ≤ after.length := by
    have hbehind := h.behind n (by simp)
    rw [h.increasing.at_entry.2.2, ← List.singleton_append, ← List.append_assoc,
      List.countP_append, hnone, Nat.zero_add] at hbehind
    rw [hbehind]
    exact List.countP_le_length
  have hhigh : after.length + 1 ≤ n.weight + weightOf newer := by
    have hfrom := h.weightOf_newer
    have hall : (t :: after).countP (fun s => ∀ m ∈ older, m.key < s) = (t :: after).length := by
      refine List.countP_eq_length.mpr fun s hs => decide_eq_true fun m hm => ?_
      rcases List.mem_cons.mp hs with rfl | hs
      · exact hlt m hm
      · exact Nat.lt_trans (hlt m hm) (hgt s hs)
    rw [weightOf_cons, List.countP_append, hall, List.length_cons] at hfrom
    omega
  have hbounded := h.bounded n (by simp)
  rw [h.increasing.at_entry.2.2, Nat.add_zero] at hbounded
  have hmono := hr.mono hlow
  omega

/-! ### Merging all nodes -/

theorem merges_mergeRuns (rule : ScaleRule) (key weight : Nat) (older kept : List ScaleNode) :
    Relation.ReflTransGen rule.Merge (older.reverse ++ ⟨key, (), weight⟩ :: kept)
      (Approximate.mergeRuns rule key weight (weightOf kept) older kept) := by
  induction older generalizing key weight kept with
  | nil => exact .refl
  | cons e older ih =>
      rw [Approximate.mergeRuns, List.reverse_cons, List.append_assoc, List.singleton_append]
      split
      · rename_i hfits
        rw [Nat.add_comm] at hfits
        refine .head (.intro hfits) ?_
        rw [Nat.add_comm weight]
        exact ih key (e.weight + weight) kept
      · have hkept : weightOf kept + weight = weightOf (⟨key, (), weight⟩ :: kept) := by
          rw [weightOf_cons]
          exact Nat.add_comm _ _
        rw [hkept]
        exact ih e.key e.weight (⟨key, (), weight⟩ :: kept)

theorem merges_merged (rule : ScaleRule) (t : WeightTree Unit) :
    Relation.ReflTransGen rule.Merge t.entries (Approximate.merged rule t) := by
  unfold Approximate.merged
  split
  · rename_i hnil
    rw [List.reverse_eq_nil_iff.mp hnil]
  · rename_i e older hcons
    have heq : t.entries = older.reverse ++ [⟨e.key, (), e.weight⟩] := by
      rw [← List.reverse_reverse t.entries, hcons, List.reverse_cons]
    rw [heq]
    exact merges_mergeRuns rule e.key e.weight older []

end BinTrace.Reuse
