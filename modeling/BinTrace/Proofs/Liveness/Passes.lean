import BinTrace.Liveness
import Mathlib

/-!
The passes of the liveness analysis. Going over the nodes again and again until nothing changes
comes to an end, because every change adds a member to some set and the sets have room for
finitely many. At the end the sets satisfy the equations of every node, and they hold no more than
any other sets that do: a property of cells that the equations respect holds of all that is in
the sets.
-/

namespace BinTrace

theorem Cell.mem_all (c : Cell) : c ∈ Cell.all := by
  cases c with
  | gpr r => exact List.mem_append_left _ (List.mem_map_of_mem r.mem_all)
  | flag f => exact List.mem_append_right _ (List.mem_map_of_mem f.mem_all)

namespace RegSet

/-- How many members a set has. -/
def card (s : RegSet) : Nat := s.toList.length

theorem card_le (s : RegSet) : s.card ≤ Cell.all.length := List.length_filter_le _ _

theorem toList_of_subset {s t : RegSet} (h : ∀ c, c ∈ s → c ∈ t) :
    s.toList = t.toList.filter s.contains := by
  rw [toList, toList, List.filter_filter]
  refine List.filter_congr fun c _ => ?_
  cases hc : s.contains c with
  | false => rfl
  | true => simpa using (h c hc).symm

theorem card_le_card {s t : RegSet} (h : ∀ c, c ∈ s → c ∈ t) : s.card ≤ t.card := by
  rw [card, toList_of_subset h]
  exact List.length_filter_le _ _

theorem card_lt_card {s t : RegSet} (h : ∀ c, c ∈ s → c ∈ t) (hne : s ≠ t) : s.card < t.card := by
  have hmore : ∃ c, c ∈ t ∧ c ∉ s := by
    by_contra hnone
    refine hne (eq_of_mem_iff fun c => ⟨h c, fun hc => ?_⟩)
    by_contra hcs
    exact hnone ⟨c, hc, hcs⟩
  obtain ⟨c, hct, hcs⟩ := hmore
  rw [card, toList_of_subset h, card, List.length_filter_lt_length_iff_exists]
  exact ⟨c, List.mem_filter.mpr ⟨c.mem_all, hct⟩, hcs⟩

end RegSet

namespace Liveness

variable {nodes : List LivenessNode} {sets : Sets} {node : LivenessNode} {n : Nat} {c : Cell}

theorem mem_outOf {ins : Array RegSet} :
    c ∈ outOf ins node ↔ c ∈ node.boundary ∨ ∃ m ∈ node.next, c ∈ ins.getD m ∅ := by
  unfold outOf
  generalize node.boundary = start
  induction node.next generalizing start with
  | nil => simp
  | cons m rest ih =>
      rw [List.foldl_cons, ih, RegSet.mem_union, or_assoc]
      simp

theorem mem_inOf {out : RegSet} :
    c ∈ inOf node out ↔ c ∈ node.uses ∨ (c ∈ out ∧ c ∉ node.defs) := by
  rw [inOf, RegSet.mem_union, RegSet.mem_sdiff]

theorem getD_set (xs : Array RegSet) (i j : Nat) (v : RegSet) :
    (xs.setIfInBounds i v).getD j ∅ = if i = j ∧ i < xs.size then v else xs.getD j ∅ := by
  simp only [Array.getD_eq_getD_getElem?, Array.getElem?_setIfInBounds]
  split
  · rename_i h
    subst h
    split
    · rename_i hlt
      simp [hlt]
    · rename_i hlt
      simp [hlt]
  · rename_i h
    simp [h]

/-! ### One step -/

/-- The sets of a position are what its node makes of the sets around it. -/
def Settled (sets : Sets) (node : LivenessNode) (n : Nat) : Prop :=
  outOf sets.ins node = sets.outs.getD n ∅ ∧
    inOf node (outOf sets.ins node) = sets.ins.getD n ∅

/-- There is a set for every node, and none that a node would make smaller. -/
structure Rising (nodes : List LivenessNode) (sets : Sets) : Prop where
  ins_size : sets.ins.size = nodes.length
  outs_size : sets.outs.size = nodes.length
  outs_le {n : Nat} {node : LivenessNode} : nodes[n]? = some node →
    ∀ c ∈ sets.outs.getD n ∅, c ∈ outOf sets.ins node
  ins_le {n : Nat} {node : LivenessNode} : nodes[n]? = some node →
    ∀ c ∈ sets.ins.getD n ∅, c ∈ inOf node (outOf sets.ins node)

/-- The sets of a position replaced by what its node makes of the others. -/
def recompute (sets : Sets) (node : LivenessNode) (n : Nat) : Sets :=
  ⟨sets.ins.setIfInBounds n (inOf node (outOf sets.ins node)),
    sets.outs.setIfInBounds n (outOf sets.ins node)⟩

theorem update_of_settled {changed : Bool} (h : Settled sets node n) :
    update (sets, changed) node n = (sets, changed) := if_pos h

theorem update_of_not_settled {changed : Bool} (h : ¬ Settled sets node n) :
    update (sets, changed) node n = (recompute sets node n, true) := if_neg h

theorem ins_recompute (hr : Rising nodes sets) (hn : nodes[n]? = some node) (m : Nat) :
    (recompute sets node n).ins.getD m ∅ =
      if n = m then inOf node (outOf sets.ins node) else sets.ins.getD m ∅ := by
  have hlt : n < sets.ins.size := hr.ins_size ▸ (List.getElem?_eq_some_iff.mp hn).1
  simp only [recompute, getD_set, hlt, and_true]

theorem outs_recompute (hr : Rising nodes sets) (hn : nodes[n]? = some node) (m : Nat) :
    (recompute sets node n).outs.getD m ∅ =
      if n = m then outOf sets.ins node else sets.outs.getD m ∅ := by
  have hlt : n < sets.outs.size := hr.outs_size ▸ (List.getElem?_eq_some_iff.mp hn).1
  simp only [recompute, getD_set, hlt, and_true]

theorem ins_le_recompute (hr : Rising nodes sets) (hn : nodes[n]? = some node) (m : Nat) :
    ∀ c ∈ sets.ins.getD m ∅, c ∈ (recompute sets node n).ins.getD m ∅ := by
  intro c hc
  rw [ins_recompute hr hn]
  split
  · rename_i hm
    subst hm
    exact hr.ins_le hn c hc
  · exact hc

theorem outs_le_recompute (hr : Rising nodes sets) (hn : nodes[n]? = some node) (m : Nat) :
    ∀ c ∈ sets.outs.getD m ∅, c ∈ (recompute sets node n).outs.getD m ∅ := by
  intro c hc
  rw [outs_recompute hr hn]
  split
  · rename_i hm
    subst hm
    exact hr.outs_le hn c hc
  · exact hc

theorem Rising.recompute (hr : Rising nodes sets) (hn : nodes[n]? = some node) :
    Rising nodes (recompute sets node n) := by
  have hout (other : LivenessNode) (c : Cell) (hc : c ∈ outOf sets.ins other) :
      c ∈ outOf (Liveness.recompute sets node n).ins other := by
    rcases mem_outOf.mp hc with hb | ⟨m, hm, hcm⟩
    · exact mem_outOf.mpr (.inl hb)
    · exact mem_outOf.mpr (.inr ⟨m, hm, ins_le_recompute hr hn m c hcm⟩)
  have hin (other : LivenessNode) (c : Cell) (hc : c ∈ inOf other (outOf sets.ins other)) :
      c ∈ inOf other (outOf (Liveness.recompute sets node n).ins other) := by
    rcases mem_inOf.mp hc with hu | ⟨ho, hd⟩
    · exact mem_inOf.mpr (.inl hu)
    · exact mem_inOf.mpr (.inr ⟨hout other c ho, hd⟩)
  refine ⟨?_, ?_, fun {m other} hm c hc => ?_, fun {m other} hm c hc => ?_⟩
  · simp [Liveness.recompute, hr.ins_size]
  · simp [Liveness.recompute, hr.outs_size]
  · rw [outs_recompute hr hn] at hc
    split at hc
    · rename_i hnm
      subst hnm
      obtain rfl := Option.some.inj (hn.symm.trans hm)
      exact hout node c hc
    · exact hout other c (hr.outs_le hm c hc)
  · rw [ins_recompute hr hn] at hc
    split at hc
    · rename_i hnm
      subst hnm
      obtain rfl := Option.some.inj (hn.symm.trans hm)
      exact hin node c hc
    · exact hin other c (hr.ins_le hm c hc)

/-- The members of all sets, counted together. -/
def members (nodes : List LivenessNode) (sets : Sets) : Nat :=
  ∑ n ∈ Finset.range nodes.length, ((sets.ins.getD n ∅).card + (sets.outs.getD n ∅).card)

theorem members_le (nodes : List LivenessNode) (sets : Sets) :
    members nodes sets ≤ capacity nodes := by
  have hroom : ∀ n ∈ Finset.range nodes.length,
      (sets.ins.getD n ∅).card + (sets.outs.getD n ∅).card ≤ 2 * Cell.all.length := by
    intro n _
    have hins := (sets.ins.getD n ∅).card_le
    have houts := (sets.outs.getD n ∅).card_le
    omega
  calc members nodes sets ≤ (Finset.range nodes.length).card * (2 * Cell.all.length) :=
        Finset.sum_le_card_nsmul _ _ _ hroom
    _ = capacity nodes := by rw [Finset.card_range, capacity, Nat.mul_comm]

theorem members_recompute (hr : Rising nodes sets) (hn : nodes[n]? = some node)
    (h : ¬ Settled sets node n) : members nodes sets < members nodes (recompute sets node n) := by
  have hins := ins_le_recompute hr hn
  have houts := outs_le_recompute hr hn
  refine Finset.sum_lt_sum (fun m _ => ?_) ⟨n, ?_, ?_⟩
  · exact Nat.add_le_add (RegSet.card_le_card (hins m)) (RegSet.card_le_card (houts m))
  · exact Finset.mem_range.mpr (List.getElem?_eq_some_iff.mp hn).1
  · by_cases hout : outOf sets.ins node = sets.outs.getD n ∅
    · have hin : sets.ins.getD n ∅ ≠ (recompute sets node n).ins.getD n ∅ := by
        rw [ins_recompute hr hn, if_pos rfl]
        exact fun heq => h ⟨hout, heq.symm⟩
      exact Nat.add_lt_add_of_lt_of_le (RegSet.card_lt_card (hins n) hin)
        (RegSet.card_le_card (houts n))
    · have hne : sets.outs.getD n ∅ ≠ (recompute sets node n).outs.getD n ∅ := by
        rw [outs_recompute hr hn, if_pos rfl]
        exact fun heq => hout heq.symm
      exact Nat.add_lt_add_of_le_of_lt (RegSet.card_le_card (hins n))
        (RegSet.card_lt_card (houts n) hne)

/-! ### One pass -/

/-- What a pass, or the part of one that goes over the given positions, does to the sets: either
every position was settled and nothing changes, or a change is told and members are added. -/
theorem pass_cases (hr : Rising nodes sets) (part : List (LivenessNode × Nat))
    (hpart : ∀ x ∈ part, nodes[x.2]? = some x.1) :
    let after := part.foldr (fun x state => update state x.1 x.2) (sets, false)
    Rising nodes after.1 ∧
      ((after = (sets, false) ∧ ∀ x ∈ part, Settled sets x.1 x.2) ∨
        (after.2 = true ∧ members nodes sets < members nodes after.1)) := by
  induction part with
  | nil => exact ⟨hr, .inl ⟨rfl, by simp⟩⟩
  | cons x rest ih =>
      obtain ⟨hrise, hrest⟩ := ih fun y hy => hpart y (List.mem_cons_of_mem _ hy)
      have hx := hpart x List.mem_cons_self
      simp only [List.foldr_cons]
      generalize rest.foldr (fun x state => update state x.1 x.2) (sets, false) = mid at *
      obtain ⟨between, changed⟩ := mid
      by_cases hsettled : Settled between x.1 x.2
      · rw [update_of_settled hsettled]
        refine ⟨hrise, hrest.imp_left fun ⟨heq, hall⟩ => ⟨heq, ?_⟩⟩
        cases heq
        exact List.forall_mem_cons.mpr ⟨hsettled, hall⟩
      · rw [update_of_not_settled hsettled]
        have hmore := members_recompute hrise hx hsettled
        refine ⟨hrise.recompute hx, .inr ⟨rfl, ?_⟩⟩
        rcases hrest with ⟨heq, -⟩ | ⟨-, hless⟩
        · cases heq
          exact hmore
        · exact hless.trans hmore

theorem rising_pass (hr : Rising nodes sets) : Rising nodes (pass nodes sets).1 :=
  (pass_cases hr nodes.zipIdx fun _ hx => List.mem_zipIdx_iff_getElem?.mp hx).1

theorem members_pass (hr : Rising nodes sets) (h : (pass nodes sets).2 = true) :
    members nodes sets < members nodes (pass nodes sets).1 := by
  rcases (pass_cases hr nodes.zipIdx fun _ hx => List.mem_zipIdx_iff_getElem?.mp hx).2 with
    ⟨heq, -⟩ | ⟨-, hless⟩
  · rw [pass, heq] at h
    cases h
  · exact hless

/-- A pass that changes nothing has found every position settled. -/
theorem settled_of_pass (hr : Rising nodes sets) (h : (pass nodes sets).2 = false) :
    (pass nodes sets).1 = sets ∧ ∀ n node, nodes[n]? = some node → Settled sets node n := by
  rcases (pass_cases hr nodes.zipIdx fun _ hx => List.mem_zipIdx_iff_getElem?.mp hx).2 with
    ⟨heq, hall⟩ | ⟨htrue, -⟩
  · refine ⟨congrArg Prod.fst heq, fun n node hn => ?_⟩
    exact hall (node, n) (List.mem_zipIdx_iff_getElem?.mpr hn)
  · rw [pass, htrue] at h
    cases h

/-! ### All passes -/

/-- Passing over the nodes until a pass changes nothing takes the given number of passes and leads
from one state to another. Nothing bounds the number of passes here. -/
inductive Stabilizes (nodes : List LivenessNode) : Sets → Nat → Sets → Prop
  | still {sets : Sets} : (pass nodes sets).2 = false → Stabilizes nodes sets 1 (pass nodes sets).1
  | again {sets final : Sets} {k : Nat} : (pass nodes sets).2 = true →
      Stabilizes nodes (pass nodes sets).1 k final → Stabilizes nodes sets (k + 1) final

/-- As many passes as there is room for members are always enough. -/
theorem stabilizes_iterate (fuel passes : Nat) (hr : Rising nodes sets)
    (hfuel : capacity nodes < fuel + members nodes sets) :
    ∃ k final, iterate nodes fuel passes sets = (final, passes + k) ∧
      Stabilizes nodes sets k final := by
  induction fuel generalizing passes sets with
  | zero =>
      have := members_le nodes sets
      omega
  | succ fuel ih =>
      rw [iterate]
      dsimp only
      split
      · rename_i hchanged
        have hmore := members_pass hr hchanged
        obtain ⟨k, final, heq, hk⟩ := ih (passes + 1) (rising_pass hr) (by omega)
        refine ⟨k + 1, final, ?_, .again hchanged hk⟩
        rw [heq, Nat.add_assoc, Nat.add_comm 1]
      · rename_i hchanged
        exact ⟨1, _, rfl, .still (by simpa using hchanged)⟩

theorem Stabilizes.settled {k : Nat} {final : Sets} (h : Stabilizes nodes sets k final)
    (hr : Rising nodes sets) : ∀ n node, nodes[n]? = some node → Settled final node n := by
  induction h with
  | still hsame =>
      obtain ⟨heq, hall⟩ := settled_of_pass hr hsame
      rwa [heq]
  | again _ _ ih => exact ih (rising_pass hr)

/-! ### Nothing more than the equations ask for -/

/-- A property of cells in front of and behind positions that the equations of the nodes respect:
it holds of a cell wherever they make the cell live. -/
structure Respects (nodes : List LivenessNode) (before after : Nat → Cell → Prop) : Prop where
  of_boundary {n : Nat} {node : LivenessNode} {c : Cell} :
    nodes[n]? = some node → c ∈ node.boundary → after n c
  of_next {n m : Nat} {node : LivenessNode} {c : Cell} :
    nodes[n]? = some node → m ∈ node.next → before m c → after n c
  of_uses {n : Nat} {node : LivenessNode} {c : Cell} :
    nodes[n]? = some node → c ∈ node.uses → before n c
  of_after {n : Nat} {node : LivenessNode} {c : Cell} :
    nodes[n]? = some node → after n c → c ∉ node.defs → before n c

/-- The property holds of everything in the sets. -/
structure Within (before after : Nat → Cell → Prop) (sets : Sets) : Prop where
  ins {n : Nat} {c : Cell} : c ∈ sets.ins.getD n ∅ → before n c
  outs {n : Nat} {c : Cell} : c ∈ sets.outs.getD n ∅ → after n c

section Within

variable {before after : Nat → Cell → Prop}

theorem Respects.after_of_mem_outOf (hp : Respects nodes before after)
    (hw : Within before after sets) (hn : nodes[n]? = some node)
    (hc : c ∈ outOf sets.ins node) : after n c := by
  rcases mem_outOf.mp hc with hb | ⟨m, hm, hcm⟩
  · exact hp.of_boundary hn hb
  · exact hp.of_next hn hm (hw.ins hcm)

theorem Respects.before_of_mem_inOf (hp : Respects nodes before after)
    (hw : Within before after sets) (hn : nodes[n]? = some node)
    (hc : c ∈ inOf node (outOf sets.ins node)) : before n c := by
  rcases mem_inOf.mp hc with hu | ⟨ho, hd⟩
  · exact hp.of_uses hn hu
  · exact hp.of_after hn (hp.after_of_mem_outOf hw hn ho) hd

theorem Within.update {changed : Bool} (hp : Respects nodes before after)
    (hw : Within before after sets) (hn : nodes[n]? = some node) :
    Within before after (update (sets, changed) node n).1 := by
  by_cases hsettled : Settled sets node n
  · rwa [update_of_settled hsettled]
  · rw [update_of_not_settled hsettled]
    refine ⟨fun {m c} hc => ?_, fun {m c} hc => ?_⟩
    · rw [recompute, getD_set] at hc
      split at hc
      · rename_i h
        exact h.1 ▸ hp.before_of_mem_inOf hw hn hc
      · exact hw.ins hc
    · rw [recompute, getD_set] at hc
      split at hc
      · rename_i h
        exact h.1 ▸ hp.after_of_mem_outOf hw hn hc
      · exact hw.outs hc

theorem Within.pass (hp : Respects nodes before after) (hw : Within before after sets) :
    Within before after (pass nodes sets).1 := by
  have hpart : ∀ part : List (LivenessNode × Nat), (∀ x ∈ part, nodes[x.2]? = some x.1) →
      Within before after (part.foldr (fun x state => Liveness.update state x.1 x.2)
        (sets, false)).1 := by
    intro part hpart
    induction part with
    | nil => exact hw
    | cons x rest ih =>
        exact (ih fun y hy => hpart y (List.mem_cons_of_mem _ hy)).update hp
          (hpart x List.mem_cons_self)
  exact hpart nodes.zipIdx fun _ hx => List.mem_zipIdx_iff_getElem?.mp hx

theorem Stabilizes.within {k : Nat} {final : Sets} (h : Stabilizes nodes sets k final)
    (hp : Respects nodes before after) (hw : Within before after sets) :
    Within before after final := by
  induction h with
  | still _ => exact hw.pass hp
  | again _ _ ih => exact ih (hw.pass hp)

end Within

/-! ### The start of the analysis -/

/-- Nothing is live yet but what the boundaries say. -/
def initial (nodes : List LivenessNode) : Sets :=
  ⟨(nodes.map fun _ => (∅ : RegSet)).toArray, (nodes.map LivenessNode.boundary).toArray⟩

theorem ins_initial (nodes : List LivenessNode) (n : Nat) : (initial nodes).ins.getD n ∅ = ∅ := by
  rw [initial, Array.getD_eq_getD_getElem?, List.getElem?_toArray, List.getElem?_map]
  cases nodes[n]? <;> rfl

theorem outs_initial (nodes : List LivenessNode) (n : Nat) :
    (initial nodes).outs.getD n ∅ = (nodes[n]?.map LivenessNode.boundary).getD ∅ := by
  rw [initial, Array.getD_eq_getD_getElem?, List.getElem?_toArray, List.getElem?_map]

theorem rising_initial (nodes : List LivenessNode) : Rising nodes (initial nodes) := by
  refine ⟨by simp [initial], by simp [initial], fun {n node} hn c hc => ?_,
    fun {n node} _ c hc => ?_⟩
  · rw [outs_initial, hn] at hc
    exact mem_outOf.mpr (.inl hc)
  · rw [ins_initial] at hc
    exact absurd hc (RegSet.not_mem_empty c)

theorem within_initial {before after : Nat → Cell → Prop} (hp : Respects nodes before after) :
    Within before after (initial nodes) := by
  refine ⟨fun {n c} hc => ?_, fun {n c} hc => ?_⟩
  · rw [ins_initial] at hc
    exact absurd hc (RegSet.not_mem_empty c)
  · rw [outs_initial] at hc
    cases hn : nodes[n]? with
    | none =>
        rw [hn] at hc
        exact absurd hc (RegSet.not_mem_empty c)
    | some node =>
        rw [hn] at hc
        exact hp.of_boundary hn hc

/-- The result of an analysis that ends with the given sets. -/
def ofSets (nodes : List LivenessNode) (final : Sets) (passes : Nat) : Liveness :=
  { entries := nodes.zipIdx.map fun x =>
      ⟨x.1.address, final.ins.getD x.2 ∅, final.outs.getD x.2 ∅⟩
    passes }

/-- The passes of an analysis come to their end, and its result is what they end with. -/
theorem exists_stabilizes_analyze (g : FlowGraph) : ∃ passes final,
    analyze g = ofSets (Liveness.nodes g) final passes ∧
      Stabilizes (Liveness.nodes g) (initial (Liveness.nodes g)) passes final := by
  obtain ⟨passes, final, heq, hfinal⟩ := stabilizes_iterate (capacity (Liveness.nodes g) + 1) 0
    (rising_initial (Liveness.nodes g)) (by omega)
  refine ⟨passes, final, ?_, hfinal⟩
  rw [analyze]
  dsimp only
  rw [← initial, heq, Nat.zero_add, ofSets]

end Liveness

end BinTrace
