import BinTrace.Flow.Numbering
import BinTrace.Proofs.Dominators.DepthFirst

/-!
The walk that numbers a graph is depth-first: what waits was found from above the node that was
numbered last, and what waits longer was found from further above.
-/

namespace BinTrace.Numbering

open Relation

variable {n : Nat}

/-- `p` and `i` are the numbers of a node and of one that the walk has found from there. -/
def Parent (t : Numbering n) (p i : Nat) : Prop :=
  ∃ u v, t.nodes[p]? = some u ∧ t.nodes[i]? = some v ∧ t.parent? v = some u

/-- The edges between nodes with numbers, told by the numbers. -/
def Edge (edges : Edges) (t : Numbering n) (i j : Nat) : Prop :=
  ∃ v w, t.nodes[i]? = some v ∧ t.nodes[j]? = some w ∧ w ∈ edges.getD v []

/-- Numbers and nodes belong to each other one to one. -/
def Matched (t : Numbering n) : Prop :=
  ∀ v i, t.number? v = some i ↔ t.nodes[i]? = some v

variable {t : Numbering n} {u v w i j p : Nat} {source : Option Nat}

theorem Matched.eq (ht : t.Matched) (hi : t.nodes[i]? = some v) (hj : t.nodes[j]? = some v) :
    i = j := by
  rw [← ht] at hi hj
  exact Option.some.inj (hi.symm.trans hj)

theorem lt_of_number? (h : t.number? v = some i) : v < n := by
  unfold number? at h
  by_contra hge
  rw [Vector.getElem?_eq_none (by omega)] at h
  cases h

theorem number?_visit (hv : v < n) : (t.visit v source).number? w =
    if w = v then some t.nodes.size else t.number? w := by
  unfold number? visit
  rw [Vector.getElem?_setIfInBounds]
  by_cases hw : w = v
  · simp [hw, hv]
  · simp [hw, Ne.symm hw]

theorem parent?_visit (hv : v < n) : (t.visit v source).parent? w =
    if w = v then source else t.parent? w := by
  unfold parent? visit
  rw [Vector.getElem?_setIfInBounds]
  by_cases hw : w = v
  · simp [hw, hv]
  · simp [hw, Ne.symm hw]

theorem nodes_visit : (t.visit v source).nodes[i]? =
    if i = t.nodes.size then some v else t.nodes[i]? :=
  Array.getElem?_push

@[simp] theorem size_visit : (t.visit v source).nodes.size = t.nodes.size + 1 := Array.size_push ..

theorem lt_size (h : t.nodes[i]? = some v) : i < t.nodes.size :=
  (Array.getElem?_eq_some_iff.mp h).1

theorem nodes_visit_of_some (h : t.nodes[i]? = some w) :
    (t.visit v source).nodes[i]? = some w := by
  rw [nodes_visit, if_neg (lt_size h).ne, h]

theorem nodes_visit_self : (t.visit v source).nodes[t.nodes.size]? = some v := by
  rw [nodes_visit, if_pos rfl]

/-- A number is an old one with its old node, or it is the new one. -/
theorem nodes_visit_cases (h : (t.visit v source).nodes[i]? = some w) :
    t.nodes[i]? = some w ∨ i = t.nodes.size ∧ w = v := by
  rw [nodes_visit] at h
  split at h
  · rename_i hi
    exact .inr ⟨hi, (Option.some.inj h).symm⟩
  · exact .inl h

theorem matched_visit (ht : t.Matched) (hv : v < n) (hnew : t.number? v = none) :
    (t.visit v source).Matched := by
  intro w i
  rw [number?_visit hv, nodes_visit]
  by_cases hw : w = v
  · rw [if_pos hw]
    split
    · simp_all
    · rename_i hi
      have hother : ¬ t.nodes[i]? = some w := by
        rw [← ht w i, hw, hnew]
        simp
      simp only [hother, iff_false, Option.some.injEq]
      exact Ne.symm hi
  · rw [if_neg hw, ht w i]
    split
    · rename_i hi
      simp [hi, Ne.symm hw]
    · rfl

/-- The walk on its way. Each node that waits comes with the one from which it was found. -/
structure Walking (edges : Edges) (entry : Nat) (t : Numbering edges.size)
    (work : List (Nat × Option Nat)) : Prop where
  matched : t.Matched
  first : t.nodes[0]? = some entry
  parent_numbered (v i u : Nat) : t.nodes[i]? = some v → t.parent? v = some u →
    v ∈ edges.getD u [] ∧ ∃ p, p < i ∧ t.nodes[p]? = some u
  exists_parent (i : Nat) : 0 < i → i < t.nodes.size → ∃ p, t.Parent p i
  next (p i : Nat) : t.Parent p (i + 1) → ReflTransGen t.Parent p i
  forward (i j : Nat) : t.Edge edges i j → i < j → ReflTransGen t.Parent i j
  /-- Edges lead to what has a number or waits. -/
  pending (v w i : Nat) : t.nodes[i]? = some v → w ∈ edges.getD v [] →
    (∃ j : Nat, t.nodes[j]? = some w) ∨ (w, some v) ∈ work
  sources (s : Nat) (source : Option Nat) : (s, source) ∈ work → ∃ u i : Nat, source = some u ∧
    s ∈ edges.getD u [] ∧ t.nodes[i]? = some u ∧ ReflTransGen t.Parent i (t.nodes.size - 1)
  nested : work.Pairwise fun a b => ∀ u v i j : Nat, a.2 = some u → b.2 = some v →
    t.nodes[i]? = some u → t.nodes[j]? = some v → ReflTransGen t.Parent j i

namespace Walking

variable {edges : Edges} {entry : Nat} {t : Numbering edges.size} {rest : List (Nat × Option Nat)}
variable {u v i j p k : Nat}

theorem ne_of_new (ht : t.Matched) (hnew : t.number? v = none) (hi : t.nodes[i]? = some u) :
    u ≠ v := by
  rintro rfl
  rw [(ht u i).mpr hi] at hnew
  cases hnew

/-- Numbering a node adds one child to the node from which it was found. -/
theorem parent_visit_iff (hw : Walking edges entry t ((v, some u) :: rest)) (hv : v < edges.size)
    (hnew : t.number? v = none) : (t.visit v (some u)).Parent p i ↔
      t.Parent p i ∨ i = t.nodes.size ∧ t.nodes[p]? = some u := by
  obtain ⟨_, k, ⟨⟩, -, hk, -⟩ := hw.sources v (some u) List.mem_cons_self
  constructor
  · rintro ⟨a, b, ha, hb, hab⟩
    rw [parent?_visit hv] at hab
    rw [nodes_visit] at ha hb
    split at hb
    · rename_i hi
      cases hb
      rw [if_pos rfl] at hab
      cases hab
      split at ha
      · cases ha
        exact absurd rfl (ne_of_new hw.matched hnew hk)
      · exact .inr ⟨hi, ha⟩
    · rw [if_neg (ne_of_new hw.matched hnew hb)] at hab
      obtain ⟨-, q, -, hq⟩ := hw.parent_numbered b i a hb hab
      split at ha
      · cases ha
        exact absurd rfl (ne_of_new hw.matched hnew hq)
      · exact .inl ⟨a, b, ha, hb, hab⟩
  · rintro (⟨a, b, ha, hb, hab⟩ | ⟨rfl, hp⟩)
    · refine ⟨a, b, nodes_visit_of_some ha, nodes_visit_of_some hb, ?_⟩
      rwa [parent?_visit hv, if_neg (ne_of_new hw.matched hnew hb)]
    · refine ⟨u, v, nodes_visit_of_some hp, by rw [nodes_visit, if_pos rfl], ?_⟩
      rw [parent?_visit hv, if_pos rfl]

/-- What lies above each other stays so. -/
theorem above_visit (hw : Walking edges entry t ((v, some u) :: rest)) (hv : v < edges.size)
    (hnew : t.number? v = none) (h : ReflTransGen t.Parent i j) :
    ReflTransGen (t.visit v (some u)).Parent i j := by
  induction h with
  | refl => exact .refl
  | tail _ hab ih => exact ih.tail ((hw.parent_visit_iff hv hnew).mpr (.inl hab))

/-- The node that gets the next number lies below all nodes from which the others were found. -/
theorem above_new (hw : Walking edges entry t ((v, some u) :: rest)) (hv : v < edges.size)
    (hnew : t.number? v = none) {s : Nat} {source : Option Nat}
    (hs : (s, source) ∈ (v, some u) :: rest) {a : Nat} (ha : source = some a)
    (hi : t.nodes[i]? = some a) : ReflTransGen (t.visit v (some u)).Parent i t.nodes.size := by
  obtain ⟨_, k, ⟨⟩, -, hk, -⟩ := hw.sources v (some u) List.mem_cons_self
  have hik : ReflTransGen t.Parent i k := by
    rcases List.mem_cons.mp hs with heq | hs
    · cases heq
      cases ha
      rw [hw.matched.eq hi hk]
    · exact (List.pairwise_cons.mp hw.nested).1 _ hs u a k i rfl ha hk hi
  exact (hw.above_visit hv hnew hik).tail ((hw.parent_visit_iff hv hnew).mpr (.inr ⟨rfl, hk⟩))

theorem mem_fresh {s : Nat} {source : Option Nat} : (s, source) ∈ fresh edges t v ↔
    s ∈ edges.getD v [] ∧ t.number? s = none ∧ source = some v := by
  simp only [fresh, List.mem_map, List.mem_filter, Option.isNone_iff_eq_none, Prod.mk.injEq]
  constructor
  · rintro ⟨_, ⟨hs, hnone⟩, rfl, rfl⟩
    exact ⟨hs, hnone, rfl⟩
  · rintro ⟨hs, hnone, rfl⟩
    exact ⟨s, ⟨hs, hnone⟩, rfl, rfl⟩

theorem parent_numbered_visit (hw : Walking edges entry t ((v, some u) :: rest))
    (hv : v < edges.size) (hnew : t.number? v = none) {a b : Nat}
    (ha : (t.visit v (some u)).nodes[i]? = some a)
    (hb : (t.visit v (some u)).parent? a = some b) :
    a ∈ edges.getD b [] ∧ ∃ p, p < i ∧ (t.visit v (some u)).nodes[p]? = some b := by
  obtain ⟨_, k, ⟨⟩, hedge, hk, -⟩ := hw.sources v (some u) List.mem_cons_self
  rw [parent?_visit hv] at hb
  rcases nodes_visit_cases ha with ha | ⟨rfl, rfl⟩
  · rw [if_neg (ne_of_new hw.matched hnew ha)] at hb
    obtain ⟨hmem, p, hp, hpb⟩ := hw.parent_numbered a i b ha hb
    exact ⟨hmem, p, hp, nodes_visit_of_some hpb⟩
  · rw [if_pos rfl] at hb
    cases hb
    exact ⟨hedge, k, lt_size hk, nodes_visit_of_some hk⟩

theorem exists_parent_visit (hw : Walking edges entry t ((v, some u) :: rest)) (hv : v < edges.size)
    (hnew : t.number? v = none) (hi : 0 < i) (hlt : i < (t.visit v (some u)).nodes.size) :
    ∃ p, (t.visit v (some u)).Parent p i := by
  obtain ⟨_, k, ⟨⟩, -, hk, -⟩ := hw.sources v (some u) List.mem_cons_self
  rw [size_visit] at hlt
  by_cases hik : i = t.nodes.size
  · exact ⟨k, (hw.parent_visit_iff hv hnew).mpr (.inr ⟨hik, hk⟩)⟩
  · obtain ⟨p, hp⟩ := hw.exists_parent i hi (by omega)
    exact ⟨p, (hw.parent_visit_iff hv hnew).mpr (.inl hp)⟩

theorem next_visit (hw : Walking edges entry t ((v, some u) :: rest)) (hv : v < edges.size)
    (hnew : t.number? v = none) (hp : (t.visit v (some u)).Parent p (i + 1)) :
    ReflTransGen (t.visit v (some u)).Parent p i := by
  obtain ⟨_, k, ⟨⟩, -, hk, hlast⟩ := hw.sources v (some u) List.mem_cons_self
  rcases (hw.parent_visit_iff hv hnew).mp hp with hp | ⟨hi, hp⟩
  · exact hw.above_visit hv hnew (hw.next p i hp)
  · rw [hw.matched.eq hp hk, show i = t.nodes.size - 1 by omega]
    exact hw.above_visit hv hnew hlast

theorem forward_visit (hw : Walking edges entry t ((v, some u) :: rest)) (hv : v < edges.size)
    (hnew : t.number? v = none) (h : (t.visit v (some u)).Edge edges i j) (hij : i < j) :
    ReflTransGen (t.visit v (some u)).Parent i j := by
  obtain ⟨a, b, ha, hb, hab⟩ := h
  rcases nodes_visit_cases hb with hb | ⟨rfl, rfl⟩
  · have hj : j < t.nodes.size := lt_size hb
    rcases nodes_visit_cases ha with ha | ⟨rfl, -⟩
    · exact hw.above_visit hv hnew (hw.forward i j ⟨a, b, ha, hb, hab⟩ hij)
    · omega
  · -- An edge to the new node is not used up yet, so its source is one from which nodes wait.
    rcases nodes_visit_cases ha with ha | ⟨rfl, -⟩
    · rcases hw.pending a b i ha hab with ⟨j, hj⟩ | hwaits
      · exact absurd rfl (ne_of_new hw.matched hnew hj)
      · exact hw.above_new hv hnew hwaits rfl ha
    · omega

theorem pending_visit (hw : Walking edges entry t ((v, some u) :: rest)) (hv : v < edges.size)
    (hnew : t.number? v = none) {a b : Nat} (ha : (t.visit v (some u)).nodes[i]? = some a)
    (hab : b ∈ edges.getD a []) : (∃ j : Nat, (t.visit v (some u)).nodes[j]? = some b) ∨
      (b, some a) ∈ fresh edges (t.visit v (some u)) v ++ rest := by
  by_cases hb : (t.visit v (some u)).number? b = none
  · rcases nodes_visit_cases ha with ha | ⟨-, rfl⟩
    · rcases hw.pending a b i ha hab with ⟨j, hj⟩ | hwaits
      · exact .inl ⟨j, nodes_visit_of_some hj⟩
      · rcases List.mem_cons.mp hwaits with heq | hrest
        · cases heq
          exact .inl ⟨_, nodes_visit_self⟩
        · exact .inr (List.mem_append_right _ hrest)
    · exact .inr (List.mem_append_left _ (mem_fresh.mpr ⟨hab, hb, rfl⟩))
  · obtain ⟨j, hj⟩ := Option.ne_none_iff_exists'.mp hb
    exact .inl ⟨j, (matched_visit hw.matched hv hnew b j).mp hj⟩

/-- Whatever waits after the visit was found from above the new node. -/
theorem sources_visit (hw : Walking edges entry t ((v, some u) :: rest)) (hv : v < edges.size)
    (hnew : t.number? v = none) {s : Nat} {source : Option Nat}
    (hs : (s, source) ∈ fresh edges (t.visit v (some u)) v ++ rest) :
    ∃ a i : Nat, source = some a ∧ s ∈ edges.getD a [] ∧
      (t.visit v (some u)).nodes[i]? = some a ∧
      ReflTransGen (t.visit v (some u)).Parent i t.nodes.size := by
  rcases List.mem_append.mp hs with hs | hs
  · obtain ⟨hsv, -, rfl⟩ := mem_fresh.mp hs
    exact ⟨v, _, rfl, hsv, nodes_visit_self, .refl⟩
  · have hs' := List.mem_cons_of_mem (v, some u) hs
    obtain ⟨a, i, rfl, hsa, hi, -⟩ := hw.sources s source hs'
    exact ⟨a, i, rfl, hsa, nodes_visit_of_some hi, hw.above_new hv hnew hs' rfl hi⟩

theorem nested_visit (hw : Walking edges entry t ((v, some u) :: rest)) (hv : v < edges.size)
    (hnew : t.number? v = none) :
    (fresh edges (t.visit v (some u)) v ++ rest).Pairwise fun a b => ∀ x y i j : Nat,
      a.2 = some x → b.2 = some y → (t.visit v (some u)).nodes[i]? = some x →
      (t.visit v (some u)).nodes[j]? = some y →
      ReflTransGen (t.visit v (some u)).Parent j i := by
  have hmatched : (t.visit v (some u)).Matched := matched_visit hw.matched hv hnew
  -- What has just been found was found from the new node, and all others from above it.
  have hfresh : ∀ a ∈ fresh edges (t.visit v (some u)) v,
      ∀ b ∈ fresh edges (t.visit v (some u)) v ++ rest, ∀ x y i j : Nat, a.2 = some x →
      b.2 = some y → (t.visit v (some u)).nodes[i]? = some x →
      (t.visit v (some u)).nodes[j]? = some y →
      ReflTransGen (t.visit v (some u)).Parent j i := by
    intro a ha b hb x y i j hx hy hi hj
    obtain ⟨-, -, hsource⟩ := mem_fresh.mp ha
    cases hx.symm.trans hsource
    obtain ⟨_, k, hsource, -, hk, habove⟩ := hw.sources_visit hv hnew hb
    cases hy.symm.trans hsource
    rw [hmatched.eq hi nodes_visit_self, hmatched.eq hj hk]
    exact habove
  refine List.pairwise_append.mpr ⟨?_, (List.pairwise_cons.mp hw.nested).2.imp_of_mem ?_, ?_⟩
  · refine List.pairwise_of_forall_mem_list fun a ha b hb => ?_
    exact hfresh a ha b (List.mem_append_left _ hb)
  · intro a b ha hb hab x y i j hx hy hi hj
    obtain ⟨_, i', hsource, -, hi', -⟩ := hw.sources a.1 a.2 (List.mem_cons_of_mem _ ha)
    cases hx.symm.trans hsource
    obtain ⟨_, j', hsource, -, hj', -⟩ := hw.sources b.1 b.2 (List.mem_cons_of_mem _ hb)
    cases hy.symm.trans hsource
    rw [hmatched.eq hi (nodes_visit_of_some hi'), hmatched.eq hj (nodes_visit_of_some hj')]
    exact hw.above_visit hv hnew (hab x y i' j' hx hy hi' hj')
  · intro a ha b hb
    exact hfresh a ha b (List.mem_append_right _ hb)

theorem visit (hw : Walking edges entry t ((v, some u) :: rest)) (hv : v < edges.size)
    (hnew : t.number? v = none) :
    Walking edges entry (t.visit v (some u)) (fresh edges (t.visit v (some u)) v ++ rest) where
  matched := matched_visit hw.matched hv hnew
  first := nodes_visit_of_some hw.first
  parent_numbered _ _ _ := hw.parent_numbered_visit hv hnew
  exists_parent _ := hw.exists_parent_visit hv hnew
  next _ _ := hw.next_visit hv hnew
  forward _ _ := hw.forward_visit hv hnew
  pending _ _ _ := hw.pending_visit hv hnew
  sources _ _ := by
    rw [size_visit, Nat.add_sub_cancel]
    exact hw.sources_visit hv hnew
  nested := hw.nested_visit hv hnew

/-- A node that has a number already is passed over. -/
theorem skip (hw : Walking edges entry t ((v, some u) :: rest)) (hi : t.nodes[i]? = some v) :
    Walking edges entry t rest := by
  refine ⟨hw.matched, hw.first, hw.parent_numbered, hw.exists_parent, hw.next, hw.forward, ?_,
    fun s source hs => hw.sources s source (List.mem_cons_of_mem _ hs),
    (List.pairwise_cons.mp hw.nested).2⟩
  intro a b j ha hab
  rcases hw.pending a b j ha hab with hnumbered | hwaits
  · exact .inl hnumbered
  · rcases List.mem_cons.mp hwaits with heq | hrest
    · cases heq
      exact .inl ⟨i, hi⟩
    · exact .inr hrest

theorem walk {work : List (Nat × Option Nat)} (hw : Walking edges entry t work)
    (hedges : ∀ v, ∀ w ∈ edges.getD v [], w < edges.size) :
    Walking edges entry (Numbering.walk edges t work) [] := by
  fun_induction Numbering.walk edges t work with
  | case1 t => exact hw
  | case2 t v source rest h next ih =>
      obtain ⟨u, i, rfl, -, -, -⟩ := hw.sources v source List.mem_cons_self
      exact ih (hw.visit h.1 h.2)
  | case3 t v source rest h ih =>
      obtain ⟨u, i, rfl, hedge, -, -⟩ := hw.sources v source List.mem_cons_self
      have hv : v < edges.size := hedges u v hedge
      obtain ⟨j, hj⟩ := Option.ne_none_iff_exists'.mp fun hnone => h ⟨hv, hnone⟩
      exact ih (hw.skip ((hw.matched v j).mp hj))

end Walking

theorem number?_empty (n v : Nat) : ({} : Numbering n).number? v = none := by
  simp only [number?, Vector.getElem?_replicate]
  split <;> rfl

theorem parent?_empty (n v : Nat) : ({} : Numbering n).parent? v = none := by
  simp only [parent?, Vector.getElem?_replicate]
  split <;> rfl

/-- Once the entry has its number, everything waits to which it has an edge. -/
theorem walking_entry {edges : Edges} {entry : Nat} (hentry : entry < edges.size) :
    Walking edges entry (visit {} entry none) (fresh edges (visit {} entry none) entry) := by
  have hempty : ({} : Numbering edges.size).Matched := by
    intro v i
    rw [number?_empty]
    simp
  have hmatched : (visit ({} : Numbering edges.size) entry none).Matched :=
    matched_visit hempty hentry (number?_empty _ entry)
  have hnode : ∀ {i a}, (visit ({} : Numbering edges.size) entry none).nodes[i]? = some a →
      i = 0 ∧ a = entry := by
    intro i a ha
    rcases nodes_visit_cases ha with ha | hlast
    · cases ha
    · exact hlast
  have hfirst : (visit ({} : Numbering edges.size) entry none).nodes[0]? = some entry := rfl
  have hparent : ∀ v, (visit ({} : Numbering edges.size) entry none).parent? v = none := by
    intro v
    rw [parent?_visit hentry, parent?_empty, ite_self]
  have hno : ∀ p i, ¬ (visit ({} : Numbering edges.size) entry none).Parent p i := by
    rintro p i ⟨a, b, -, -, hab⟩
    rw [hparent] at hab
    cases hab
  refine ⟨hmatched, hfirst, fun v i u _ hu => ?_, fun i hpos hi => ?_,
    fun p i hp => absurd hp (hno _ _), fun i j hij hlt => ?_, fun v w i hv hw => ?_,
    fun s source hs => ?_, List.pairwise_of_forall_mem_list fun a ha b hb u v i j _ _ hi hj => ?_⟩
  · rw [hparent] at hu
    cases hu
  · rw [size_visit] at hi
    change i < 0 + 1 at hi
    omega
  · obtain ⟨a, b, -, hb, -⟩ := hij
    have := (hnode hb).1
    omega
  · obtain ⟨-, rfl⟩ := hnode hv
    by_cases hnew : (visit ({} : Numbering edges.size) v none).number? w = none
    · exact .inr (Walking.mem_fresh.mpr ⟨hw, hnew, rfl⟩)
    · obtain ⟨j, hj⟩ := Option.ne_none_iff_exists'.mp hnew
      exact .inl ⟨j, (hmatched w j).mp hj⟩
  · obtain ⟨hedge, -, rfl⟩ := Walking.mem_fresh.mp hs
    exact ⟨entry, 0, rfl, hedge, hfirst, .refl⟩
  · rw [(hnode hi).1, (hnode hj).1]

theorem walking_ofEntry {edges : Edges} {entry : Nat} (hentry : entry < edges.size)
    (hedges : ∀ v, ∀ w ∈ edges.getD v [], w < edges.size) :
    Walking edges entry (ofEntry edges entry) [] := by
  rw [ofEntry, Numbering.walk, dif_pos ⟨hentry, number?_empty _ entry⟩]
  refine Walking.walk ?_ hedges
  rw [List.append_nil]
  exact walking_entry hentry

variable {edges : Edges} {entry : Nat} {t : Numbering edges.size}

/-- When nothing waits, the numbers and parents are those of a depth-first tree. -/
theorem Walking.depthFirst (hw : Walking edges entry t []) :
    DepthFirst t.nodes.size (t.Edge edges) t.Parent where
  edge_lt := fun ⟨_, _, hi, hj, _⟩ => ⟨lt_size hi, lt_size hj⟩
  parent_lt := by
    rintro p i ⟨u, v, hu, hv, hvu⟩
    obtain ⟨-, q, hq, hqu⟩ := hw.parent_numbered v i u hv hvu
    exact hw.matched.eq hu hqu ▸ hq
  parent_edge := fun ⟨u, v, hu, hv, hvu⟩ => ⟨u, v, hu, hv, (hw.parent_numbered v _ u hv hvu).1⟩
  parent_unique := by
    rintro p q i ⟨u, v, hu, hv, hvu⟩ ⟨u', v', hu', hv', hvu'⟩
    cases hv.symm.trans hv'
    cases hvu.symm.trans hvu'
    exact hw.matched.eq hu hu'
  exists_parent := hw.exists_parent _
  next := hw.next _ _
  forward := hw.forward _ _

/-- Every edge from a node with a number leads to one. -/
theorem Walking.closed (hw : Walking edges entry t []) {v w i : Nat} (hi : t.nodes[i]? = some v)
    (hvw : w ∈ edges.getD v []) : ∃ j : Nat, t.nodes[j]? = some w := by
  rcases hw.pending v w i hi hvw with hnumbered | hwaits
  · exact hnumbered
  · cases hwaits

end BinTrace.Numbering
