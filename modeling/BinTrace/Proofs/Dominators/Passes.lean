import BinTrace.Proofs.Dominators.Forest

/-!
The two passes over the numbers. On the way down every node gets its semidominator, and its
immediate dominator or a node above it that has the same one; on the way up the latter are replaced.
-/

namespace BinTrace

open Relation BinTrace.Numbering

variable {n : Nat} {t : Numbering n} {E P : Nat → Nat → Prop} {i j k m p u v w : Nat}

namespace Forest

variable {f : Forest n}

/-- The way down has come to number `i`, whose semidominator is `m` as far as is known. -/
structure Relaxed (f : Forest n) (t : Numbering n) (E P : Nat → Nat → Prop) (i m : Nat) : Prop where
  linked : f.Linked t E P (i + 1)
  fresh (j : Nat) : j < i → f.semiOf (t.nodeAt j) = j
  semi_eq : f.semiOf (t.nodeAt i) = m
  le : m ≤ i
  leads : m = i ∨ Leads E i m i

/-- What an edge from `v` says about the semidominator of `i`. -/
def Bounds (E P : Nat → Nat → Prop) (i m v : Nat) : Prop :=
  (v ≤ i → m ≤ v) ∧ ∀ u, ReflTransGen P u v → i < u → m ≤ semidominator E u

theorem Bounds.mono (h : Bounds E P i m v) (hle : k ≤ m) : Bounds E P i k v :=
  ⟨fun hvi => hle.trans (h.1 hvi), fun u hu hiu => hle.trans (h.2 u hu hiu)⟩

variable (D : DepthFirst t.nodes.size E P) (ht : t.Matched)

include D ht

omit ht in
/-- What the node found for an edge from `v` says: its semidominator leads to `i`, and nothing less
does so by the edge. -/
theorem Relaxed.bounds (hf : f.Relaxed t E P i m) (hv : E v i) (hroot : v < i + 1 → u = v)
    (hlinked : i + 1 ≤ v → ReflTransGen P u v ∧ i + 1 ≤ u ∧
      ∀ x, ReflTransGen P x v → i + 1 ≤ x → semidominator E u ≤ semidominator E x) :
    Bounds E P i (min (f.semiOf (t.nodeAt u)) m) v ∧
      (f.semiOf (t.nodeAt u) < m → Leads E i (f.semiOf (t.nodeAt u)) i) := by
  have hvsize := (D.edge_lt hv).1
  have hmle := hf.le
  rcases Nat.lt_or_ge v (i + 1) with hle | hgt
  · -- The source has no pointer, and no node above it has a number greater than `i`.
    rw [hroot hle]
    have habove : ∀ c x, ReflTransGen P x v → i < x → c ≤ semidominator E x := by
      intro c x hx hix
      have := D.above_le hx
      omega
    rcases Nat.lt_or_ge v i with hlt | hge
    · rw [hf.fresh v hlt]
      exact ⟨⟨fun _ => Nat.min_le_left .., habove _⟩, fun _ => .edge hv⟩
    · obtain rfl : v = i := by omega
      rw [hf.semi_eq, Nat.min_self]
      exact ⟨⟨fun _ => hmle, habove m⟩, fun hlt => absurd hlt (Nat.lt_irrefl m)⟩
  · obtain ⟨huv, hiu, hleast⟩ := hlinked hgt
    have hle := D.above_le huv
    have husize : u < t.nodes.size := by omega
    rw [hf.linked.semi_eq u hiu husize]
    refine ⟨⟨fun hvi => by omega, fun x hx hix => ?_⟩, fun _ => ?_⟩
    · exact (Nat.min_le_left ..).trans (hleast x hx hix)
    · -- From the semidominator to `u`, down the tree to `v`, and along the edge.
      have hup := (D.leads_semidominator (by omega) husize).mono hiu
      have hdown : Leads E i (semidominator E u) v :=
        D.leads_above (hup.mono (Nat.le_succ i)) (by omega) huv
      exact .step hdown (by omega) hv

theorem Relaxed.relax (hf : f.Relaxed t E P i m) (hi : i < t.nodes.size) (hv : E v i) :
    ∃ f' m', f.relax (t.nodeAt i) (t.nodeAt v) = some f' ∧ m' ≤ m ∧ f'.Relaxed t E P i m' ∧
      Bounds E P i m' v := by
  obtain ⟨g, u, heval, hg, hsemi, hroot, hlinked⟩ := hf.linked.eval D ht (D.edge_lt hv).1
  obtain ⟨hbounds, hleads⟩ := hf.bounds D hv hroot hlinked
  have hsame : ∀ x, g.semiOf x = f.semiOf x := fun x => by rw [semiOf, hsemi, semiOf]
  have hin := nodeAt_lt ht hi
  have hmle := hf.le
  rw [Forest.relax, heval, Option.bind_eq_bind, Option.bind_some]
  dsimp only
  rw [hsame, hsame, hf.semi_eq]
  by_cases hless : f.semiOf (t.nodeAt u) < m
  · rw [if_pos hless]
    rw [Nat.min_eq_left hless.le] at hbounds
    refine ⟨_, _, rfl, hless.le, ⟨?_, fun j hj => ?_, ?_, by omega, .inr (hleads hless)⟩, hbounds⟩
    · exact hg.setSemi ht (Nat.lt_succ_self i) hi _
    · have hne : t.nodeAt j ≠ t.nodeAt i := fun h => by
        have := (nodeAt_inj ht (by omega) hi).mp h
        omega
      rw [semiOf_set hin, if_neg hne, hsame]
      exact hf.fresh j hj
    · rw [semiOf_set hin, if_pos rfl]
  · rw [if_neg hless]
    rw [Nat.min_eq_right (by omega)] at hbounds
    exact ⟨g, m, rfl, Nat.le_refl m, ⟨hg, fun j hj => (hsame _).trans (hf.fresh j hj),
      (hsame _).trans hf.semi_eq, hf.le, hf.leads⟩, hbounds⟩

theorem Relaxed.foldlM (hf : f.Relaxed t E P i m) (hi : i < t.nodes.size) {sources : List Nat}
    (hsources : ∀ x ∈ sources, ∃ v, x = t.nodeAt v ∧ E v i) :
    ∃ f' m', sources.foldlM (Forest.relax (t.nodeAt i)) f = some f' ∧ m' ≤ m ∧
      f'.Relaxed t E P i m' ∧ ∀ v, E v i → t.nodeAt v ∈ sources → Bounds E P i m' v := by
  -- The bounds that earlier edges gave stay bounds, since `m` only becomes less.
  induction sources generalizing f m with
  | nil => exact ⟨f, m, rfl, Nat.le_refl m, hf, by simp⟩
  | cons x rest ih =>
      obtain ⟨⟨v, rfl, hv⟩, hrest⟩ := List.forall_mem_cons.mp hsources
      obtain ⟨f₁, m₁, heq₁, hle₁, hf₁, hbounds₁⟩ := hf.relax D ht hi hv
      obtain ⟨f₂, m₂, heq₂, hle₂, hf₂, hbounds₂⟩ := ih hf₁ hrest
      refine ⟨f₂, m₂, ?_, hle₂.trans hle₁, hf₂, fun u hu hmem => ?_⟩
      · rw [List.foldlM_cons, heq₁]
        exact heq₂
      rcases List.mem_cons.mp hmem with heq | hmem
      · rw [(nodeAt_inj ht (D.edge_lt hu).1 (D.edge_lt hv).1).mp heq]
        exact hbounds₁.mono hle₂
      · exact hbounds₂ u hu hmem

end Forest

/-- The predecessors of the nodes with numbers, as far as they have numbers, are those of `E`. -/
def Predecessors (t : Numbering n) (E : Nat → Nat → Prop) (preds : Edges) : Prop :=
  ∀ i x, i < t.nodes.size →
    (x ∈ preds.getD (t.nodeAt i) [] ∧ (t.number? x).isSome = true ↔ ∃ v, x = t.nodeAt v ∧ E v i)

namespace SemiPass

variable {s : SemiPass n} {preds : Edges}

/-- Between the semidominator of `j`, which is left out, and `j` no node has a lesser semidominator
than `u`. -/
structure Least (E P : Nat → Nat → Prop) (u j : Nat) : Prop where
  above : ReflTransGen P u j
  lt : semidominator E j < u
  least (x : Nat) : ReflTransGen P x j → semidominator E j < x →
    semidominator E u ≤ semidominator E x

/-- The semidominator of `j` stands for the immediate dominator, unless another node has the same
immediate dominator as `j`. -/
def Decided (t : Numbering n) (E P : Nat → Nat → Prop) (idom : Vector (Option Nat) n) (j : Nat) :
    Prop :=
  ∃ u, Least E P u j ∧ idom[t.nodeAt j]? = some (some (t.nodeAt
    (if semidominator E u < semidominator E j then u else semidominator E j)))

/-- A node waits for its semidominator as long as the branch to it has not been linked. -/
def Waits (t : Numbering n) (E P : Nat → Nat → Prop) (k b p v : Nat) : Prop :=
  ∃ j, v = t.nodeAt j ∧ k ≤ j ∧ j < t.nodes.size ∧ semidominator E j = p ∧
    ∀ c, P p c → ReflTransGen P c j → c < b

/-- The way down has come past number `k`, and no node waits at a branch from `b` on. -/
structure Passed (s : SemiPass n) (t : Numbering n) (E P : Nat → Nat → Prop) (k b : Nat) :
    Prop where
  linked : s.forest.Linked t E P k
  fresh (j : Nat) : j < k → j < t.nodes.size → s.forest.semiOf (t.nodeAt j) = j
  waiting (p : Nat) : p < t.nodes.size → ∀ v ∈ s.bucketOf (t.nodeAt p), Waits t E P k b p v
  decided (j : Nat) : k ≤ j → j < t.nodes.size →
    t.nodeAt j ∈ s.bucketOf (t.nodeAt (semidominator E j)) ∨ Decided t E P s.idom j

theorem bucketOf_set (hw : w < n) (waiting : List Nat) :
    bucketOf { s with bucket := s.bucket.setIfInBounds w waiting } v =
      if v = w then waiting else s.bucketOf v := by
  unfold bucketOf
  rw [Vector.getElem?_setIfInBounds]
  by_cases hv : v = w
  · simp [hv, hw]
  · simp [hv, Ne.symm hv]

theorem bucketOf_enqueue (hw : w < n) {f : Forest n} :
    bucketOf { s.enqueue w v with forest := f } u =
      if u = w then s.bucketOf w ++ [v] else s.bucketOf u :=
  bucketOf_set hw _

variable (D : DepthFirst t.nodes.size E P) (ht : t.Matched)

include D ht in
/-- The semidominator of the next node is found. -/
theorem Passed.findSemi (hs : s.Passed t E P (i + 1) (i + 1)) (hpos : 0 < i) (hi : i < t.nodes.size)
    (hpreds : Predecessors t E preds) :
    ∃ f, s.findSemi t preds (t.nodeAt i) = some { s with forest := f } ∧
      f.Relaxed t E P i (semidominator E i) := by
  have hstart : s.forest.Relaxed t E P i i :=
    ⟨hs.linked, fun j hj => hs.fresh j (by omega) (by omega), hs.fresh i (by omega) hi,
      Nat.le_refl i, .inl rfl⟩
  have hsources : ∀ x ∈ (preds.getD (t.nodeAt i) []).filter fun v => (t.number? v).isSome,
      ∃ v, x = t.nodeAt v ∧ E v i := by
    intro x hx
    exact (hpreds i x hi).mp (List.mem_filter.mp hx)
  obtain ⟨f, m, heq, -, hf, hbounds⟩ := hstart.foldlM D ht hi hsources
  have hall : ∀ v, E v i → Forest.Bounds E P i m v := fun v hv =>
    hbounds v hv (List.mem_filter.mpr ((hpreds i _ hi).mpr ⟨v, rfl, hv⟩))
  rw [← D.semidominator_eq hpos hi hf.leads hall]
  refine ⟨f, ?_, hf⟩
  rw [SemiPass.findSemi, heq]
  rfl

/-- The nodes in `waiting` have been decided about and the others left alone. -/
structure Settled (s s' : SemiPass n) (t : Numbering n) (E P : Nat → Nat → Prop) (i : Nat)
    (waiting : List Nat) : Prop where
  linked : s'.forest.Linked t E P i
  semi_eq : s'.forest.semi = s.forest.semi
  bucket_eq : s'.bucket = s.bucket
  decided (j : Nat) : j < t.nodes.size → t.nodeAt j ∈ waiting → Decided t E P s'.idom j
  idom_eq (v : Nat) : v ∉ waiting → s'.idom[v]? = s.idom[v]?

include D in
/-- The branch to `j` begins with the node that has just been linked, so all nodes that are linked
and above `j` lie between the semidominator of `j` and `j`. -/
theorem least_of_linked (hp : P p i) (hpos : 0 < j) (hij : i ≤ j) (hj : j < t.nodes.size)
    (hsemi : semidominator E j = p) (hbranch : ∀ c, P p c → ReflTransGen P c j → c < i + 1)
    (hl : ReflTransGen P k j) (hik : i ≤ k)
    (hleast : ∀ x, ReflTransGen P x j → i ≤ x → semidominator E k ≤ semidominator E x) :
    Least E P k j := by
  have hpi := D.parent_lt hp
  refine ⟨hl, by omega, fun x hx hpx => hleast x hx ?_⟩
  have hpj : ReflTransGen P p j := hsemi ▸ D.above_semidominator hpos hj
  rcases ReflTransGen.cases_head (D.above_of_le hpj hx (by omega)) with heq | ⟨c, hc, hcx⟩
  · omega
  · have hcj := hcx.trans hx
    have hci : ReflTransGen P c i := D.above_of_between hcj hj (Nat.lt_succ_iff.mp (hbranch c hc hcj)) hij
    -- If `c` were another node than `i`, it would have to be above the parent of `i`.
    by_contra hxi
    have hcle := D.above_le hcx
    have hup := D.above_le (D.above_parent hci (by omega) hp)
    have := D.parent_lt hc
    omega

include D ht in
theorem settled_settle (hs : s.forest.Linked t E P i) (hp : P p i) (hpos : 0 < i)
    (hij : i ≤ j) (hj : j < t.nodes.size) (hsemi : semidominator E j = p)
    (hbranch : ∀ c, P p c → ReflTransGen P c j → c < i + 1) :
    ∃ s', s.settle (t.nodeAt p) (t.nodeAt j) = some s' ∧ Settled s s' t E P i [t.nodeAt j] := by
  obtain ⟨g, l, heval, hg, hsame, -, hlinked⟩ := hs.eval D ht hj
  obtain ⟨hl, hil, hleast⟩ := hlinked hij
  have hlj := D.above_le hl
  rw [settle, heval]
  refine ⟨_, rfl, hg, hsame, rfl, fun j' hj' hmem => ?_, fun v hv => ?_⟩
  · obtain rfl := (nodeAt_inj ht hj' hj).mp (List.mem_singleton.mp hmem)
    refine ⟨l, least_of_linked D hp (by omega) hij hj hsemi hbranch hl hil hleast, ?_⟩
    rw [Vector.getElem?_setIfInBounds, if_pos rfl, if_pos (nodeAt_lt ht hj),
      hg.semi_eq l hil (by omega), hg.semi_eq j' hij hj, hsemi]
    split <;> rfl
  · rw [Vector.getElem?_setIfInBounds, if_neg fun h => hv (List.mem_singleton.mpr h.symm)]

theorem Settled.cons {s' s'' : SemiPass n} {waiting : List Nat} (h : Settled s s' t E P i [v])
    (h' : Settled s' s'' t E P i waiting) : Settled s s'' t E P i (v :: waiting) := by
  refine ⟨h'.linked, h'.semi_eq.trans h.semi_eq, h'.bucket_eq.trans h.bucket_eq,
    fun j hj hmem => ?_, fun u hu => ?_⟩
  · -- A node that waits twice is decided about twice.
    by_cases hrest : t.nodeAt j ∈ waiting
    · exact h'.decided j hj hrest
    · have hfirst : t.nodeAt j ∈ [v] := by simpa [hrest] using hmem
      obtain ⟨u, hu, hidom⟩ := h.decided j hj hfirst
      exact ⟨u, hu, (h'.idom_eq _ hrest).trans hidom⟩
  · rw [List.mem_cons, not_or] at hu
    exact (h'.idom_eq u hu.2).trans (h.idom_eq u (by simpa using hu.1))

include D ht in
theorem settled_foldlM (hs : s.forest.Linked t E P i) (hp : P p i) (hpos : 0 < i)
    {waiting : List Nat} (hwaiting : ∀ v ∈ waiting, Waits t E P i (i + 1) p v) :
    ∃ s', waiting.foldlM (settle (t.nodeAt p)) s = some s' ∧ Settled s s' t E P i waiting := by
  induction waiting generalizing s with
  | nil => exact ⟨s, rfl, hs, rfl, rfl, fun _ _ h => absurd h List.not_mem_nil, fun _ _ => rfl⟩
  | cons v rest ih =>
      obtain ⟨⟨j, rfl, hij, hj, hsemi, hbranch⟩, hrest⟩ := List.forall_mem_cons.mp hwaiting
      obtain ⟨s₁, heq₁, hfirst⟩ := settled_settle D ht hs hp hpos hij hj hsemi hbranch
      obtain ⟨s₂, heq₂, hset⟩ := ih hfirst.linked hrest
      refine ⟨s₂, ?_, hfirst.cons hset⟩
      rw [List.foldlM_cons, heq₁]
      exact heq₂

theorem parent?_nodeAt (hp : t.Parent p i) : t.parent? (t.nodeAt i) = some (t.nodeAt p) := by
  obtain ⟨u, v, hu, hv, hvu⟩ := hp
  rwa [← eq_nodeAt hu, ← eq_nodeAt hv]

/-- What the step for number `i` does when the semidominator is known. -/
theorem process_eq (hp : t.Parent p i) {f : Forest n}
    (hf : s.findSemi t preds (t.nodeAt i) = some { s with forest := f })
    (hsemi : f.semiOf (t.nodeAt i) = m) : s.process t preds i = release (t.nodeAt p)
      { s.enqueue (t.nodeAt m) (t.nodeAt i) with
        forest := f.link (t.nodeAt p) (t.nodeAt i) } := by
  rw [process, hf, parent?_nodeAt hp, ← hsemi]
  rfl

include D ht in
/-- The next node waits and is linked. -/
theorem Passed.enqueue (hs : s.Passed t E P (i + 1) (i + 1)) (hpos : 0 < i)
    (hi : i < t.nodes.size) (hp : P p i) {f : Forest n}
    (hf : f.Relaxed t E P i (semidominator E i)) :
    Passed { s.enqueue (t.nodeAt (semidominator E i)) (t.nodeAt i) with
      forest := f.link (t.nodeAt p) (t.nodeAt i) } t E P i (i + 1) := by
  have hd := D.semidominator_lt hpos hi
  have hdsize : semidominator E i < t.nodes.size := by omega
  have hdn := nodeAt_lt ht hdsize
  refine ⟨hf.linked.link D ht hi hp hf.semi_eq, fun j hj _ => hf.fresh j hj, fun q hq v hv => ?_,
    fun j hij hj => ?_⟩
  · have hold : v ∈ s.bucketOf (t.nodeAt q) → Waits t E P i (i + 1) q v := by
      intro hmem
      obtain ⟨j, hvj, hij, hj, hrest⟩ := hs.waiting q hq v hmem
      exact ⟨j, hvj, by omega, hj, hrest⟩
    rw [bucketOf_enqueue hdn] at hv
    split at hv
    · rename_i heq
      obtain rfl := (nodeAt_inj ht hq hdsize).mp heq
      rcases List.mem_append.mp hv with hmem | hmem
      · exact hold hmem
      · refine ⟨i, List.mem_singleton.mp hmem, Nat.le_refl i, hi, rfl, fun c _ hci => ?_⟩
        exact Nat.lt_succ_of_le (D.above_le hci)
    · exact hold hv
  · rw [bucketOf_enqueue hdn]
    by_cases hji : j = i
    · subst hji
      rw [if_pos rfl]
      exact .inl (List.mem_append_right _ (List.mem_singleton_self _))
    · rcases hs.decided j (by omega) hj with hmem | hdecided
      · left
        split
        · rename_i heq
          exact List.mem_append_left _ (heq ▸ hmem)
        · exact hmem
      · exact .inr hdecided

include D ht in
/-- No node is left that waits at the branch from `p` to the node that has just been linked. -/
theorem Passed.release (hs : s.Passed t E P i (i + 1)) (hpos : 0 < i) (hi : i < t.nodes.size)
    (hp : P p i) : ∃ s', s.release (t.nodeAt p) = some s' ∧ s'.Passed t E P i i := by
  have hpi := D.parent_lt hp
  have hpn := nodeAt_lt ht (i := p) (by omega)
  obtain ⟨s', heq, hset⟩ := settled_foldlM D ht
    (s := { s with bucket := s.bucket.setIfInBounds (t.nodeAt p) [] }) hs.linked hp hpos
    (hs.waiting p (by omega))
  have hbucket : ∀ v, s'.bucketOf v = if v = t.nodeAt p then [] else s.bucketOf v := by
    intro v
    rw [← bucketOf_set hpn, bucketOf, hset.bucket_eq, bucketOf]
  refine ⟨s', heq, hset.linked, fun j hj hjsize => ?_, fun q hq v hv => ?_, fun j hij hj => ?_⟩
  · rw [Forest.semiOf, hset.semi_eq]
    exact hs.fresh j hj hjsize
  · rw [hbucket] at hv
    split at hv
    · cases hv
    · rename_i hne
      obtain ⟨j, rfl, hij, hj, hsemi, hbranch⟩ := hs.waiting q hq v hv
      refine ⟨j, rfl, hij, hj, hsemi, fun c hc hcj => ?_⟩
      have hci := hbranch c hc hcj
      -- The branch at which this node waits leads down from another node than `p`.
      have hne' : c ≠ i := by
        rintro rfl
        exact hne (D.parent_unique hc hp ▸ rfl)
      omega
  · rw [hbucket]
    by_cases hmem : t.nodeAt j ∈ s.bucketOf (t.nodeAt p)
    · exact .inr (hset.decided j hj hmem)
    · rcases hs.decided j hij hj with hwaits | ⟨u, hu, hidom⟩
      · left
        have hne : t.nodeAt (semidominator E j) ≠ t.nodeAt p := fun heq => hmem (heq ▸ hwaits)
        rw [if_neg hne]
        exact hwaits
      · exact .inr ⟨u, hu, (hset.idom_eq _ hmem).trans hidom⟩

theorem Passed.process {s : SemiPass n} (hs : s.Passed t E t.Parent (i + 1) (i + 1))
    (D : DepthFirst t.nodes.size E t.Parent) (ht : t.Matched) (hpos : 0 < i)
    (hi : i < t.nodes.size) (hpreds : Predecessors t E preds) :
    ∃ s', s.process t preds i = some s' ∧ s'.Passed t E t.Parent i i := by
  obtain ⟨f, heq, hf⟩ := hs.findSemi D ht hpos hi hpreds
  obtain ⟨p, hp⟩ := D.exists_parent hpos hi
  rw [process_eq hp heq hf.semi_eq]
  exact (hs.enqueue D ht hpos hi hp hf).release D ht hpos hi hp

theorem Passed.down {s : SemiPass n} (hs : s.Passed t E t.Parent (i + 1) (i + 1))
    (D : DepthFirst t.nodes.size E t.Parent) (ht : t.Matched) (hi : i < t.nodes.size)
    (hpreds : Predecessors t E preds) :
    ∃ s', SemiPass.down t preds i s = some s' ∧ s'.Passed t E t.Parent 1 1 := by
  induction i generalizing s with
  | zero => exact ⟨s, rfl, hs⟩
  | succ i ih =>
      obtain ⟨s₁, heq, hs₁⟩ := hs.process D ht (Nat.succ_pos i) hi hpreds
      rw [SemiPass.down, heq]
      exact ih hs₁ (by omega)

theorem passed_start (ht : t.Matched) :
    (SemiPass.start t).Passed t E P t.nodes.size t.nodes.size := by
  have hancestor : ∀ v, (SemiPass.start t).forest.ancestor? v = none := by
    intro v
    simp only [start, Forest.ancestor?, Vector.getElem?_replicate]
    split <;> rfl
  have hlabel : ∀ v, (SemiPass.start t).forest.labelOf v = v := by
    intro v
    by_cases hv : v < n
    · simp [start, Forest.labelOf, hv]
    · simp [start, Forest.labelOf, Nat.not_lt.mp hv]
  have hbucket : ∀ v, (SemiPass.start t).bucketOf v = [] := by
    intro v
    simp only [start, bucketOf, Vector.getElem?_replicate]
    split <;> rfl
  refine ⟨⟨fun j hj hlt => by omega, fun j _ _ => ⟨hancestor _, hlabel _⟩,
    fun j hj hlt => by omega⟩, fun j _ hj => ?_, fun p _ v hv => ?_, fun j hj hlt => by omega⟩
  · have hnumber := number?_nodeAt ht hj
    rw [number?] at hnumber
    have hsome : t.number[t.nodeAt j]? = some (some j) := by
      cases hget : t.number[t.nodeAt j]? with
      | none => simp [hget] at hnumber
      | some a => simpa [hget] using hnumber
    simp [start, Forest.semiOf, hsome]
  · rw [hbucket] at hv
    cases hv

/-- At the end no node waits. -/
theorem Passed.decided_all (hs : s.Passed t E P 1 1) (D : DepthFirst t.nodes.size E P)
    (ht : t.Matched) (hpos : 0 < j) (hj : j < t.nodes.size) : Decided t E P s.idom j := by
  rcases hs.decided j hpos hj with hmem | hdecided
  · -- The branch from the semidominator to `j` would begin with a number less than one.
    have hlt := D.semidominator_lt hpos hj
    obtain ⟨j', heq, -, hj', -, hbranch⟩ := hs.waiting _ (by omega) _ hmem
    obtain rfl := (nodeAt_inj ht hj hj').mp heq
    rcases ReflTransGen.cases_head (D.above_semidominator hpos hj) with heq | ⟨c, hc, hcj⟩
    · omega
    · have := hbranch c hc hcj
      have := D.parent_lt hc
      omega
  · exact hdecided

end SemiPass

end BinTrace
