import BinTrace.Flow.Loops
import BinTrace.Proofs.Flow.Reach

/-!
The edges that a depth-first walk finds to lead back. The walk meets every edge out of a block that
can be reached once, and the blocks on its path are a way from the entry to the block whose edges it
looks at. So it finds each edge to a block that dominates the source, since that is on the path.
-/

namespace BinTrace.FlowGraph

variable {edges : Edges} {entry h k s t v w : Nat} {seen : Marks edges.size} {path rest : WalkPath}
  {left : List Nat}

/-- A depth-first walk on its way: its path is a way from the entry through marked blocks, and all
edges from marked blocks that are not left on the path lead to marked blocks. -/
structure Walks (edges : Edges) (entry : Nat) (seen : Marks edges.size) (path : WalkPath) :
    Prop where
  chain : (path.map Prod.fst).IsChain fun v u => HasEdge edges u v
  start : ∀ v, (path.map Prod.fst).getLast? = some v → v = entry
  distinct : (path.map Prod.fst).Nodup
  marked : ∀ step ∈ path, seen.contains step.1 = true
  sublist : ∀ step ∈ path, step.2.Sublist (edges.getD step.1 [])
  entry_marked : seen.contains entry = true
  closed : ∀ v, seen.contains v = true → ∀ w, HasEdge edges v w →
    seen.contains w = true ∨ ∃ left, (v, left) ∈ path ∧ w ∈ left

/-- The walk has yet to meet the edge: it is left on the path, or its source is still to be found. -/
def Due (edges : Edges) (entry : Nat) (seen : Marks edges.size) (path : WalkPath) (t h : Nat) :
    Prop :=
  (∃ left, (t, left) ∈ path ∧ h ∈ left) ∨
    (seen.contains t = false ∧ Reaches (HasEdge edges) entry t ∧ HasEdge edges t h)

namespace Walks

theorem isPath (hw : Walks edges entry seen ((v, left) :: rest)) :
    IsPath (HasEdge edges) entry v (((v, left) :: rest).map Prod.fst).reverse := by
  refine ⟨?_, by simp, ?_⟩
  · rw [List.head?_reverse]
    cases hlast : (((v, left) :: rest).map Prod.fst).getLast? with
    | none => simp at hlast
    | some u => rw [hw.start u hlast]
  · exact List.isChain_reverse.mpr hw.chain

theorem reaches (hw : Walks edges entry seen ((v, left) :: rest)) :
    Reaches (HasEdge edges) entry v := ⟨_, hw.isPath⟩

/-- What dominates the deepest block is on the path. -/
theorem mem_of_dominates (hw : Walks edges entry seen ((v, left) :: rest))
    (hdom : Dominates (HasEdge edges) entry h v) : h ∈ ((v, left) :: rest).map Prod.fst :=
  List.mem_reverse.mp (hdom _ hw.isPath)

theorem contains_of_mem (hw : Walks edges entry seen path) (hv : v ∈ path.map Prod.fst) :
    seen.contains v = true := by
  obtain ⟨step, hstep, rfl⟩ := List.mem_map.mp hv
  exact hw.marked step hstep

theorem hasEdge_of_cons (hw : Walks edges entry seen ((v, s :: left) :: rest)) :
    HasEdge edges v s := (hw.sublist _ List.mem_cons_self).subset List.mem_cons_self

theorem pop (hw : Walks edges entry seen ((v, []) :: rest)) : Walks edges entry seen rest where
  chain := hw.chain.tail
  start u hu := by
    cases rest with
    | nil => cases hu
    | cons step rest => exact hw.start u (by simpa [List.getLast?_cons_cons] using hu)
  distinct := hw.distinct.of_cons
  marked step hstep := hw.marked step (List.mem_cons_of_mem _ hstep)
  sublist step hstep := hw.sublist step (List.mem_cons_of_mem _ hstep)
  entry_marked := hw.entry_marked
  closed u hu x hx := by
    refine (hw.closed u hu x hx).imp_right fun ⟨left, hleft, hmem⟩ => ?_
    rcases List.mem_cons.mp hleft with heq | hleft
    · cases heq
      cases hmem
    · exact ⟨left, hleft, hmem⟩

theorem push (hw : Walks edges entry seen ((v, s :: left) :: rest)) (hs : s < edges.size)
    (hnew : seen.contains s = false) :
    Walks edges entry (seen.insert s) ((s, edges.getD s []) :: (v, left) :: rest) where
  chain := List.isChain_cons_cons.mpr ⟨hw.hasEdge_of_cons, hw.chain⟩
  start u hu := hw.start u (by simpa [List.getLast?_cons_cons] using hu)
  distinct := by
    refine List.nodup_cons.mpr ⟨fun hmem => ?_, hw.distinct⟩
    rw [hw.contains_of_mem hmem] at hnew
    cases hnew
  marked := by
    refine List.forall_mem_cons.mpr ⟨(Marks.contains_insert hs).mpr (.inl rfl), ?_⟩
    intro step hstep
    have hmem : step.1 ∈ ((v, left) :: rest).map Prod.fst := List.mem_map_of_mem hstep
    exact (Marks.contains_insert hs).mpr (.inr (hw.contains_of_mem hmem))
  sublist := by
    refine List.forall_mem_cons.mpr ⟨List.Sublist.refl _, List.forall_mem_cons.mpr ⟨?_, ?_⟩⟩
    · exact (List.sublist_cons_self s left).trans (hw.sublist _ List.mem_cons_self)
    · exact fun step hstep => hw.sublist step (List.mem_cons_of_mem _ hstep)
  entry_marked := (Marks.contains_insert hs).mpr (.inr hw.entry_marked)
  closed u hu x hx := by
    simp only [Marks.contains_insert hs] at hu ⊢
    rcases hu with rfl | hu
    · exact .inr ⟨_, List.mem_cons_self, hx⟩
    · rcases hw.closed u hu x hx with hmarked | ⟨l, hl, hmem⟩
      · exact .inl (.inr hmarked)
      · rcases List.mem_cons.mp hl with heq | hl
        · cases heq
          rcases List.mem_cons.mp hmem with rfl | hmem
          · exact .inl (.inl rfl)
          · exact .inr ⟨left, by simp, hmem⟩
        · exact .inr ⟨l, by simp [hl], hmem⟩

theorem pass (hw : Walks edges entry seen ((v, s :: left) :: rest))
    (hs : seen.contains s = true) : Walks edges entry seen ((v, left) :: rest) where
  chain := hw.chain
  start := hw.start
  distinct := hw.distinct
  marked := List.forall_mem_cons.mpr (List.forall_mem_cons.mp hw.marked)
  sublist := by
    obtain ⟨hv, hrest⟩ := List.forall_mem_cons.mp hw.sublist
    exact List.forall_mem_cons.mpr ⟨(List.sublist_cons_self s left).trans hv, hrest⟩
  entry_marked := hw.entry_marked
  closed u hu x hx := by
    rcases hw.closed u hu x hx with hmarked | ⟨l, hl, hmem⟩
    · exact .inl hmarked
    · rcases List.mem_cons.mp hl with heq | hl
      · cases heq
        rcases List.mem_cons.mp hmem with rfl | hmem
        · exact .inl hs
        · exact .inr ⟨left, List.mem_cons_self, hmem⟩
      · exact .inr ⟨l, List.mem_cons_of_mem _ hl, hmem⟩

end Walks

theorem not_due_nil (hw : Walks edges entry seen []) : ¬ Due edges entry seen [] t h := by
  rintro (⟨left, hleft, -⟩ | ⟨hnew, ht, -⟩)
  · cases hleft
  · -- Nothing is left, so that the marked blocks are closed.
    have hmarked : seen.contains t = true := by
      refine ht.mem_of_closed (P := fun v => seen.contains v = true) hw.entry_marked
        fun v w hv hedge => (hw.closed v hv w hedge).resolve_right ?_
      rintro ⟨left, hleft, -⟩
      cases hleft
    rw [hmarked] at hnew
    cases hnew

theorem due_pop : Due edges entry seen ((v, []) :: rest) t h ↔ Due edges entry seen rest t h := by
  simp only [Due, List.mem_cons, Prod.mk.injEq]
  refine or_congr_left ⟨?_, fun ⟨l, hl, hmem⟩ => ⟨l, .inr hl, hmem⟩⟩
  rintro ⟨l, ⟨-, rfl⟩ | hl, hmem⟩
  · cases hmem
  · exact ⟨l, hl, hmem⟩

theorem due_cons : Due edges entry seen ((v, s :: left) :: rest) t h ↔
    (t, h) = (v, s) ∨ Due edges entry seen ((v, left) :: rest) t h := by
  simp only [Due, List.mem_cons, Prod.mk.injEq, ← or_assoc]
  refine or_congr_left ⟨?_, ?_⟩
  · rintro ⟨l, ⟨rfl, rfl⟩ | hl, hmem⟩
    · rcases List.mem_cons.mp hmem with rfl | hmem
      · exact .inl ⟨rfl, rfl⟩
      · exact .inr ⟨left, .inl ⟨rfl, rfl⟩, hmem⟩
    · exact .inr ⟨l, .inr hl, hmem⟩
  · rintro (⟨rfl, rfl⟩ | ⟨l, ⟨rfl, rfl⟩ | hl, hmem⟩)
    · exact ⟨_, .inl ⟨rfl, rfl⟩, List.mem_cons_self⟩
    · exact ⟨_, .inl ⟨rfl, rfl⟩, List.mem_cons_of_mem _ hmem⟩
    · exact ⟨l, .inr hl, hmem⟩

/-- To find a block makes no edge due, and none of its edges is met by that. -/
theorem due_push (hs : s < edges.size) (hnew : seen.contains s = false)
    (hreach : Reaches (HasEdge edges) entry s) :
    Due edges entry (seen.insert s) ((s, edges.getD s []) :: path) t h ↔
      Due edges entry seen path t h := by
  have hnot : (seen.insert s).contains t = false ↔ t ≠ s ∧ seen.contains t = false := by
    rw [← Bool.not_eq_true, Marks.contains_insert hs, not_or, Bool.not_eq_true]
  simp only [Due, List.mem_cons, Prod.mk.injEq, hnot]
  constructor
  · rintro (⟨l, ⟨rfl, rfl⟩ | hl, hmem⟩ | ⟨⟨-, ht⟩, hedge⟩)
    · exact .inr ⟨hnew, hreach, hmem⟩
    · exact .inl ⟨l, hl, hmem⟩
    · exact .inr ⟨ht, hedge⟩
  · rintro (⟨l, hl, hmem⟩ | ⟨ht, hreach, hedge⟩)
    · exact .inl ⟨l, .inr hl, hmem⟩
    · by_cases hts : t = s
      · exact .inl ⟨_, .inl ⟨hts, rfl⟩, hts ▸ hedge⟩
      · exact .inr ⟨⟨hts, ht⟩, hreach, hedge⟩

theorem onPath_iff : (decide (s = v) || rest.any fun step => decide (step.1 = s)) = true ↔
    s ∈ ((v, left) :: rest).map Prod.fst := by
  simp only [Bool.or_eq_true, decide_eq_true_eq, List.any_eq_true, List.map_cons, List.mem_cons,
    List.mem_map]

theorem contains_of_not_new (hedges : ∀ v w, HasEdge edges v w → w < edges.size)
    (hw : Walks edges entry seen ((v, s :: left) :: rest))
    (hold : ¬(s < edges.size ∧ seen.contains s = false)) : seen.contains s = true := by
  by_contra hnew
  exact hold ⟨hedges v s hw.hasEdge_of_cons, by simpa using hnew⟩

/-- Every edge that the walk finds to lead back was due. -/
theorem due_of_mem_backEdges (hedges : ∀ v w, HasEdge edges v w → w < edges.size)
    (hw : Walks edges entry seen path) :
    ∀ t h, (t, h) ∈ backEdges edges seen path → Due edges entry seen path t h := by
  fun_induction backEdges edges seen path with
  | case1 seen => simp
  | case2 seen v rest ih => exact fun t h hmem => due_pop.mpr (ih hw.pop t h hmem)
  | case3 seen v s left rest hs ih =>
      intro t h hmem
      have hreach := hw.reaches.step hw.hasEdge_of_cons
      exact due_cons.mpr (.inr ((due_push hs.1 hs.2 hreach).mp (ih (hw.push hs.1 hs.2) t h hmem)))
  | case4 seen v s left rest hold others hback ih =>
      intro t h hmem
      rcases List.mem_cons.mp hmem with heq | hmem
      · exact due_cons.mpr (.inl heq)
      · exact due_cons.mpr (.inr (ih (hw.pass (contains_of_not_new hedges hw hold)) t h hmem))
  | case5 seen v s left rest hold others hback ih =>
      exact fun t h hmem =>
        due_cons.mpr (.inr (ih (hw.pass (contains_of_not_new hedges hw hold)) t h hmem))

/-- Every edge that is due and leads to a dominator of its source is found to lead back. -/
theorem mem_backEdges_of_due (hedges : ∀ v w, HasEdge edges v w → w < edges.size)
    (hw : Walks edges entry seen path) (hdom : Dominates (HasEdge edges) entry h t)
    (hdue : Due edges entry seen path t h) : (t, h) ∈ backEdges edges seen path := by
  fun_induction backEdges edges seen path with
  | case1 seen => exact absurd hdue (not_due_nil hw)
  | case2 seen v rest ih => exact ih hw.pop (due_pop.mp hdue)
  | case3 seen v s left rest hs ih =>
      rcases due_cons.mp hdue with heq | hdue
      · -- A dominator of the deepest block is on the path, and so it is marked.
        cases heq
        have hmarked := hw.contains_of_mem (hw.mem_of_dominates hdom)
        rw [hs.2] at hmarked
        cases hmarked
      · have hreach := hw.reaches.step hw.hasEdge_of_cons
        exact ih (hw.push hs.1 hs.2) ((due_push hs.1 hs.2 hreach).mpr hdue)
  | case4 seen v s left rest hold others hback ih =>
      rcases due_cons.mp hdue with heq | hdue
      · rw [heq]
        exact List.mem_cons_self
      · exact List.mem_cons_of_mem _ (ih (hw.pass (contains_of_not_new hedges hw hold)) hdue)
  | case5 seen v s left rest hold others hback ih =>
      rcases due_cons.mp hdue with heq | hdue
      · cases heq
        exact absurd (onPath_iff.mpr (hw.mem_of_dominates hdom)) hback
      · exact ih (hw.pass (contains_of_not_new hedges hw hold)) hdue

theorem nodup_backEdges (hedges : ∀ v w, HasEdge edges v w → w < edges.size)
    (hnodup : ∀ v, (edges.getD v []).Nodup) (hw : Walks edges entry seen path) :
    (backEdges edges seen path).Nodup := by
  fun_induction backEdges edges seen path with
  | case1 seen => exact List.nodup_nil
  | case2 seen v rest ih => exact ih hw.pop
  | case3 seen v s left rest hs ih => exact ih (hw.push hs.1 hs.2)
  | case4 seen v s left rest hold others hback ih =>
      have hpass := hw.pass (contains_of_not_new hedges hw hold)
      refine List.nodup_cons.mpr ⟨fun hmem => ?_, ih hpass⟩
      -- The edge would be left once more, or its source would not be marked.
      rcases due_of_mem_backEdges hedges hpass v s hmem with ⟨l, hl, hmem⟩ | ⟨hnew, -⟩
      · rcases List.mem_cons.mp hl with heq | hl
        · cases heq
          have hleft := (hnodup v).sublist (hw.sublist _ List.mem_cons_self)
          exact (List.nodup_cons.mp hleft).1 hmem
        · have hmem : v ∈ rest.map Prod.fst := List.mem_map_of_mem (f := Prod.fst) hl
          exact (List.nodup_cons.mp hw.distinct).1 hmem
      · rw [hw.marked _ List.mem_cons_self] at hnew
        cases hnew
  | case5 seen v s left rest hold others hback ih =>
      exact ih (hw.pass (contains_of_not_new hedges hw hold))

/-! The walk begins with the entry on its path. -/

theorem walks_start (hentry : entry < edges.size) :
    Walks edges entry ((Marks.none edges.size).insert entry) [(entry, edges.getD entry [])] where
  chain := .singleton _
  start v hv := by simpa [eq_comm] using hv
  distinct := List.nodup_singleton _
  marked := by simp [Marks.contains_insert hentry]
  sublist := by simp
  entry_marked := by simp [Marks.contains_insert hentry]
  closed v hv w hedge := by
    obtain rfl : v = entry := by simpa [Marks.contains_insert hentry] using hv
    exact .inr ⟨_, List.mem_singleton_self _, hedge⟩

theorem due_start (hentry : entry < edges.size) :
    Due edges entry ((Marks.none edges.size).insert entry) [(entry, edges.getD entry [])] t h ↔
      Reaches (HasEdge edges) entry t ∧ HasEdge edges t h := by
  rw [due_push hentry (Marks.contains_none _ _) (.refl entry)]
  simp [Due]

end BinTrace.FlowGraph
