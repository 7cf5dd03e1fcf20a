import BinTrace.Proofs.Dominators.Tree

/-!
What the walk over a graph marks. A node is marked exactly if a path leads to it from the start:
marks stay inside of every closed set, and at the end of the walk they are closed themselves. The
walk does not go on from nodes that were marked before it began.
-/

namespace BinTrace

section Paths

variable {E : Nat → Nat → Prop} {a b c : Nat}

theorem Reaches.refl (a : Nat) : Reaches E a a := ⟨[a], rfl, rfl, .singleton _⟩

theorem Reaches.step (h : Reaches E a b) (hedge : E b c) : Reaches E a c := by
  obtain ⟨path, hpath⟩ := h
  exact ⟨path ++ [c], hpath.concat hedge⟩

/-- A path does not leave a closed set. -/
theorem Reaches.mem_of_closed {P : Nat → Prop} (h : Reaches E a b) (ha : P a)
    (hclosed : ∀ v w, P v → E v w → P w) : P b := by
  obtain ⟨path, hhead, hlast, hchain⟩ := h
  induction path generalizing a with
  | nil => cases hhead
  | cons v rest ih =>
      cases hhead
      cases rest with
      | nil =>
          cases hlast
          exact ha
      | cons w rest =>
          obtain ⟨hedge, hrest⟩ := List.isChain_cons_cons.mp hchain
          exact ih (hclosed v w ha hedge) rfl (by rwa [List.getLast?_cons_cons] at hlast) hrest

end Paths

namespace Marks

variable {bound v w : Nat} {seen : Marks bound}

@[simp] theorem contains_none (bound v : Nat) : (none bound).contains v = false := by
  rw [contains, none, Vector.getElem?_replicate]
  split <;> rfl

theorem contains_insert (hv : v < bound) :
    (seen.insert v).contains w = true ↔ w = v ∨ seen.contains w = true := by
  rw [contains, insert, Vector.getElem?_setIfInBounds, if_pos hv, contains]
  split
  · rename_i h
    simp [h]
  · rename_i h
    simp [Ne.symm h]

@[simp] theorem mem_toList : v ∈ seen.toList ↔ seen.contains v = true := by
  rw [toList, List.mem_filter, List.mem_range, and_iff_right_iff_imp]
  intro hv
  by_contra hlt
  simp [contains, hlt] at hv

end Marks

namespace Reach

variable {edges : Edges} {seen : Marks edges.size} {work : List Nat} {start v w : Nat}
  {P : Nat → Prop}

/-- Marks stay inside of a set that is closed, but for nodes at which the walk stops. -/
theorem collect_subset (stop : Nat → Prop) (hstop : ∀ v, stop v → seen.contains v = true)
    (hclosed : ∀ v w, P v → ¬ stop v → HasEdge edges v w → P w)
    (hseen : ∀ v, seen.contains v = true → P v) (hwork : ∀ v ∈ work, P v) :
    ∀ v, (collect edges seen work).contains v = true → P v := by
  fun_induction collect edges seen work with
  | case1 seen => exact hseen
  | case2 seen v rest h ih =>
      obtain ⟨hv, hrest⟩ := List.forall_mem_cons.mp hwork
      have hgo : ¬ stop v := fun hs => by
        rw [hstop v hs] at h
        cases h.2
      refine ih (fun w hw => (Marks.contains_insert h.1).mpr (.inr (hstop w hw))) (fun w hw => ?_)
        (List.forall_mem_append.mpr ⟨fun w hw => hclosed v w hv hgo hw, hrest⟩)
      rcases (Marks.contains_insert h.1).mp hw with rfl | hw
      · exact hv
      · exact hseen w hw
  | case3 seen v rest h ih => exact ih hstop hseen (List.forall_mem_cons.mp hwork).2

/-- The node is marked or waits, unless there is no such node. -/
def Known (edges : Edges) (seen : Marks edges.size) (work : List Nat) (v : Nat) : Prop :=
  v < edges.size → seen.contains v = true ∨ v ∈ work

/-- What is known is marked in the end, and then edges lead from marked nodes to marked nodes, but for
nodes at which the walk stops. -/
theorem collect_closed (edges : Edges) (stop : Nat → Prop) (seen : Marks edges.size)
    (work : List Nat) (h : ∀ v, seen.contains v = true → ¬ stop v → ∀ w, HasEdge edges v w →
      Known edges seen work w) :
    (∀ v < edges.size, Known edges seen work v → (collect edges seen work).contains v = true) ∧
      ∀ v, (collect edges seen work).contains v = true → ¬ stop v → ∀ w < edges.size,
        HasEdge edges v w → (collect edges seen work).contains w = true := by
  fun_induction collect edges seen work with
  | case1 seen =>
      have hmarked {v : Nat} (hv : v < edges.size) (hknown : Known edges seen [] v) :
          seen.contains v = true := (hknown hv).resolve_right List.not_mem_nil
      exact ⟨fun v hv hknown => hmarked hv hknown,
        fun v hv hgo w hw hedge => hmarked hw (h v hv hgo w hedge)⟩
  | case2 seen v rest hnew ih =>
      -- The node in front is marked, and the ends of its edges wait in its place.
      have hkeeps {w : Nat} (hw : Known edges seen (v :: rest) w) :
          Known edges (seen.insert v) (edges.getD v [] ++ rest) w := by
        intro hlt
        rw [Marks.contains_insert hnew.1, List.mem_append]
        rcases hw hlt with hseen | hwaits
        · exact .inl (.inr hseen)
        · rcases List.mem_cons.mp hwaits with rfl | hrest
          · exact .inl (.inl rfl)
          · exact .inr (.inr hrest)
      have hnext : ∀ u, (seen.insert v).contains u = true → ¬ stop u → ∀ w, HasEdge edges u w →
          Known edges (seen.insert v) (edges.getD v [] ++ rest) w := by
        intro u hu hgo w hedge
        rcases (Marks.contains_insert hnew.1).mp hu with rfl | hu
        · exact fun _ => .inr (List.mem_append_left _ hedge)
        · exact hkeeps (h u hu hgo w hedge)
      obtain ⟨hknown, hclosed⟩ := ih hnext
      exact ⟨fun w hlt hw => hknown w hlt (hkeeps hw), hclosed⟩
  | case3 seen v rest hold ih =>
      have hkeeps {w : Nat} (hw : Known edges seen (v :: rest) w) : Known edges seen rest w := by
        intro hlt
        rcases hw hlt with hseen | hwaits
        · exact .inl hseen
        · rcases List.mem_cons.mp hwaits with rfl | hrest
          · exact .inl (by simpa [hlt] using hold)
          · exact .inr hrest
      obtain ⟨hknown, hclosed⟩ := ih fun u hu hgo w hedge => hkeeps (h u hu hgo w hedge)
      exact ⟨fun w hlt hw => hknown w hlt (hkeeps hw), hclosed⟩

/-- The walk marks what paths from the start lead to. -/
theorem contains_reachable (hstart : start < edges.size)
    (hedges : ∀ v w, HasEdge edges v w → w < edges.size) :
    (reachable edges start).contains v = true ↔ Reaches (HasEdge edges) start v := by
  -- Nothing is marked before the walk, and so it stops nowhere.
  obtain ⟨hknown, hclosed⟩ :=
    collect_closed edges (fun _ => False) (Marks.none edges.size) [start] (by simp)
  constructor
  · refine collect_subset (P := Reaches (HasEdge edges) start) (fun _ => False)
      (fun _ => False.elim) (fun v w hv _ hedge => hv.step hedge) (by simp) (fun w hw => ?_) v
    rw [List.mem_singleton.mp hw]
    exact .refl start
  · intro h
    exact h.mem_of_closed (P := fun v => (reachable edges start).contains v = true)
      (hknown start hstart fun _ => .inr List.mem_cons_self)
      fun v w hv hedge => hclosed v hv id w (hedges v w hedge) hedge

end Reach

end BinTrace
