import BinTrace.Proofs.Splay.Storage

/-!
Every way through the nodes of a stored tree is a way through the tree, and ends.
-/

namespace BinTrace

variable {α : Type}

open WeightTree

namespace SplayNodes

variable {ns : SplayNodes α} {place : Nat → Nat} {parent : Option Nat}
  {t left right : WeightTree α} {e : WeightEntry α} {way : List (Step α)} {k : Nat}

/-! ### The way down to a key -/

/-- The node at which the way to a key ends, and the last node of the way. -/
theorem Holds.descend (h : ns.Holds place parent t) (k : Nat) (way : List (Step α)) :
    ns.descend k (link place t) (linkUp place way) =
      some (link place (WeightTree.descend k t way).1,
        (link place (WeightTree.descend k t way).1).or
          (linkUp place (WeightTree.descend k t way).2)) := by
  fun_induction WeightTree.descend k t way generalizing parent with
  | case1 way => exact loop_of_inr rfl
  | case2 left e right total way hk =>
    obtain ⟨hnode, -⟩ := h
    exact loop_of_inr (by simp [hnode, hk])
  | case3 left e right total way hk hlt ih =>
    obtain ⟨hnode, hleft, -⟩ := h
    rw [← ih hleft]
    exact loop_of_inl (by simp [hnode, hk, hlt, Step.entry])
  | case4 left e right total way hk hlt ih =>
    obtain ⟨hnode, -, hright⟩ := h
    rw [← ih hright]
    exact loop_of_inl (by simp [hnode, hk, hlt, Step.entry])

/-! ### The first and the last node -/

theorem Holds.outermost_left {total : Nat}
    (h : ns.Holds place parent (.node left e right total)) :
    ∃ n first, ns.outermost .left (place e.key) = some n ∧ ns[n]? = some first ∧
      (WeightTree.node left e right total).entries.head?.map WeightEntry.key =
        some first.key := by
  induction left generalizing parent e right total with
  | leaf =>
    obtain ⟨hnode, -⟩ := h
    exact ⟨place e.key, _, loop_of_inr (by simp [hnode]), hnode, by simp [entries]⟩
  | node left f rest sum ih =>
    obtain ⟨hnode, hleft, -⟩ := h
    obtain ⟨n, first, hout, hfirst, hhead⟩ := ih hleft
    refine ⟨n, first, ?_, hfirst, ?_⟩
    · rw [← hout]
      exact loop_of_inl (by simp [hnode])
    · rw [entries, List.head?_append, Option.map_or, hhead, Option.some_or]

theorem Holds.outermost_right {l : WeightTree α} {f : WeightEntry α} {way' : List (Step α)}
    (h : ns.Holds place parent t) (hlast : descendLast t way = some (l, f, way')) :
    ∃ n ∈ link place t, ns.outermost .right n = some (place f.key) := by
  fun_induction descendLast t way generalizing parent with
  | case1 way => cases hlast
  | case2 way left e total =>
    cases hlast
    obtain ⟨hnode, -⟩ := h
    exact ⟨_, rfl, loop_of_inr (by simp [hnode])⟩
  | case3 way left e right total hne ih =>
    obtain ⟨hnode, -, hright⟩ := h
    obtain ⟨n, hn, hout⟩ := ih hright hlast
    refine ⟨_, rfl, ?_⟩
    rw [← hout]
    exact loop_of_inl (by simp [hnode, Option.mem_def.mp hn])

/-! ### Sums -/

/-- The weight of the keys above one, added up on the way to it. -/
theorem Holds.sumAbove (h : ns.Holds place parent t) (ht : t.Valid) (sum : Nat)
    (hmax : sum + t.totalWeight ≤ maxWeight) :
    ns.sumAbove k (link place t) sum = some (sum + weightOf (upper k t.entries)) := by
  induction t generalizing parent sum with
  | leaf => exact loop_of_inr rfl
  | node left e right total ihl ihr =>
    obtain ⟨hnode, hleft, hright⟩ := h
    obtain ⟨-, -, hlt, hgt⟩ := increasing_append_cons.mp ht.increasing
    have htotal : total = e.weight + left.totalWeight + right.totalWeight := ht.weighed.2.2
    rw [WeightTree.totalWeight] at hmax
    rw [link, entries, upper_append]
    by_cases hk : k < e.key
    · have hupper : upper k right.entries = right.entries :=
        upper_eq_self fun f hf => Nat.lt_trans hk (hgt f hf)
      have hadd : addWeights e.weight right.totalWeight = some (e.weight + right.totalWeight) :=
        if_pos (by omega)
      have hsum : addWeights sum (e.weight + right.totalWeight) =
          some (sum + (e.weight + right.totalWeight)) := if_pos (by omega)
      have hstep : ns.sumAbove k (some (place e.key)) sum =
          ns.sumAbove k (link place left) (sum + (e.weight + right.totalWeight)) :=
        loop_of_inl (by simp [hnode, hk, hright.total_link, hadd, hsum])
      rw [hstep, ihl hleft ht.left _ (by omega), upper_cons_of_lt hk, hupper, weightOf_append,
        weightOf_cons, ht.right.weighed.totalWeight_eq]
      congr 1
      omega
    · have hlower : upper k left.entries = [] := upper_eq_nil fun f hf => by
        have hf := hlt f hf
        omega
      have hstep : ns.sumAbove k (some (place e.key)) sum = ns.sumAbove k (link place right) sum :=
        loop_of_inl (by simp [hnode, hk])
      rw [hstep, ihr hright ht.right _ (by omega), hlower, upper_cons_of_le (Nat.le_of_not_lt hk),
        List.nil_append]

/-! ### Searches among the keys -/

theorem seek_none (turn : Nat → Turn) (best : Option Nat) : ns.seek turn none best = some best :=
  loop_of_inr rfl

/-- One node of a search. -/
theorem Holds.seek_node {total : Nat} (h : ns.Holds place parent (.node left e right total))
    (turn : Nat → Turn) (best : Option Nat) :
    ns.seek turn (some (place e.key)) best =
      let best := if (turn e.key).isBetter then some e.key else best
      match (turn e.key).next with
      | none => some best
      | some .left => ns.seek turn (link place left) best
      | some .right => ns.seek turn (link place right) best := by
  obtain ⟨hnode, -⟩ := h
  cases hnext : (turn e.key).next with
  | none => exact loop_of_inr (by simp [hnode, hnext])
  | some side =>
    cases side with
    | left => exact loop_of_inl (by simp [hnode, hnext])
    | right => exact loop_of_inl (by simp [hnode, hnext])

theorem Holds.ceiling (h : ns.Holds place parent t) (best : Option Nat) :
    ns.seek (fun j => if j = k then ⟨true, none⟩
      else if k < j then ⟨true, some .left⟩ else ⟨false, some .right⟩) (link place t) best =
      some ((t.ceiling? k).or best) := by
  induction t generalizing parent best with
  | leaf => exact seek_none _ best
  | node left e right total ihl ihr =>
    rw [link, h.seek_node, ceiling?]
    obtain ⟨-, hleft, hright⟩ := h
    by_cases hk : e.key = k
    · simp [hk]
    · by_cases hlt : k < e.key
      · simp [hk, Ne.symm hk, hlt, ihl hleft]
      · simp [hk, Ne.symm hk, hlt, ihr hright]

theorem Holds.predecessor (h : ns.Holds place parent t) (best : Option Nat) :
    ns.seek (fun j => if j < k then ⟨true, some .right⟩ else ⟨false, some .left⟩) (link place t)
      best = some ((t.predecessor? k).or best) := by
  induction t generalizing parent best with
  | leaf => exact seek_none _ best
  | node left e right total ihl ihr =>
    rw [link, h.seek_node, predecessor?]
    obtain ⟨-, hleft, hright⟩ := h
    by_cases hk : e.key < k
    · simp [hk, ihr hright]
    · simp [hk, ihl hleft]

theorem Holds.successor (h : ns.Holds place parent t) (best : Option Nat) :
    ns.seek (fun j => if k < j then ⟨true, some .left⟩ else ⟨false, some .right⟩) (link place t)
      best = some ((t.successor? k).or best) := by
  induction t generalizing parent best with
  | leaf => exact seek_none _ best
  | node left e right total ihl ihr =>
    rw [link, h.seek_node, successor?]
    obtain ⟨-, hleft, hright⟩ := h
    by_cases hk : k < e.key
    · simp [hk, ihl hleft]
    · simp [hk, ihr hright]

/-! ### Entries -/

theorem stackLeft_none (stack : List Nat) : ns.stackLeft none stack = some stack :=
  loop_of_inr rfl

theorem stackLeft_some {n : Nat} {node : SplayNode α} (hn : ns[n]? = some node)
    (stack : List Nat) : ns.stackLeft (some n) stack = ns.stackLeft node.left (n :: stack) :=
  loop_of_inl (by simp [hn])

theorem walk_nil (out : Array (WeightEntry α)) : ns.walk none [] out = some out :=
  loop_of_inr (by simp [stackLeft_none])

theorem walk_pop {n : Nat} {node : SplayNode α} (hn : ns[n]? = some node) (stack : List Nat)
    (out : Array (WeightEntry α)) : ns.walk none (n :: stack) out =
      ns.walk node.right stack (out.push ⟨node.key, node.value, node.weight⟩) :=
  loop_of_inl (by simp [stackLeft_none, hn])

/-- To go down on the left before a turn of the loop makes no difference to the turn. -/
theorem walk_push {n : Nat} {node : SplayNode α} (hn : ns[n]? = some node) (stack : List Nat)
    (out : Array (WeightEntry α)) :
    ns.walk (some n) stack out = ns.walk node.left (n :: stack) out := by
  rw [walk, walk, loop, loop]
  simp only [stackLeft_some hn]

theorem Holds.walk (h : ns.Holds place parent t) (stack : List Nat)
    (out : Array (WeightEntry α)) :
    ns.walk (link place t) stack out = ns.walk none stack (out ++ t.entries) := by
  induction t generalizing parent stack out with
  | leaf => simp [link, entries]
  | node left e right total ihl ihr =>
    obtain ⟨hnode, hleft, hright⟩ := h
    rw [link, walk_push hnode, WeightEntry.left_node, ihl hleft, walk_pop hnode,
      WeightEntry.right_node, ihr hright]
    exact congrArg _ (Array.ext' (by simp [entries]))

end SplayNodes

end BinTrace
