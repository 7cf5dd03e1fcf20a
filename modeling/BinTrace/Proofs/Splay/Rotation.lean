import BinTrace.Proofs.Reuse.WeightTree
import BinTrace.Reuse.SplayTree

/-!
What an array of nodes holds is told by a tree and by the places of its keys. A place in the tree is
told by its way to the root: the nodes below it and those around it do not change each other.
-/

namespace BinTrace

variable {α : Type}

open WeightTree

/-! ### Nodes -/

/-- The node of an entry, with its two links as seen from one side. -/
def WeightEntry.node (e : WeightEntry α) (total : Nat) (parent : Option Nat) (side : Side)
    (near far : Option Nat) : SplayNode α :=
  match side with
  | .left => ⟨e.key, e.value, e.weight, total, near, far, parent⟩
  | .right => ⟨e.key, e.value, e.weight, total, far, near, parent⟩

section Node

variable (e : WeightEntry α) (total n : Nat) (parent : Option Nat) (side : Side)
  (near far link : Option Nat)

@[simp] theorem WeightEntry.key_node : (e.node total parent side near far).key = e.key := by
  cases side <;> rfl

@[simp] theorem WeightEntry.value_node : (e.node total parent side near far).value = e.value := by
  cases side <;> rfl

@[simp] theorem WeightEntry.weight_node :
    (e.node total parent side near far).weight = e.weight := by
  cases side <;> rfl

@[simp] theorem WeightEntry.total_node : (e.node total parent side near far).total = total := by
  cases side <;> rfl

@[simp] theorem WeightEntry.parent_node : (e.node total parent side near far).parent = parent := by
  cases side <;> rfl

@[simp] theorem WeightEntry.near_node : (e.node total parent side near far).child side = near := by
  cases side <;> rfl

@[simp] theorem WeightEntry.far_node :
    (e.node total parent side near far).child side.other = far := by
  cases side <;> rfl

@[simp] theorem WeightEntry.withNear_node :
    (e.node total parent side near far).withChild side link =
      e.node total parent side link far := by
  cases side <;> rfl

@[simp] theorem WeightEntry.withFar_node :
    (e.node total parent side near far).withChild side.other link =
      e.node total parent side near link := by
  cases side <;> rfl

@[simp] theorem WeightEntry.withParent_node :
    (e.node total parent side near far).withParent link =
      e.node total link side near far := by
  cases side <;> rfl

@[simp] theorem WeightEntry.withTotal_node :
    (e.node total parent side near far).withTotal n = e.node n parent side near far := by
  cases side <;> rfl

@[simp] theorem WeightEntry.left_node : (e.node total parent .left near far).left = near := rfl

@[simp] theorem WeightEntry.right_node : (e.node total parent .left near far).right = far := rfl

@[simp] theorem WeightEntry.child_right_node :
    (e.node total parent .left near far).child .right = far := rfl

@[simp] theorem WeightEntry.withChild_right_node :
    (e.node total parent .left near far).withChild .right link =
      e.node total parent .left near link := rfl

theorem WeightEntry.node_none : e.node total parent side none none =
    { key := e.key, value := e.value, weight := e.weight, total, parent } := by
  cases side <;> rfl

end Node

namespace SplayNode

@[simp] theorem total_withChild (node : SplayNode α) (side : Side) (link : Option Nat) :
    (node.withChild side link).total = node.total := by
  cases side <;> rfl

@[simp] theorem total_withParent (node : SplayNode α) (link : Option Nat) :
    (node.withParent link).total = node.total := rfl

end SplayNode

namespace SplayNodes

variable {ns : SplayNodes α} {f : SplayNode α → SplayNode α} {link : Option Nat} {n i : Nat}

/-- The nodes after the one that a link leads to has been changed. -/
def modifyAt (ns : SplayNodes α) (link : Option Nat) (f : SplayNode α → SplayNode α) :
    SplayNodes α :=
  match link with
  | none => ns
  | some n => ns.modify n f

@[simp] theorem size_modifyAt : (ns.modifyAt link f).size = ns.size := by
  cases link <;> simp [modifyAt]

theorem getElem?_modifyAt :
    (ns.modifyAt link f)[i]? = if link = some i then f <$> ns[i]? else ns[i]? := by
  cases link <;> simp [modifyAt, Array.getElem?_modify]

theorem getElem?_modifyAt_of_ne (h : i ≠ n) : (ns.modifyAt (some n) f)[i]? = ns[i]? := by
  rw [getElem?_modifyAt, if_neg fun heq => h (Option.some.inj heq).symm]

theorem modifyAt_modifyAt (hf : ∀ node, f (f node) = f node) :
    (ns.modifyAt link f).modifyAt link f = ns.modifyAt link f := by
  apply Array.ext_getElem?
  intro i
  simp only [getElem?_modifyAt]
  split
  · cases ns[i]? with
    | none => rfl
    | some node => exact congrArg some (hf node)
  · rfl

theorem changeAt_eq (h : ∀ n ∈ link, n < ns.size) :
    ns.changeAt link f = some (ns.modifyAt link f) := by
  cases link with
  | none => rfl
  | some n => exact if_pos (h n rfl)

theorem change_eq (h : n < ns.size) : ns.change n f = some (ns.modifyAt (some n) f) := if_pos h

theorem lt_size {node : SplayNode α} (h : ns[n]? = some node) : n < ns.size :=
  (Array.getElem?_eq_some_iff.mp h).1

theorem update_eq {node : SplayNode α} {left right : Nat} (hn : ns[n]? = some node)
    (hl : ns.total node.left = some left) (hr : ns.total node.right = some right)
    (hmax : node.weight + left + right ≤ maxWeight) :
    ns.update n = some (ns.modifyAt (some n) (·.withTotal (node.weight + left + right))) := by
  have hfirst : node.weight + left ≤ maxWeight := by omega
  simp [update, hn, hl, hr, addWeights, hfirst, hmax, change_eq (lt_size hn)]

/-- Seen from any side. -/
theorem update_node {e : WeightEntry α} {total : Nat} {parent near far : Option Nat} {side : Side}
    {a b : Nat} (hn : ns[n]? = some (e.node total parent side near far))
    (ha : ns.total near = some a) (hb : ns.total far = some b)
    (hmax : e.weight + a + b ≤ maxWeight) :
    ns.update n = some (ns.modifyAt (some n) (·.withTotal (e.weight + a + b))) := by
  cases side with
  | left => exact update_eq hn ha hb hmax
  | right =>
      rw [Nat.add_right_comm] at hmax ⊢
      exact update_eq hn hb ha hmax

theorem setChild_eq {parent child : Option Nat} {side : Side} (hp : ∀ n ∈ parent, n < ns.size)
    (hc : ∀ n ∈ child, n < ns.size) : ns.setChild parent side child =
      some ((ns.modifyAt parent (·.withChild side child)).modifyAt child (·.withParent parent)) := by
  simp only [setChild, changeAt_eq hp, Option.bind_eq_bind, Option.bind_some]
  exact changeAt_eq (by simpa using hc)

theorem total_eq {link : Option Nat} {ns' : SplayNodes α}
    (h : ∀ n ∈ link, SplayNode.total <$> ns'[n]? = SplayNode.total <$> ns[n]?) :
    ns'.total link = ns.total link := by
  cases link with
  | none => rfl
  | some n => exact h n rfl

theorem sideOf_eq {node above : SplayNode α} {p : Nat} {side : Side} (hn : ns[n]? = some node)
    (hp : node.parent = some p) (ha : ns[p]? = some above) (hnear : above.child side = some n)
    (hfar : above.child side.other ≠ some n) : ns.sideOf n = some side := by
  cases side <;> simp_all [sideOf, SplayNode.child, Side.other]

/-- A node, its parent, the children of both and the node above are different nodes. -/
structure Apart (x p : Nat) (a b c g : Option Nat) : Prop where
  parent : p ≠ x
  near : a ≠ some x ∧ a ≠ some p
  inner : b ≠ some x ∧ b ≠ some p
  far : c ≠ some x ∧ c ≠ some p
  above : g ≠ some x ∧ g ≠ some p
  inner_above : ∀ n, b = some n → g ≠ some n

theorem Apart.of_nodup {x p : Nat} {a b c g : Option Nat}
    (h : (x :: p :: (a.toList ++ b.toList ++ c.toList ++ g.toList)).Nodup) :
    Apart x p a b c g := by
  simp only [List.nodup_cons, List.mem_cons, List.mem_append, Option.mem_toList, not_or] at h
  obtain ⟨⟨hpx, ⟨⟨hax, hbx⟩, hcx⟩, hgx⟩, ⟨⟨⟨hap, hbp⟩, hcp⟩, hgp⟩, hrest⟩ := h
  refine ⟨Ne.symm hpx, ⟨hax, hap⟩, ⟨hbx, hbp⟩, ⟨hcx, hcp⟩, ⟨hgx, hgp⟩, ?_⟩
  rintro n rfl rfl
  simp [List.nodup_append] at hrest

/-- What is around a node and its parent: the children of both, and the node above. -/
structure Joint (ns : SplayNodes α) (x p : Nat) (ex ep : WeightEntry α) (side : Side)
    (a b c g : Option Nat) (top : Side) : Prop where
  node : ∃ total, ns[x]? = some (ex.node total (some p) side a b)
  parent : ∃ total, ns[p]? = some (ep.node total g side (some x) c)
  inner : ∀ n ∈ b, n < ns.size
  above : ∀ n ∈ g, ∃ node, ns[n]? = some node ∧ node.child top = some p ∧
    node.child top.other ≠ some p
  apart : Apart x p a b c g

/-- What is there instead after the node has been rotated up. -/
structure Turned (ns ns' : SplayNodes α) (x p : Nat) (ex ep : WeightEntry α) (side : Side)
    (a b c g : Option Nat) (top : Side) (total below : Nat) : Prop where
  size : ns'.size = ns.size
  node : ns'[x]? = some (ex.node total g side a (some p))
  parent : ns'[p]? = some (ep.node below (some x) side b c)
  inner : ∀ n ∈ b, ns'[n]? = (·.withParent (some p)) <$> ns[n]?
  above : ∀ n ∈ g, ns'[n]? = (·.withChild top (some x)) <$> ns[n]?
  other : ∀ n, n ≠ x → n ≠ p → n ∉ b → n ∉ g → ns'[n]? = ns[n]?

section Joint

variable {ns' : SplayNodes α} {x p : Nat} {ex ep : WeightEntry α} {side top : Side}
  {a b c g : Option Nat}

/-- The nodes after a node and its parent have been linked the other way round. -/
def exchanged (ns : SplayNodes α) (x p : Nat) (side : Side) (b g : Option Nat) (top : Side) :
    SplayNodes α :=
  let ns := (ns.modifyAt (some p) (·.withChild side b)).modifyAt b (·.withParent (some p))
  let ns := (ns.modifyAt (some x) (·.withChild side.other (some p))).modifyAt (some p)
    (·.withParent (some x))
  let ns := ns.modifyAt (some x) (·.withParent g)
  (ns.modifyAt g (·.withChild top (some x))).modifyAt (some x) (·.withParent g)

theorem Joint.exchange_eq (h : ns.Joint x p ex ep side a b c g top) :
    ns.exchange x p = some (ns.exchanged x p side b g top) := by
  obtain ⟨⟨tx, hx⟩, ⟨tp, hp⟩, hb, hg, hapart⟩ := h
  have hxs := lt_size hx
  have hps := lt_size hp
  have hside : ns.sideOf x = some side :=
    sideOf_eq hx (WeightEntry.parent_node ..) hp (by simp) (by simpa using hapart.far.1)
  unfold exchange exchanged
  simp only [hx, hp, hside, Option.bind_eq_bind, Option.bind_some, WeightEntry.far_node,
    WeightEntry.parent_node]
  cases g with
  | none =>
    have htop : ns.sideOf p = some .right := by simp [sideOf, hp]
    rw [htop, Option.bind_some, setChild_eq (by simpa using hps) hb, Option.bind_some,
      setChild_eq (by simpa using hxs) (by simpa using hps), Option.bind_some,
      change_eq (by simpa using hxs)]
    exact congrArg some (modifyAt_modifyAt (f := (·.withParent none)) fun _ => rfl).symm
  | some g =>
    obtain ⟨node, hnode, hnear, hfar⟩ := hg g rfl
    have htop : ns.sideOf p = some top :=
      sideOf_eq hp (WeightEntry.parent_node ..) hnode hnear hfar
    have hgs := lt_size hnode
    rw [htop, Option.bind_some, setChild_eq (by simpa using hps) hb, Option.bind_some,
      setChild_eq (by simpa using hxs) (by simpa using hps), Option.bind_some,
      change_eq (by simpa using hxs), Option.bind_some, if_pos Option.isSome_some,
      setChild_eq (by simpa using hgs) (by simpa using hxs)]

theorem Joint.turned (h : ns.Joint x p ex ep side a b c g top) :
    ∃ total below, Turned ns (ns.exchanged x p side b g top) x p ex ep side a b c g top total
      below := by
  obtain ⟨⟨tx, hx⟩, ⟨tp, hp⟩, -, -, hpx, -, ⟨hbx, hbp⟩, -, ⟨hgx, hgp⟩, hbg⟩ := h
  refine ⟨tx, tp, ?_⟩
  unfold exchanged
  constructor
  · simp
  · simp [getElem?_modifyAt, hpx, hbx, hgx, hx]
  · simp [getElem?_modifyAt, hpx.symm, hbp, hgp, hp]
  · rintro n rfl
    have hpn : p ≠ n := fun h => hbp (congrArg some h.symm)
    have hxn : x ≠ n := fun h => hbx (congrArg some h.symm)
    simp [getElem?_modifyAt, hpn, hxn, hbg n rfl]
  · rintro n rfl
    have hpn : p ≠ n := fun h => hgp (congrArg some h.symm)
    have hxn : x ≠ n := fun h => hgx (congrArg some h.symm)
    have hbn : b ≠ some n := fun h => hbg n h rfl
    simp [getElem?_modifyAt, hpn, hxn, hbn]
  · intro n hnx hnp hbn hgn
    replace hbn : b ≠ some n := hbn
    replace hgn : g ≠ some n := hgn
    simp [getElem?_modifyAt, hnx.symm, hnp.symm, hbn, hgn]

namespace Turned

variable {total below : Nat}

theorem withTotals (h : Turned ns ns' x p ex ep side a b c g top total below)
    (hapart : Apart x p a b c g) (m n : Nat) :
    Turned ns ((ns'.modifyAt (some p) (·.withTotal n)).modifyAt (some x) (·.withTotal m)) x p ex ep
      side a b c g top m n := by
  obtain ⟨hpx, -, ⟨hbx, hbp⟩, -, ⟨hgx, hgp⟩, -⟩ := hapart
  have hother : ∀ i, i ≠ x → i ≠ p →
      ((ns'.modifyAt (some p) (·.withTotal n)).modifyAt (some x) (·.withTotal m))[i]? =
        ns'[i]? := by
    intro i hx hp
    rw [getElem?_modifyAt_of_ne hx, getElem?_modifyAt_of_ne hp]
  constructor
  · simp [h.size]
  · simp [getElem?_modifyAt, hpx, h.node]
  · simp [getElem?_modifyAt, hpx.symm, h.parent]
  · rintro i rfl
    rw [hother i (fun h => hbx (congrArg some h)) fun h => hbp (congrArg some h)]
    exact h.inner i rfl
  · rintro i rfl
    rw [hother i (fun h => hgx (congrArg some h)) fun h => hgp (congrArg some h)]
    exact h.above i rfl
  · intro i hx hp hb hg
    rw [hother i hx hp]
    exact h.other i hx hp hb hg

/-- No other total changes. -/
theorem total_eq (h : Turned ns ns' x p ex ep side a b c g top total below) {link : Option Nat}
    (hx : link ≠ some x) (hp : link ≠ some p) : ns'.total link = ns.total link := by
  apply SplayNodes.total_eq
  rintro n rfl
  by_cases hb : n ∈ b
  · simp [h.inner n hb, Function.comp_def]
  · by_cases hg : n ∈ g
    · simp [h.above n hg, Function.comp_def]
    · rw [h.other n (fun h => hx (congrArg some h)) (fun h => hp (congrArg some h)) hb hg]

end Turned

theorem Joint.rotate (h : ns.Joint x p ex ep side a b c g top) {ta tb tc : Nat}
    (ha : ns.total a = some ta) (hb : ns.total b = some tb) (hc : ns.total c = some tc)
    (hmax : ep.weight + (ex.weight + ta + tb) + tc ≤ maxWeight) :
    ∃ ns', ns.rotate x = some ns' ∧ Turned ns ns' x p ex ep side a b c g top
      (ex.weight + ta + (ep.weight + tb + tc)) (ep.weight + tb + tc) := by
  obtain ⟨tx, tp, hturned⟩ := h.turned
  obtain ⟨hpx, ⟨hax, hap⟩, ⟨hbx, hbp⟩, ⟨hcx, hcp⟩, -, -⟩ := h.apart
  refine ⟨_, ?_, hturned.withTotals h.apart _ _⟩
  obtain ⟨told, hx⟩ := h.node
  have hparent : (ns.exchanged x p side b g top).update p = some
      ((ns.exchanged x p side b g top).modifyAt (some p)
        (·.withTotal (ep.weight + tb + tc))) := by
    refine update_node hturned.parent ?_ ?_ (by omega)
    · rw [hturned.total_eq hbx hbp, hb]
    · rw [hturned.total_eq hcx hcp, hc]
  have hnode : ((ns.exchanged x p side b g top).modifyAt (some p)
      (·.withTotal (ep.weight + tb + tc)))[x]? = some (ex.node tx g side a (some p)) := by
    simp [getElem?_modifyAt, hpx, hturned.node]
  simp only [SplayNodes.rotate, hx, WeightEntry.parent_node, h.exchange_eq, hparent,
    Option.bind_eq_bind, Option.bind_some]
  refine update_node hnode ?_ ?_ (by omega)
  · rw [← ha, ← hturned.total_eq hax hap]
    apply SplayNodes.total_eq
    rintro n rfl
    rw [getElem?_modifyAt_of_ne fun h => hap (congrArg some h)]
  · simp [total, getElem?_modifyAt, hturned.parent]

end Joint

end SplayNodes

end BinTrace
