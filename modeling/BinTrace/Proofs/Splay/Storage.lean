import BinTrace.Proofs.Splay.Rotation

/-!
What an array of nodes stores is told by a tree and by the places of its keys. A subtree is stored
together with the way from it to the root: the nodes below it and those around it do not change each
other, so that a rotation is told by the few nodes that it links anew.
-/

namespace BinTrace

variable {α : Type}

open WeightTree

namespace WeightTree

/-! ### Trees and their ways -/

namespace Step

def side : Step α → Side
  | .left _ _ => .left
  | .right _ _ => .right

def entry : Step α → WeightEntry α
  | .left e _ => e
  | .right _ e => e

end Step

/-- A tree with its weight, given its two parts as seen from one side. -/
def joinOn (side : Side) (near : WeightTree α) (e : WeightEntry α) (far : WeightTree α) :
    WeightTree α :=
  match side with
  | .left => join near e far
  | .right => join far e near

/-- The whole tree around a subtree. -/
def plug : List (Step α) → WeightTree α → WeightTree α
  | [], t => t
  | s :: way, t => plug way (joinOn s.side t s.entry s.tree)

/-- The entries that a way passes by. -/
def around : List (Step α) → List (WeightEntry α)
  | [] => []
  | s :: way => s.entry :: (s.tree.entries ++ around way)

section

variable {t near far : WeightTree α} {e : WeightEntry α} {s : Step α} {way : List (Step α)} {k : Nat}

theorem joinOn_left (left right : WeightTree α) (e : WeightEntry α) :
    joinOn .left left e right = join left e right := rfl

theorem joinOn_other (side : Side) (near far : WeightTree α) (e : WeightEntry α) :
    joinOn side.other far e near = joinOn side near e far := by
  cases side <;> rfl

@[simp] theorem totalWeight_joinOn (side : Side) (near far : WeightTree α) (e : WeightEntry α) :
    (joinOn side near e far).totalWeight = e.weight + near.totalWeight + far.totalWeight := by
  cases side with
  | left => rfl
  | right => exact Nat.add_right_comm ..

@[simp] theorem entries_leaf : (leaf : WeightTree α).entries = [] := rfl

@[simp] theorem totalWeight_leaf : (leaf : WeightTree α).totalWeight = 0 := rfl

theorem weighed_joinOn {side : Side} :
    (joinOn side near e far).Weighed ↔ near.Weighed ∧ far.Weighed := by
  cases side with
  | left => exact ⟨fun h => ⟨h.1, h.2.1⟩, fun h => weighed_join h.1 h.2⟩
  | right => exact ⟨fun h => ⟨h.2.1, h.1⟩, fun h => weighed_join h.2 h.1⟩

theorem perm_joinOn (side : Side) (near far : WeightTree α) (e : WeightEntry α) :
    (joinOn side near e far).entries.Perm (e :: (near.entries ++ far.entries)) := by
  cases side with
  | left => exact List.perm_middle
  | right => exact List.perm_middle.trans (.cons e List.perm_append_comm)

theorem perm_plug (way : List (Step α)) (t : WeightTree α) :
    (plug way t).entries.Perm (t.entries ++ around way) := by
  induction way generalizing t with
  | nil => simp [plug, around]
  | cons s way ih =>
    calc (plug way (joinOn s.side t s.entry s.tree)).entries.Perm
          ((joinOn s.side t s.entry s.tree).entries ++ around way) := ih _
      List.Perm _ (s.entry :: (t.entries ++ s.tree.entries) ++ around way) :=
        (perm_joinOn ..).append_right _
      List.Perm _ (t.entries ++ around (s :: way)) := by
        simpa [around] using List.perm_middle.symm

/-- Going up from a subtree its weight only grows. -/
theorem totalWeight_le_plug (way : List (Step α)) (t : WeightTree α) :
    t.totalWeight ≤ (plug way t).totalWeight := by
  induction way generalizing t with
  | nil => exact Nat.le_refl _
  | cons s way ih =>
    refine Nat.le_trans ?_ (ih _)
    rw [totalWeight_joinOn]
    omega

theorem totalWeight_plug {t u : WeightTree α} (h : t.totalWeight = u.totalWeight)
    (way : List (Step α)) : (plug way t).totalWeight = (plug way u).totalWeight := by
  induction way generalizing t u with
  | nil => exact h
  | cons s way ih =>
    apply ih
    rw [totalWeight_joinOn, totalWeight_joinOn, h]

theorem entries_plug (way : List (Step α)) (t : WeightTree α) :
    (plug way t).entries = entriesLeft way ++ t.entries ++ entriesRight way := by
  induction way generalizing t with
  | nil => simp [plug, entriesLeft, entriesRight]
  | cons s way ih =>
    rw [plug, ih]
    cases s <;>
      simp [Step.side, Step.entry, Step.tree, joinOn, entries_join, entriesLeft, entriesRight]

/-- A tree whose stored weight is right is its own joining. -/
theorem Weighed.eq_join {left right : WeightTree α} {total : Nat}
    (h : (node left e right total).Weighed) : node left e right total = join left e right :=
  congrArg (node left e right) h.2.2

/-- Going down to a key does not change the whole. -/
theorem plug_descend (ht : t.Weighed) (k : Nat) (way : List (Step α)) :
    plug (descend k t way).2 (descend k t way).1 = plug way t := by
  fun_induction descend k t way with
  | case1 way => rfl
  | case2 left e right total way hk => rfl
  | case3 left e right total way hk hlt ih => rw [ih ht.1, ht.eq_join]; rfl
  | case4 left e right total way hk hlt ih => rw [ih ht.2.1, ht.eq_join]; rfl

end

end WeightTree

namespace SplayNodes

variable {ns ns' : SplayNodes α} {place place' : Nat → Nat} {parent child : Option Nat}
  {t near far : WeightTree α} {e : WeightEntry α} {side : Side} {s : Step α} {way : List (Step α)}

/-- The link that leads to a tree. -/
def link (place : Nat → Nat) : WeightTree α → Option Nat
  | .leaf => none
  | .node _ e _ _ => some (place e.key)

/-- The link from a subtree to the node above it. -/
def linkUp (place : Nat → Nat) : List (Step α) → Option Nat
  | [] => none
  | s :: _ => some (place s.entry.key)

/-- The nodes of a tree lie in the places of their keys and are linked as the tree is. -/
def Holds (ns : SplayNodes α) (place : Nat → Nat) (parent : Option Nat) : WeightTree α → Prop
  | .leaf => True
  | .node left e right total =>
    ns[place e.key]? = some (e.node total parent .left (link place left) (link place right)) ∧
      ns.Holds place (some (place e.key)) left ∧ ns.Holds place (some (place e.key)) right

/-- The same for what is around a subtree, given the link to it and its weight. -/
def Above (ns : SplayNodes α) (place : Nat → Nat) (child : Option Nat) (weight : Nat) :
    List (Step α) → Prop
  | [] => True
  | s :: way =>
    ns[place s.entry.key]? = some (s.entry.node (s.entry.weight + weight + s.tree.totalWeight)
        (linkUp place way) s.side child (link place s.tree)) ∧
      ns.Holds place (some (place s.entry.key)) s.tree ∧
      ns.Above place (some (place s.entry.key)) (s.entry.weight + weight + s.tree.totalWeight) way

@[simp] theorem link_leaf : link place (.leaf : WeightTree α) = none := rfl

@[simp] theorem link_node {total : Nat} :
    link place (.node near e far total) = some (place e.key) := rfl

@[simp] theorem linkUp_nil : linkUp place ([] : List (Step α)) = none := rfl

@[simp] theorem linkUp_cons : linkUp place (s :: way) = some (place s.entry.key) := rfl

@[simp] theorem link_joinOn : link place (joinOn side near e far) = some (place e.key) := by
  cases side <;> rfl

theorem holds_joinOn : ns.Holds place parent (joinOn side near e far) ↔
    ns[place e.key]? = some (e.node (e.weight + near.totalWeight + far.totalWeight) parent side
        (link place near) (link place far)) ∧
      ns.Holds place (some (place e.key)) near ∧ ns.Holds place (some (place e.key)) far := by
  cases side with
  | left => exact Iff.rfl
  | right =>
    rw [Nat.add_right_comm, and_comm (a := ns.Holds _ _ near)]
    exact Iff.rfl

theorem holds_join {left right : WeightTree α} : ns.Holds place parent (join left e right) ↔
    ns[place e.key]? = some (e.node (e.weight + left.totalWeight + right.totalWeight) parent .left
        (link place left) (link place right)) ∧
      ns.Holds place (some (place e.key)) left ∧ ns.Holds place (some (place e.key)) right := Iff.rfl

theorem holds_plug : ns.Holds place none (plug way t) ↔
    ns.Holds place (linkUp place way) t ∧ ns.Above place (link place t) t.totalWeight way := by
  induction way generalizing t with
  | nil => exact (and_iff_left trivial).symm
  | cons s way ih =>
    rw [plug, ih, holds_joinOn, link_joinOn, totalWeight_joinOn]
    simp only [Above, linkUp]
    tauto

/-- The places of some entries. -/
def places (place : Nat → Nat) (es : List (WeightEntry α)) : List Nat :=
  es.map fun e => place e.key

@[simp] theorem mem_places {es : List (WeightEntry α)} {n : Nat} :
    n ∈ places place es ↔ ∃ e ∈ es, place e.key = n := List.mem_map

@[simp] theorem places_cons (e : WeightEntry α) (es : List (WeightEntry α)) :
    places place (e :: es) = place e.key :: places place es := rfl

@[simp] theorem places_append (es fs : List (WeightEntry α)) :
    places place (es ++ fs) = places place es ++ places place fs := List.map_append

theorem places_perm {es fs : List (WeightEntry α)} (h : es.Perm fs) :
    (places place es).Perm (places place fs) := h.map _

theorem mem_of_link {n : Nat} (h : n ∈ link place t) : n ∈ places place t.entries := by
  cases t with
  | leaf => cases h
  | node left e right total =>
    cases h
    simp [entries]

theorem mem_of_linkUp {n : Nat} (h : n ∈ linkUp place way) : n ∈ places place (around way) := by
  cases way with
  | nil => cases h
  | cons s way =>
    cases h
    simp [around]

theorem places_congr {es : List (WeightEntry α)} (h : ∀ e ∈ es, place' e.key = place e.key) :
    places place' es = places place es := List.map_congr_left h

theorem link_congr (h : ∀ e ∈ t.entries, place' e.key = place e.key) :
    link place' t = link place t := by
  cases t with
  | leaf => rfl
  | node left e right total => exact congrArg some (h e (by simp [entries]))

theorem toList_sublist {link : Option Nat} {ps : List Nat} (h : ∀ n ∈ link, n ∈ ps) :
    link.toList.Sublist ps := by
  cases link with
  | none => exact List.nil_sublist _
  | some n => exact List.singleton_sublist.mpr (h n rfl)

/-- A tree stays where nothing changes in its places. -/
theorem Holds.congr (h : ns.Holds place parent t)
    (hplace : ∀ e ∈ t.entries, place' e.key = place e.key)
    (hsame : ∀ n ∈ places place t.entries, ns'[n]? = ns[n]?) :
    ns'.Holds place' parent t := by
  induction t generalizing parent with
  | leaf => trivial
  | node left e right total ihl ihr =>
    simp only [entries, places_append, places_cons, List.forall_mem_append,
      List.forall_mem_cons] at hplace hsame
    obtain ⟨hroot, hleft, hright⟩ := h
    refine ⟨?_, ?_, ?_⟩
    · rw [hplace.2.1, hsame.2.1, hroot, link_congr hplace.1, link_congr hplace.2.2]
    · rw [hplace.2.1]
      exact ihl hleft hplace.1 hsame.1
    · rw [hplace.2.1]
      exact ihr hright hplace.2.2 hsame.2.2

/-- A tree gets another parent when its root does. -/
theorem Holds.adopt (h : ns.Holds place parent t) {parent' : Option Nat}
    (hnodup : (places place t.entries).Nodup)
    (hroot : ∀ n ∈ link place t, ns'[n]? = (·.withParent parent') <$> ns[n]?)
    (hrest : ∀ n ∈ places place t.entries, n ∉ link place t → ns'[n]? = ns[n]?) :
    ns'.Holds place parent' t := by
  cases t with
  | leaf => trivial
  | node left e right total =>
    obtain ⟨hnode, hleft, hright⟩ := h
    have hroot' : place e.key ∉ places place (left.entries ++ right.entries) :=
      (List.nodup_cons.mp ((places_perm List.perm_middle).nodup_iff.mp hnodup)).1
    have hbelow : ∀ n ∈ places place (left.entries ++ right.entries), ns'[n]? = ns[n]? := by
      intro n hn
      refine hrest n ((places_perm List.perm_middle).mem_iff.mpr (List.mem_cons_of_mem _ hn)) ?_
      intro hlink
      exact hroot' (Option.some.inj hlink ▸ hn)
    rw [places_append, List.forall_mem_append] at hbelow
    refine ⟨?_, hleft.congr (fun _ _ => rfl) hbelow.1, hright.congr (fun _ _ => rfl) hbelow.2⟩
    rw [hroot _ rfl, hnode]
    simp

theorem Above.congr {weight : Nat} (h : ns.Above place child weight way)
    (hsame : ∀ n ∈ places place (around way), ns'[n]? = ns[n]?) :
    ns'.Above place child weight way := by
  induction way generalizing child weight with
  | nil => trivial
  | cons s way ih =>
    simp only [around, places_append, places_cons, List.forall_mem_append,
      List.forall_mem_cons] at hsame
    obtain ⟨hnode, htree, hway⟩ := h
    exact ⟨hsame.1.trans hnode, htree.congr (fun _ _ => rfl) hsame.2.1, ih hway hsame.2.2⟩

/-- What is around a subtree, with another link to it. -/
theorem Above.relink {weight : Nat} {child' : Option Nat} (h : ns.Above place child weight way)
    (hnodup : (places place (around way)).Nodup)
    (hhead : ∀ s ∈ way.head?, ns'[place s.entry.key]? =
      (·.withChild s.side child') <$> ns[place s.entry.key]?)
    (hrest : ∀ n ∈ places place (around way), n ∉ linkUp place way → ns'[n]? = ns[n]?) :
    ns'.Above place child' weight way := by
  cases way with
  | nil => trivial
  | cons s way =>
    obtain ⟨hnode, htree, hway⟩ := h
    have hroot : place s.entry.key ∉ places place (s.tree.entries ++ around way) :=
      (List.nodup_cons.mp hnodup).1
    have hbelow : ∀ n ∈ places place (s.tree.entries ++ around way), ns'[n]? = ns[n]? := by
      intro n hn
      refine hrest n (List.mem_cons_of_mem _ hn) ?_
      intro hlink
      exact hroot (Option.some.inj hlink ▸ hn)
    rw [places_append, List.forall_mem_append] at hbelow
    refine ⟨?_, htree.congr (fun _ _ => rfl) hbelow.1, hway.congr hbelow.2⟩
    rw [hhead s rfl, hnode]
    simp

theorem Holds.total_link (h : ns.Holds place parent t) :
    ns.total (link place t) = some t.totalWeight := by
  cases t with
  | leaf => rfl
  | node left e right sum =>
    obtain ⟨hnode, -⟩ := h
    simp [total, link, hnode, WeightTree.totalWeight]

theorem Holds.total_of (h : ns.Holds place parent t)
    (hsame : ∀ n ∈ link place t, SplayNode.total <$> ns'[n]? = SplayNode.total <$> ns[n]?) :
    ns'.total (link place t) = some t.totalWeight := (total_eq hsame).trans h.total_link

theorem Holds.lt_size (h : ns.Holds place parent t) : ∀ n ∈ places place t.entries, n < ns.size := by
  induction t generalizing parent with
  | leaf => simp [entries]
  | node left e right total ihl ihr =>
    obtain ⟨hnode, hleft, hright⟩ := h
    simp only [entries, places_append, places_cons, List.forall_mem_append, List.forall_mem_cons]
    exact ⟨ihl hleft, SplayNodes.lt_size hnode, ihr hright⟩

/-! ### Stored trees -/

/-- A tree whose root has no parent is stored. -/
structure Stores (ns : SplayNodes α) (place : Nat → Nat) (t : WeightTree α) : Prop where
  holds : ns.Holds place none t
  nodup : (places place t.entries).Nodup
  light : t.totalWeight ≤ maxWeight

/-- Nothing changes but in some places. -/
structure Within (ns ns' : SplayNodes α) (ps : List Nat) : Prop where
  size : ns'.size = ns.size
  same : ∀ n, n ∉ ps → ns'[n]? = ns[n]?

theorem Within.refl (ps : List Nat) : Within ns ns ps := ⟨rfl, fun _ _ => rfl⟩

theorem Within.trans {ns'' : SplayNodes α} {ps : List Nat} (h : Within ns ns' ps)
    (h' : Within ns' ns'' ps) : Within ns ns'' ps :=
  ⟨h'.size.trans h.size, fun n hn => (h'.same n hn).trans (h.same n hn)⟩

theorem Within.mono {ps qs : List Nat} (h : Within ns ns' ps) (hsub : ∀ n ∈ ps, n ∈ qs) :
    Within ns ns' qs := ⟨h.size, fun n hn => h.same n fun hp => hn (hsub n hp)⟩

/-- A tree stays stored when others move. -/
theorem Stores.congr (h : ns.Stores place t)
    (hplace : ∀ e ∈ t.entries, place' e.key = place e.key)
    (hsame : ∀ n ∈ places place t.entries, ns'[n]? = ns[n]?) : ns'.Stores place' t :=
  ⟨h.holds.congr hplace hsame, places_congr hplace ▸ h.nodup, h.light⟩

/-- Another tree of the same entries is stored, in the same places. -/
structure Reshaped (ns ns' : SplayNodes α) (place : Nat → Nat) (t t' : WeightTree α) : Prop where
  stores : ns'.Stores place t'
  entries_eq : t'.entries = t.entries
  within : Within ns ns' (places place t.entries)

theorem Reshaped.refl (h : ns.Stores place t) : Reshaped ns ns place t t := ⟨h, rfl, .refl _⟩

theorem Reshaped.trans {ns'' : SplayNodes α} {t' t'' : WeightTree α}
    (h : Reshaped ns ns' place t t') (h' : Reshaped ns' ns'' place t' t'') :
    Reshaped ns ns'' place t t'' :=
  ⟨h'.stores, h'.entries_eq.trans h.entries_eq, h.within.trans (h.entries_eq ▸ h'.within)⟩

/-- The node above a subtree is on the side of the last step. -/
def top : List (Step α) → Side
  | [] => .left
  | s :: _ => s.side

section Rotation

variable {a b c : WeightTree α} {x p : WeightEntry α}

theorem perm_plug_joinOn (way : List (Step α)) (side : Side) (a b c : WeightTree α)
    (x p : WeightEntry α) :
    (plug way (joinOn side (joinOn side a x b) p c)).entries.Perm
      (x :: p :: (a.entries ++ b.entries ++ c.entries ++ around way)) := by
  have hjoined : (joinOn side (joinOn side a x b) p c).entries.Perm
      (x :: p :: (a.entries ++ b.entries ++ c.entries)) :=
    calc (joinOn side (joinOn side a x b) p c).entries
      List.Perm _ (p :: ((joinOn side a x b).entries ++ c.entries)) := perm_joinOn ..
      List.Perm _ (p :: (x :: (a.entries ++ b.entries) ++ c.entries)) :=
        .cons p ((perm_joinOn ..).append_right _)
      List.Perm _ (x :: p :: (a.entries ++ b.entries ++ c.entries)) := .swap ..
  exact (perm_plug ..).trans (hjoined.append_right _)

theorem Stores.nodup_rotation
    (h : ns.Stores place (plug way (joinOn side (joinOn side a x b) p c))) :
    (place x.key :: place p.key :: (places place a.entries ++ places place b.entries ++
      places place c.entries ++ places place (around way))).Nodup := by
  simpa using (places_perm (perm_plug_joinOn ..)).nodup_iff.mp h.nodup

theorem Stores.parent_eq (way : List (Step α)) (side : Side)
    (h : ns.Stores place (plug way (joinOn side near e far))) :
    ∃ node, ns[place e.key]? = some node ∧ node.parent = linkUp place way := by
  obtain ⟨hnode, -⟩ := holds_joinOn.mp (holds_plug.mp h.holds).1
  exact ⟨_, hnode, WeightEntry.parent_node ..⟩

/-- The node above a subtree has it on one side only. -/
theorem Stores.node_above (h : ns.Stores place (plug (s :: way) (joinOn side near e far))) :
    ∃ node, ns[place s.entry.key]? = some node ∧ node.child s.side = some (place e.key) ∧
      node.child s.side.other ≠ some (place e.key) := by
  obtain ⟨-, hnode, -⟩ := holds_plug.mp h.holds
  rw [link_joinOn] at hnode
  refine ⟨_, hnode, WeightEntry.near_node .., ?_⟩
  rw [WeightEntry.far_node]
  intro hlink
  have hnodup := (places_perm (perm_plug ..)).nodup_iff.mp h.nodup
  rw [places_append] at hnodup
  refine (List.nodup_append.mp hnodup).2.2 (place e.key) (mem_of_link link_joinOn) (place e.key)
    ?_ rfl
  rw [around, places_cons, places_append]
  exact List.mem_cons_of_mem _ (List.mem_append_left _ (mem_of_link hlink))

theorem Stores.joint (h : ns.Stores place (plug way (joinOn side (joinOn side a x b) p c))) :
    ns.Joint (place x.key) (place p.key) x p side (link place a) (link place b) (link place c)
      (linkUp place way) (top way) := by
  obtain ⟨hp, hjoined, hc⟩ := holds_joinOn.mp (holds_plug.mp h.holds).1
  obtain ⟨hx, ha, hb⟩ := holds_joinOn.mp hjoined
  rw [link_joinOn] at hp
  refine ⟨⟨_, hx⟩, ⟨_, hp⟩, fun n hn => hb.lt_size n (mem_of_link hn), ?_, ?_⟩
  · intro n hn
    cases way with
    | nil => cases hn
    | cons s way =>
      cases hn
      exact h.node_above
  · apply Apart.of_nodup
    refine h.nodup_rotation.sublist (.cons_cons _ (.cons_cons _ ?_))
    exact (((toList_sublist fun _ => mem_of_link).append
      (toList_sublist fun _ => mem_of_link)).append
      (toList_sublist fun _ => mem_of_link)).append (toList_sublist fun _ => mem_of_linkUp)

theorem entries_rotate (side : Side) (a b c : WeightTree α) (x p : WeightEntry α) :
    (joinOn side a x (joinOn side b p c)).entries =
      (joinOn side (joinOn side a x b) p c).entries := by
  cases side <;> simp [joinOn, entries_join]

section Moves

variable {total below : Nat}
  (h : ns.Stores place (plug way (joinOn side (joinOn side a x b) p c)))
  (hturned : Turned ns ns' (place x.key) (place p.key) x p side (link place a) (link place b)
    (link place c) (linkUp place way) (top way) total below)

include hturned

theorem Turned.within :
    Within ns ns' (places place (plug way (joinOn side (joinOn side a x b) p c)).entries) := by
  refine ⟨hturned.size, fun n hn => ?_⟩
  rw [(places_perm (perm_plug_joinOn ..)).mem_iff] at hn
  simp only [places_cons, places_append, List.mem_cons, List.mem_append, not_or] at hn
  obtain ⟨hx, hp, ⟨⟨-, hb⟩, -⟩, hway⟩ := hn
  exact hturned.other n hx hp (fun h => hb (mem_of_link h)) fun h => hway (mem_of_linkUp h)

include h

/-- Apart from the two nodes, the root of the subtree between them and the node above, nothing
moves. -/
theorem Turned.moves :
    (∀ n ∈ places place a.entries, ns'[n]? = ns[n]?) ∧
      (∀ n ∈ places place b.entries, n ∉ link place b → ns'[n]? = ns[n]?) ∧
      (∀ n ∈ places place c.entries, ns'[n]? = ns[n]?) ∧
      ∀ n ∈ places place (around way), n ∉ linkUp place way → ns'[n]? = ns[n]? := by
  have hnodup := h.nodup_rotation
  have hb : ∀ n ∈ link place b, n ∈ places place b.entries := fun n => mem_of_link
  have hway : ∀ n ∈ linkUp place way, n ∈ places place (around way) := fun n => mem_of_linkUp
  have hother := hturned.other
  simp only [List.nodup_cons, List.nodup_append, List.mem_append] at hnodup
  refine ⟨fun n hn => ?_, fun n hn hnot => ?_, fun n hn => ?_, fun n hn hnot => ?_⟩
  all_goals
    apply hother n
    all_goals grind

end Moves

theorem totalWeight_rotate (side : Side) (a b c : WeightTree α) (x p : WeightEntry α) :
    (joinOn side a x (joinOn side b p c)).totalWeight =
      (joinOn side (joinOn side a x b) p c).totalWeight := by
  simp only [totalWeight_joinOn]
  omega

theorem Stores.rotate (way : List (Step α)) (side : Side)
    (h : ns.Stores place (plug way (joinOn side (joinOn side a x b) p c))) :
    ∃ ns', ns.rotate (place x.key) = some ns' ∧
      Reshaped ns ns' place (plug way (joinOn side (joinOn side a x b) p c))
        (plug way (joinOn side a x (joinOn side b p c))) := by
  obtain ⟨hholds, habove⟩ := holds_plug.mp h.holds
  obtain ⟨hp, hjoined, hc⟩ := holds_joinOn.mp hholds
  obtain ⟨hx, ha, hb⟩ := holds_joinOn.mp hjoined
  have hlight := Nat.le_trans (totalWeight_le_plug ..) h.light
  rw [totalWeight_joinOn, totalWeight_joinOn] at hlight
  obtain ⟨ns', hrotate, hturned⟩ :=
    h.joint.rotate ha.total_link hb.total_link hc.total_link hlight
  obtain ⟨hsamea, hsameb, hsamec, hsameway⟩ := hturned.moves h
  have hnodup : (places place b.entries).Nodup ∧ (places place (around way)).Nodup := by
    have hnodup := (List.nodup_cons.mp (List.nodup_cons.mp h.nodup_rotation).2).2
    simp only [List.nodup_append] at hnodup
    exact ⟨hnodup.1.1.2.1, hnodup.2.1⟩
  have hentries : (plug way (joinOn side a x (joinOn side b p c))).entries =
      (plug way (joinOn side (joinOn side a x b) p c)).entries := by
    rw [entries_plug, entries_rotate, ← entries_plug]
  refine ⟨ns', hrotate, ⟨holds_plug.mpr ⟨?_, ?_⟩, ?_, ?_⟩, hentries, hturned.within⟩
  · refine holds_joinOn.mpr ⟨?_, ha.congr (fun _ _ => rfl) hsamea, holds_joinOn.mpr
      ⟨?_, hb.adopt hnodup.1 hturned.inner hsameb, hc.congr (fun _ _ => rfl) hsamec⟩⟩
    · rw [hturned.node, link_joinOn, totalWeight_joinOn]
    · exact hturned.parent
  · rw [totalWeight_rotate, link_joinOn]
    refine habove.relink hnodup.2 ?_ hsameway
    intro s hs
    cases way with
    | nil => cases hs
    | cons s way =>
      cases hs
      exact hturned.above _ rfl
  · rw [hentries]
    exact h.nodup
  · rw [totalWeight_plug (totalWeight_rotate ..)]
    exact h.light

end Rotation

/-! ### Splaying -/

section Loops

variable {σ β : Type} {f : σ → Option (σ ⊕ β)} {s : σ}

theorem loop_of_inl {next : σ} (h : f s = some (.inl next)) : loop s f = loop next f := by
  rw [loop, h]
  rfl

theorem loop_of_inr {result : β} (h : f s = some (.inr result)) : loop s f = some result := by
  rw [loop, h]
  rfl

end Loops

section Splaying

variable {a b : WeightTree α} {x : WeightEntry α} {s₁ s₂ : Step α}

theorem Stores.sideOf (way : List (Step α)) (side : Side)
    (h : ns.Stores place (plug (s :: way) (joinOn side near e far))) :
    ns.sideOf (place e.key) = some s.side := by
  obtain ⟨node, hnode, hparent⟩ := h.parent_eq _ _
  obtain ⟨above, habove, hnear, hfar⟩ := h.node_above
  exact sideOf_eq hnode hparent habove hnear hfar

theorem Stores.splay_nil (h : ns.Stores place (join a x b)) : ns.splay (place x.key) = some ns := by
  obtain ⟨node, hnode, hparent⟩ := Stores.parent_eq [] .left h
  exact loop_of_inr (by simp [hnode, hparent, linkUp])

theorem Stores.splay_of_climb {s : Step α} {ns₁ : SplayNodes α}
    (h : ns.Stores place (plug (s :: way) (join a x b)))
    (hclimb : ns.climb (place x.key) (place s.entry.key) = some ns₁) :
    ns.splay (place x.key) = ns₁.splay (place x.key) := by
  obtain ⟨node, hnode, hparent⟩ := Stores.parent_eq (s :: way) .left h
  exact loop_of_inl (by simp [hnode, hparent, linkUp, hclimb])

theorem Stores.climb_single {s : Step α} (h : ns.Stores place (plug [s] (join a x b))) :
    ns.climb (place x.key) (place s.entry.key) = ns.rotate (place x.key) := by
  obtain ⟨above, habove, htop⟩ := Stores.parent_eq [] s.side h
  simp [climb, habove, htop, linkUp]

theorem Stores.climb_cons (h : ns.Stores place (plug (s₁ :: s₂ :: way) (join a x b))) :
    ns.climb (place x.key) (place s₁.entry.key) =
      (ns.rotate (if s₁.side = s₂.side then place s₁.entry.key else place x.key)).bind
        (·.rotate (place x.key)) := by
  obtain ⟨above, habove, htop⟩ := Stores.parent_eq (s₂ :: way) s₁.side h
  have hside := Stores.sideOf (s₂ :: way) .left h
  have hsideAbove := Stores.sideOf way s₁.side h
  simp [climb, habove, htop, linkUp, hside, hsideAbove]

/-- Two steps up on one side. -/
theorem Stores.rotate_same (side : Side) {c d : WeightTree α} {p g : WeightEntry α}
    (h : ns.Stores place (plug way (joinOn side (joinOn side (joinOn side a x b) p c) g d))) :
    ∃ ns', (ns.rotate (place p.key)).bind (·.rotate (place x.key)) = some ns' ∧
      Reshaped ns ns' place (plug way (joinOn side (joinOn side (joinOn side a x b) p c) g d))
        (plug way (joinOn side a x (joinOn side b p (joinOn side c g d)))) := by
  obtain ⟨ns₁, hfirst, hreshaped₁⟩ := h.rotate _ _
  obtain ⟨ns₂, hsecond, hreshaped₂⟩ := hreshaped₁.stores.rotate _ _
  exact ⟨ns₂, by rw [hfirst, Option.bind_some, hsecond], hreshaped₁.trans hreshaped₂⟩

/-- Two steps up on two sides. -/
theorem Stores.rotate_other (side : Side) (s : Step α) {c : WeightTree α} {p : WeightEntry α}
    (hs : s.side = side.other)
    (h : ns.Stores place (plug (s :: way) (joinOn side (joinOn side a x b) p c))) :
    ∃ ns', (ns.rotate (place x.key)).bind (·.rotate (place x.key)) = some ns' ∧
      Reshaped ns ns' place (plug (s :: way) (joinOn side (joinOn side a x b) p c))
        (plug way (joinOn s.side (joinOn side b p c) x (joinOn s.side a s.entry s.tree))) := by
  obtain ⟨ns₁, hfirst, hreshaped₁⟩ := h.rotate _ _
  rw [← joinOn_other side a (joinOn side b p c), ← hs] at hreshaped₁
  obtain ⟨ns₂, hsecond, hreshaped₂⟩ := Stores.rotate way s.side hreshaped₁.stores
  exact ⟨ns₂, by rw [hfirst, Option.bind_some, hsecond], hreshaped₁.trans hreshaped₂⟩

/-- What is left to do after two steps. -/
theorem Stores.splay_rest {c d : WeightTree α} {ns₁ : SplayNodes α}
    (h : ns.Stores place (plug (s₁ :: s₂ :: way) (join a x b)))
    (hrotate : (ns.rotate (if s₁.side = s₂.side then place s₁.entry.key else place x.key)).bind
      (·.rotate (place x.key)) = some ns₁)
    (hreshaped : Reshaped ns ns₁ place (plug (s₁ :: s₂ :: way) (join a x b))
      (plug way (join c x d)))
    (hrest : ∃ ns', ns₁.splay (place x.key) = some ns' ∧
      Reshaped ns₁ ns' place (plug way (join c x d)) t) :
    ∃ ns', ns.splay (place x.key) = some ns' ∧
      Reshaped ns ns' place (plug (s₁ :: s₂ :: way) (join a x b)) t := by
  obtain ⟨ns', hsplay, hreshaped'⟩ := hrest
  refine ⟨ns', ?_, hreshaped.trans hreshaped'⟩
  rw [h.splay_of_climb (h.climb_cons.trans hrotate), hsplay]

/-- A node is brought to the root as the raising of its place says. -/
theorem Stores.splay (h : ns.Stores place (plug way (join a x b))) :
    ∃ ns', ns.splay (place x.key) = some ns' ∧ Reshaped ns ns' place (plug way (join a x b))
      (join (raise way a b).1 x (raise way a b).2) := by
  fun_induction raise way a b generalizing ns with
  | case1 a b => exact ⟨ns, h.splay_nil, .refl h⟩
  | case2 p c a b =>
    obtain ⟨ns', hrotate, hreshaped⟩ := Stores.rotate [] .left h
    refine ⟨ns', ?_, hreshaped⟩
    rw [h.splay_of_climb (h.climb_single.trans hrotate), hreshaped.stores.splay_nil]
  | case3 c p a b =>
    obtain ⟨ns', hrotate, hreshaped⟩ := Stores.rotate [] .right h
    refine ⟨ns', ?_, hreshaped⟩
    rw [h.splay_of_climb (h.climb_single.trans hrotate), hreshaped.stores.splay_nil]
  | case4 p c g d way a b ih =>
    obtain ⟨ns₁, hrotate, hreshaped⟩ := Stores.rotate_same .left h
    exact h.splay_rest hrotate hreshaped (ih hreshaped.stores)
  | case5 p c d g way a b ih =>
    obtain ⟨ns₁, hrotate, hreshaped⟩ := Stores.rotate_other .left (.right d g) rfl h
    exact h.splay_rest hrotate hreshaped (ih hreshaped.stores)
  | case6 c p g d way a b ih =>
    obtain ⟨ns₁, hrotate, hreshaped⟩ := Stores.rotate_other .right (.left g d) rfl h
    exact h.splay_rest hrotate hreshaped (ih hreshaped.stores)
  | case7 c p d g way a b ih =>
    obtain ⟨ns₁, hrotate, hreshaped⟩ := Stores.rotate_same .right h
    exact h.splay_rest hrotate hreshaped (ih hreshaped.stores)

end Splaying

end SplayNodes

end BinTrace
