import BinTrace.Proofs.Splay.Roots

/-!
What every operation on a tree in an array makes of its entries. Those that look for a key bring the
node of the key to the root first, or the last node on the way to it, next to which the key would be.
-/

namespace BinTrace

variable {α : Type}

open WeightTree SplayNodes

namespace SplayTree

variable {s : SplayTree α} {ns' : SplayNodes α} {place : Nat → Nat} {t t' : WeightTree α}
  {es : List (WeightEntry α)} {e : WeightEntry α} {k : Nat}

/-- A tree is stored, and the free places are not its own. -/
structure Stores (s : SplayTree α) (place : Nat → Nat) (t : WeightTree α) : Prop where
  nodes : s.nodes.Stores place t
  weighed : t.Weighed
  root_eq : s.root = link place t
  size_eq : s.size = t.size
  free_nodup : s.free.Nodup
  free_apart : ∀ n ∈ s.free, n < s.nodes.size ∧ n ∉ places place t.entries

/-- Some entries are stored in their order. -/
def Shows (s : SplayTree α) (es : List (WeightEntry α)) : Prop :=
  ∃ place t, s.Stores place t ∧ t.entries = es

/-- A tree as seen from its left side. -/
theorem Stores.on_left {left right : WeightTree α} (h : s.Stores place (join left e right)) :
    s.Stores place (joinOn .left left e right) := h

/-- A tree as seen from its right side. -/
theorem Stores.on_right {left right : WeightTree α} (h : s.Stores place (join left e right)) :
    s.Stores place (joinOn .right right e left) := h

theorem Stores.reshaped (h : s.Stores place t) (hnodes : Reshaped s.nodes ns' place t t')
    (hweighed : t'.Weighed) :
    Stores { s with nodes := ns', root := link place t' } place t' := by
  refine ⟨hnodes.stores, hweighed, rfl, ?_, h.free_nodup, fun n hn => ?_⟩
  · show s.size = t'.size
    rw [h.size_eq, ← length_entries, ← length_entries, hnodes.entries_eq]
  · obtain ⟨hlt, hapart⟩ := h.free_apart n hn
    exact ⟨hnodes.within.size.symm ▸ hlt, hnodes.entries_eq.symm ▸ hapart⟩

theorem Stores.reweighed {left right : WeightTree α} {e' : WeightEntry α}
    (h : s.Stores place (join left e right)) (hnodes : ns'.Stores place (join left e' right))
    (hkey : e'.key = e.key) (hsize : ns'.size = s.nodes.size) :
    Stores { s with nodes := ns' } place (join left e' right) := by
  refine ⟨hnodes, weighed_join h.weighed.1 h.weighed.2.1, ?_, h.size_eq, h.free_nodup,
    fun n hn => ?_⟩
  · show s.root = some (place e'.key)
    rw [hkey]
    exact h.root_eq
  · obtain ⟨hlt, hapart⟩ := h.free_apart n hn
    refine ⟨hsize.symm ▸ hlt, ?_⟩
    rw [entries_join, places_append, places_cons, hkey]
    simpa [entries_join] using hapart

/-! ### Looking for a key -/

/-- What a search for a key leaves of a tree with some entries. -/
inductive Found (es : List (WeightEntry α)) (k : Nat) (s : SplayTree α) (n : Option Nat) : Prop
  | empty {place : Nat → Nat} (hn : n = none) (hstores : s.Stores place .leaf) (hes : es = [])
  /-- The key would be next to that of the root, whose part on that side is beyond the key. -/
  | missing {place : Nat → Nat} {near far : WeightTree α} {e : WeightEntry α} {side : Side}
      (hn : n = none) (hstores : s.Stores place (joinOn side near e far))
      (hside : side = if k < e.key then .left else .right)
      (hentries : (joinOn side near e far).entries = es) (hitem : item? k es = none)
      (hsplit : ∀ new, (joinOn side near new (joinOn side .leaf e far)).entries =
        lower k es ++ new :: upper k es)
  | present {place : Nat → Nat} {left right : WeightTree α} {e : WeightEntry α}
      (hn : n = some (place e.key)) (hstores : s.Stores place (join left e right))
      (hitem : item? k es = some e) (hleft : left.entries = lower k es)
      (hright : right.entries = upper k es)

/-- The last node of the way is brought to the root. -/
theorem Stores.find_at {a b : WeightTree α} {way : List (Step α)} {found : Option Nat}
    (h : s.Stores place t) (hplug : plug way (join a e b) = t)
    (hway : ∀ s ∈ way, s.tree.Weighed) (ha : a.Weighed) (hb : b.Weighed)
    (hdescend : s.nodes.descend k s.root none = some (found, some (place e.key))) :
    ∃ s', s.find k = some (found, s') ∧
      s'.Stores place (join (raise way a b).1 e (raise way a b).2) ∧
      (join (raise way a b).1 e (raise way a b).2).entries = t.entries := by
  obtain ⟨ns', hsplay, hreshaped⟩ := SplayNodes.Stores.splay (hplug.symm ▸ h.nodes)
  rw [hplug] at hreshaped
  obtain ⟨hleft, hright⟩ := weighed_raise hway ha hb
  refine ⟨_, ?_, h.reshaped hreshaped (weighed_join hleft hright), hreshaped.entries_eq⟩
  simp only [SplayTree.find, hdescend, hsplay, Option.bind_eq_bind, Option.bind_some]
  rfl

theorem Stores.find (h : s.Stores place t) (hinc : Increasing t.entries) (k : Nat) :
    ∃ n s', s.find k = some (n, s') ∧ Found t.entries k s' n := by
  have hdescend := h.nodes.holds.descend k []
  have hplug := plug_descend h.weighed k []
  have hnil : ∀ s ∈ ([] : List (Step α)), s.tree.Weighed := by simp
  obtain ⟨hweighed, -⟩ := weighed_descend (k := k) hnil h.weighed
  rw [← h.root_eq, linkUp_nil] at hdescend
  cases Valid.descends ⟨h.weighed, hinc⟩ k with
  | @absent way heq hway hcut hentries =>
    have hitem : item? k t.entries = none := hentries ▸ hcut.item?_eq
    have hlower : lower k t.entries = entriesLeft way := hentries ▸ hcut.lower_eq
    have hupper : upper k t.entries = entriesRight way := hentries ▸ hcut.upper_eq
    rw [heq] at hdescend hplug
    rcases way with _ | ⟨⟨e, u⟩ | ⟨u, e⟩, way⟩
    · obtain rfl : t = .leaf := hplug.symm
      refine ⟨none, s, ?_, .empty rfl h rfl⟩
      simp [SplayTree.find, hdescend]
    · obtain ⟨hu, hway⟩ := List.forall_mem_cons.mp hway
      obtain ⟨s', hfind, hstores, hkeep⟩ := h.find_at (e := e) (a := .leaf) (b := u) hplug hway trivial hu
        hdescend
      obtain ⟨hl, hr⟩ := entries_raise way .leaf u
      have hlt : k < e.key := hcut.gt e List.mem_cons_self
      refine ⟨none, s', hfind,
        .missing rfl hstores.on_left (if_pos hlt).symm hkeep hitem fun new => ?_⟩
      rw [hlower, hupper]
      simp [joinOn, entries_join, hl, hr, entriesLeft, entriesRight]
    · obtain ⟨hu, hway⟩ := List.forall_mem_cons.mp hway
      obtain ⟨s', hfind, hstores, hkeep⟩ := h.find_at (e := e) (a := u) (b := .leaf) hplug hway hu trivial
        hdescend
      obtain ⟨hl, hr⟩ := entries_raise way u .leaf
      have hgt : e.key < k := hcut.lt e (by simp [entriesLeft])
      refine ⟨none, s', hfind,
        .missing rfl hstores.on_right (if_neg (Nat.lt_asymm hgt)).symm hkeep hitem fun new => ?_⟩
      rw [hlower, hupper]
      simp [joinOn, entries_join, hl, hr, entriesLeft, entriesRight]
  | @present left right e total way heq hleft hright hway hcut hentries =>
    rw [heq] at hdescend hplug hweighed
    replace hplug : plug way (join left e right) = t := hweighed.eq_join ▸ hplug
    obtain ⟨s', hfind, hstores, -⟩ := h.find_at hplug hway hleft hright hdescend
    obtain ⟨hl, hr⟩ := entries_raise way left right
    refine ⟨some (place e.key), s', hfind, .present rfl hstores ?_ ?_ ?_⟩
    · rw [hentries, hcut.item?_eq]
    · rw [hl, hentries, hcut.lower_eq]
    · rw [hr, hentries, hcut.upper_eq]

/-- A search moves nodes but keeps the entries; a key that is there is brought to the root. -/
theorem Shows.find (h : s.Shows es) (hinc : Increasing es) (k : Nat) :
    ∃ n s₁, s.find k = some (n, s₁) ∧ (n = none ∧ item? k es = none ∧ s₁.Shows es ∨
      ∃ place left right e, n = some (place e.key) ∧ k = e.key ∧
        s₁.Stores place (join left e right) ∧ es = left.entries ++ e :: right.entries) := by
  obtain ⟨place, t, hstores, rfl⟩ := h
  obtain ⟨n, s₁, hfind, hfound⟩ := hstores.find hinc k
  refine ⟨n, s₁, hfind, ?_⟩
  cases hfound with
  | empty hn hstores₁ hes => exact .inl ⟨hn, hes ▸ rfl, _, _, hstores₁, hes.symm⟩
  | missing hn hstores₁ hside hentries hitem hsplit =>
    exact .inl ⟨hn, hitem, _, _, hstores₁, hentries⟩
  | @present place left right e hn hstores₁ hitem hleft hright =>
    have hkey : e.key = k := by simpa using List.find?_some hitem
    refine .inr ⟨place, left, right, e, hn, hkey.symm, hstores₁, ?_⟩
    rw [hinc.eq_append k, hitem, hleft, hright, Option.toList_some, List.append_assoc]
    rfl

/-! ### Insertions -/

/-- A new node gets a place of its own. -/
theorem Stores.allocate (h : s.Stores place t) (hk : ∀ e ∈ t.entries, e.key ≠ k)
    (node : SplayNode α) :
    ∃ place' s', s.allocate node = some (place' k, s') ∧ s'.Stores place' t ∧
      s'.nodes[place' k]? = some node ∧ place' k ∉ places place' t.entries ∧
      place' k ∉ s'.free := by
  have hplace (n : Nat) : ∀ e ∈ t.entries, Function.update place k n e.key = place e.key :=
    fun e he => Function.update_of_ne (hk e he) ..
  obtain ⟨hnodes, hweighed, hroot, hsize, hnodup, hfree⟩ := h
  unfold SplayTree.allocate
  cases heq : s.free with
  | nil =>
    have hlt := hnodes.holds.lt_size
    refine ⟨Function.update place k s.nodes.size, { s with nodes := s.nodes.push node, free := [] },
      ?_, ⟨hnodes.congr (hplace _) fun n hn => ?_, hweighed, ?_, hsize, List.nodup_nil, by simp⟩,
      ?_, ?_, by simp⟩
    · simp
    · simp [Array.getElem?_push, Nat.ne_of_lt (hlt n hn)]
    · rw [link_congr (hplace _)]
      exact hroot
    · simp
    · rw [Function.update_self, places_congr (hplace _)]
      exact fun hn => Nat.lt_irrefl _ (hlt _ hn)
  | cons n rest =>
    rw [heq] at hnodup hfree
    obtain ⟨⟨hlt, hapart⟩, hrest⟩ := List.forall_mem_cons.mp hfree
    obtain ⟨hn, hnodup⟩ := List.nodup_cons.mp hnodup
    refine ⟨Function.update place k n,
      { s with nodes := s.nodes.modifyAt (some n) fun _ => node, free := rest }, ?_,
      ⟨hnodes.congr (hplace _) fun m hm => ?_, hweighed, ?_, hsize, hnodup, fun m hm => ?_⟩,
      ?_, ?_, ?_⟩
    · simp [change_eq hlt]
    · have hne : n ≠ m := fun h => hapart (h ▸ hm)
      simp [getElem?_modifyAt, hne]
    · rw [link_congr (hplace _)]
      exact hroot
    · rw [places_congr (hplace _), size_modifyAt]
      exact hrest m hm
    · show (s.nodes.modifyAt (some n) fun _ => node)[Function.update place k n k]? = some node
      rw [Function.update_self, getElem?_modifyAt, if_pos rfl, Array.getElem?_eq_getElem hlt]
      rfl
    · rwa [Function.update_self, places_congr (hplace _)]
    · rwa [Function.update_self]

theorem ne_of_item? (h : item? k es = none) : ∀ e ∈ es, e.key ≠ k := fun e he heq =>
  List.find?_eq_none.mp h e he (decide_eq_true heq)

section Insert

variable {s₁ : SplayTree α} {near far left right : WeightTree α} {side : Side} {value : α}
  {weight : Nat}

/-- The first key. -/
theorem insert_of_empty (hfind : s.find k = some (none, s₁)) (h : s₁.Stores place .leaf)
    (hmax : weight ≤ maxWeight) :
    ∃ s', s.insert k value weight = some s' ∧ s'.Shows [⟨k, value, weight⟩] := by
  obtain ⟨place', s₂, hallocate, h₂, hnode, -, hfree⟩ := h.allocate (k := k) (by simp)
    { key := k, value, weight, total := weight }
  have hroot := h₂.root_eq
  refine ⟨{ s₂ with size := s₂.size + 1, root := some (place' k) }, ?_, place',
    join .leaf ⟨k, value, weight⟩ .leaf, ⟨⟨⟨hnode, trivial, trivial⟩, List.nodup_singleton _, hmax⟩,
    weighed_join trivial trivial, rfl, ?_, h₂.free_nodup, fun m hm => ⟨(h₂.free_apart m hm).1, ?_⟩⟩,
    rfl⟩
  · simp [SplayTree.insert, hfind, hallocate, hroot]
  · show s₂.size + 1 = 1
    rw [h₂.size_eq]
    rfl
  · show m ∉ [place' k]
    rw [List.mem_singleton]
    exact fun h => hfree (h ▸ hm)

/-- A key that is not there yet. -/
theorem insert_of_missing (hfind : s.find k = some (none, s₁))
    (h : s₁.Stores place (joinOn side near e far))
    (hside : side = if k < e.key then .left else .right)
    (hk : ∀ f ∈ (joinOn side near e far).entries, f.key ≠ k)
    (hmax : weight + (joinOn side near e far).totalWeight ≤ maxWeight) :
    ∃ s', s.insert k value weight = some s' ∧
      s'.Shows (joinOn side near ⟨k, value, weight⟩ (joinOn side .leaf e far)).entries := by
  obtain ⟨place', s₂, hallocate, h₂, hnode, hfresh, hfree⟩ := h.allocate hk
    { key := k, value, weight, total := weight }
  have hnew : s₂.nodes[place' k]? =
      some (WeightEntry.node ⟨k, value, weight⟩ weight none side none none) := by
    rw [hnode, WeightEntry.node_none]
  obtain ⟨ns', hsplit, hnodes, hsize⟩ :=
    h₂.nodes.splitRoot ⟨k, value, weight⟩ hnew hfresh hmax
  have hroot := h₂.root_eq
  rw [link_joinOn] at hroot
  have holdRoot := (holds_joinOn.mp h₂.nodes.holds).1
  refine ⟨{ s₂ with nodes := ns', size := s₂.size + 1, root := some (place' k) }, ?_, place', _,
    ⟨hnodes, ?_, ?_, ?_, h₂.free_nodup, fun m hm => ⟨?_, ?_⟩⟩, rfl⟩
  · simp [SplayTree.insert, hfind, hallocate, hroot, holdRoot, ← hside, hsplit]
  · obtain ⟨hnear, hfar⟩ := weighed_joinOn.mp h.weighed
    exact weighed_joinOn.mpr ⟨hnear, weighed_joinOn.mpr ⟨trivial, hfar⟩⟩
  · rw [link_joinOn]
  · show s₂.size + 1 = _
    rw [h₂.size_eq, ← length_entries, ← length_entries, (perm_split ..).length_eq, List.length_cons]
  · show m < ns'.size
    rw [hsize]
    exact (h₂.free_apart m hm).1
  · rw [(places_perm (perm_split ..)).mem_iff, places_cons, List.mem_cons, not_or]
    exact ⟨fun h => hfree (h ▸ hm), (h₂.free_apart m hm).2⟩

/-- A key that is there already. -/
theorem insert_of_present (hfind : s.find e.key = some (some (place e.key), s₁))
    (h : s₁.Stores place (join left e right))
    (hmax : (join left ⟨e.key, value, e.weight + weight⟩ right).totalWeight ≤ maxWeight) :
    ∃ s', s.insert e.key value weight = some s' ∧
      s'.Shows (join left ⟨e.key, value, e.weight + weight⟩ right).entries := by
  obtain ⟨ns₁, ns₂, hchange, hupdate, hnodes, hsize⟩ := h.nodes.reweigh
    ⟨e.key, value, e.weight + weight⟩
    (f := fun node => { node with weight := e.weight + weight, value }) rfl (fun _ _ _ _ => rfl) hmax
  obtain ⟨hroot, -⟩ := h.nodes.holds
  have hsum : addWeights e.weight weight = some (e.weight + weight) := by
    refine if_pos (Nat.le_trans ?_ hmax)
    rw [← joinOn_left, totalWeight_joinOn, Nat.add_assoc]
    exact Nat.le_add_right ..
  refine ⟨{ s₁ with nodes := ns₂ }, ?_, place, _, h.reweighed hnodes rfl hsize, rfl⟩
  simp [SplayTree.insert, hfind, hroot, hsum, hchange, hupdate]

end Insert

theorem weightOf_perm {fs : List (WeightEntry α)} (h : es.Perm fs) : weightOf es = weightOf fs :=
  (h.map _).sum_nat

theorem Shows.insert (h : s.Shows es) (hinc : Increasing es) (k : Nat) (value : α) (weight : Nat)
    (hmax : weightOf (lower k es ++
      ⟨k, value, ((item? k es).map WeightEntry.weight).getD 0 + weight⟩ :: upper k es) ≤ maxWeight) :
    ∃ s', s.insert k value weight = some s' ∧ s'.Shows (lower k es ++
      ⟨k, value, ((item? k es).map WeightEntry.weight).getD 0 + weight⟩ :: upper k es) := by
  obtain ⟨place, t, hstores, rfl⟩ := h
  obtain ⟨n, s₁, hfind, hfound⟩ := hstores.find hinc k
  cases hfound with
  | empty hn hstores₁ hes =>
    subst hn
    rw [hes] at hmax ⊢
    simpa [lower, upper, item?] using
      insert_of_empty hfind hstores₁ (by simpa [lower, upper, item?] using hmax)
  | @missing place near far e side hn hstores₁ hside hentries hitem hsplit =>
    subst hn
    rw [hitem, Option.map_none, Option.getD_none, Nat.zero_add] at hmax ⊢
    rw [← hsplit] at hmax ⊢
    refine insert_of_missing hfind hstores₁ hside (hentries ▸ ne_of_item? hitem) ?_
    rwa [weightOf_perm (perm_split ..), weightOf_cons, ← hstores₁.weighed.totalWeight_eq] at hmax
  | @present place left right e hn hstores₁ hitem hleft hright =>
    subst hn
    have hkey : e.key = k := by simpa using List.find?_some hitem
    subst hkey
    rw [hitem, Option.map_some, Option.getD_some, ← hleft, ← hright, ← entries_join] at hmax ⊢
    refine insert_of_present hfind hstores₁ ?_
    rwa [Weighed.totalWeight_eq (weighed_join hstores₁.weighed.1 hstores₁.weighed.2.1)]

/-! ### Other changes -/

/-- A key that is there is taken out, and its place is free. -/
theorem remove_of_present {s₁ : SplayTree α} {left right : WeightTree α}
    (hfind : s.find e.key = some (some (place e.key), s₁))
    (h : s₁.Stores place (join left e right)) :
    ∃ s', s.remove e.key = some (some (e.weight, e.value), s') ∧
      s'.Shows (left.entries ++ right.entries) := by
  obtain ⟨hroot, -⟩ := h.nodes.holds
  obtain ⟨ns₁, ns₂, hdetachLeft, hdetachRight, hl, hr, hkeep, hsize⟩ := h.nodes.detach
  obtain ⟨-, -, hdisjoint⟩ := h.nodes.on_left.nodup_parts
  obtain ⟨hnotLeft, hnotRight⟩ := h.nodes.on_left.root_apart
  have hlight := h.nodes.light
  rw [← joinOn_left, totalWeight_joinOn] at hlight
  obtain ⟨hentries, hweighed⟩ := append_spec h.weighed.1 h.weighed.2.1
  obtain ⟨ns₃, hjoin, hnodes, hwithin⟩ :=
    hl.joinRoots hr h.weighed.1 hdisjoint (by omega)
  have hapart : place e.key ∉ places place (left.entries ++ right.entries) := by
    rw [places_append, List.mem_append, not_or]
    exact ⟨hnotLeft, hnotRight⟩
  have hlast := hwithin.same _ hapart
  rw [hkeep, hroot] at hlast
  refine ⟨⟨ns₃, place e.key :: s₁.free, link place (left.append right), s₁.size - 1⟩, ?_, place, _,
    ⟨hnodes, hweighed, rfl, ?_, ?_, fun m hm => ?_⟩, hentries⟩
  · simp [SplayTree.remove, hfind, hroot, hdetachLeft, hdetachRight, hjoin, hlast]
  · show s₁.size - 1 = _
    rw [h.size_eq, ← length_entries, ← length_entries, hentries, entries_join]
    simp
  · refine List.nodup_cons.mpr ⟨fun hm => ?_, h.free_nodup⟩
    exact (h.free_apart _ hm).2 (by simp [entries_join])
  · show m < ns₃.size ∧ _
    rw [hwithin.size, hsize, hentries]
    rcases List.mem_cons.mp hm with rfl | hm
    · exact ⟨lt_size hroot, hapart⟩
    · obtain ⟨hlt, hnot⟩ := h.free_apart m hm
      refine ⟨hlt, fun hmem => hnot ?_⟩
      rw [entries_join, (places_perm List.perm_middle).mem_iff]
      exact List.mem_cons_of_mem _ hmem

theorem Shows.remove (h : s.Shows es) (hinc : Increasing es) (k : Nat) :
    ∃ s', s.remove k = some ((item? k es).map fun e => (e.weight, e.value), s') ∧
      s'.Shows (lower k es ++ upper k es) := by
  obtain ⟨n, s₁, hfind, ⟨rfl, hitem, hshows⟩ | ⟨place, left, right, e, rfl, rfl, hstores, rfl⟩⟩ :=
    h.find hinc k
  · have hkeep := hinc.eq_append k
    rw [hitem, Option.toList_none, List.append_nil] at hkeep
    refine ⟨s₁, ?_, hkeep ▸ hshows⟩
    simp [SplayTree.remove, hfind, hitem]
  · obtain ⟨hlower, hitem, hupper⟩ := hinc.at_entry
    rw [hlower, hitem, hupper]
    exact remove_of_present hfind hstores

/-- A change of a weight that stops at the greatest one. -/
theorem Shows.adjust (h : s.Shows es) (hinc : Increasing es) (k : Nat) (delta : Int) {o}
    (ho : o = (item? k es).map fun e =>
      { e with weight := min maxWeight (e.weight + delta).toNat })
    (hmax : weightOf (lower k es ++ o.toList ++ upper k es) ≤ maxWeight) :
    ∃ s', s.adjust k delta = some (o.map WeightEntry.weight, s') ∧
      s'.Shows (lower k es ++ o.toList ++ upper k es) := by
  obtain ⟨n, s₁, hfind, ⟨rfl, hitem, hshows⟩ | ⟨place, left, right, e, rfl, rfl, hstores, rfl⟩⟩ :=
    h.find hinc k
  · rw [hitem] at ho
    subst ho
    have hkeep := hinc.eq_append k
    rw [hitem] at hkeep
    refine ⟨s₁, ?_, hkeep ▸ hshows⟩
    simp [SplayTree.adjust, hfind]
  · obtain ⟨hlower, hitem, hupper⟩ := hinc.at_entry
    rw [hitem] at ho
    subst ho
    rw [hlower, hupper] at hmax ⊢
    have hentries (f : WeightEntry α) :
        left.entries ++ (some f).toList ++ right.entries = (join left f right).entries := by
      simp [entries_join]
    rw [Option.map_some, hentries] at hmax ⊢
    have hweighed := weighed_join (e := { e with weight := min maxWeight (e.weight + delta).toNat })
      hstores.weighed.1 hstores.weighed.2.1
    rw [← hweighed.totalWeight_eq] at hmax
    obtain ⟨ns₁, ns₂, hchange, hupdate, hnodes, hsize⟩ := hstores.nodes.reweigh
      { e with weight := min maxWeight (e.weight + delta).toNat }
      (f := fun node => { node with weight := min maxWeight (e.weight + delta).toNat }) rfl
      (fun _ _ _ _ => rfl) hmax
    obtain ⟨hroot, -⟩ := hstores.nodes.holds
    refine ⟨{ s₁ with nodes := ns₂ }, ?_, place, _, hstores.reweighed hnodes rfl hsize, rfl⟩
    simp [SplayTree.adjust, hfind, hroot, hchange, hupdate]

theorem Shows.weight? (h : s.Shows es) (hinc : Increasing es) (k : Nat) :
    ∃ s', s.weight? k = some ((item? k es).map WeightEntry.weight, s') ∧ s'.Shows es := by
  obtain ⟨n, s₁, hfind, ⟨rfl, hitem, hshows⟩ | ⟨place, left, right, e, rfl, rfl, hstores, rfl⟩⟩ :=
    h.find hinc k
  · refine ⟨s₁, ?_, hshows⟩
    simp [SplayTree.weight?, hfind, hitem]
  · obtain ⟨-, hitem, -⟩ := hinc.at_entry
    obtain ⟨hroot, -⟩ := hstores.nodes.holds
    refine ⟨s₁, ?_, _, _, hstores, rfl⟩
    simp [SplayTree.weight?, hfind, hroot, hitem]

theorem Shows.weightAbove (h : s.Shows es) (hinc : Increasing es) (k : Nat) :
    ∃ s', s.weightAbove k = some (weightOf (upper k es), s') ∧ s'.Shows es := by
  obtain ⟨n, s₁, hfind, ⟨rfl, hitem, hshows⟩ | ⟨place, left, right, e, rfl, rfl, hstores, rfl⟩⟩ :=
    h.find hinc k
  · obtain ⟨place, t, hstores, rfl⟩ := hshows
    refine ⟨s₁, ?_, _, _, hstores, rfl⟩
    have hsum := hstores.nodes.holds.sumAbove (k := k) ⟨hstores.weighed, hinc⟩ 0
      (by simpa using hstores.nodes.light)
    simp [SplayTree.weightAbove, hfind, hstores.root_eq, hsum]
  · obtain ⟨-, -, hupper⟩ := hinc.at_entry
    obtain ⟨hroot, -, hright⟩ := hstores.nodes.holds
    refine ⟨s₁, ?_, _, _, hstores, rfl⟩
    simp [SplayTree.weightAbove, hfind, hroot, hright.total_link, hupper,
      hstores.weighed.2.1.totalWeight_eq]

/-! ### Searches that move nothing -/

theorem Shows.ceiling? (h : s.Shows es) (hinc : Increasing es) (k : Nat) :
    s.ceiling? k = some ((es.find? fun e => k ≤ e.key).map WeightEntry.key) := by
  obtain ⟨place, t, hstores, rfl⟩ := h
  rw [SplayTree.ceiling?, hstores.root_eq, hstores.nodes.holds.ceiling, Option.or_none,
    WeightTree.ceiling?_eq hinc]

theorem Shows.predecessor? (h : s.Shows es) (hinc : Increasing es) (k : Nat) :
    s.predecessor? k = some ((lower k es).getLast?.map WeightEntry.key) := by
  obtain ⟨place, t, hstores, rfl⟩ := h
  rw [SplayTree.predecessor?, hstores.root_eq, hstores.nodes.holds.predecessor, Option.or_none,
    WeightTree.predecessor?_eq hinc]

theorem Shows.successor? (h : s.Shows es) (hinc : Increasing es) (k : Nat) :
    s.successor? k = some ((upper k es).head?.map WeightEntry.key) := by
  obtain ⟨place, t, hstores, rfl⟩ := h
  rw [SplayTree.successor?, hstores.root_eq, hstores.nodes.holds.successor, Option.or_none,
    WeightTree.successor?_eq hinc]

theorem Shows.minKey? (h : s.Shows es) : s.minKey? = some (es.head?.map WeightEntry.key) := by
  obtain ⟨place, t, hstores, rfl⟩ := h
  rw [SplayTree.minKey?, hstores.root_eq]
  cases t with
  | leaf => rfl
  | node left e right total =>
    obtain ⟨n, first, hout, hfirst, hhead⟩ := hstores.nodes.holds.outermost_left
    simp [hout, hfirst, hhead]

theorem Shows.entries (h : s.Shows es) : s.entries = some es := by
  obtain ⟨place, t, hstores, rfl⟩ := h
  simp [SplayTree.entries, hstores.root_eq, hstores.nodes.holds.walk, walk_nil]

theorem Shows.size (h : s.Shows es) : s.size = es.length := by
  obtain ⟨place, t, hstores, rfl⟩ := h
  rw [hstores.size_eq, length_entries]

theorem Shows.totalWeight (h : s.Shows es) : s.totalWeight = some (weightOf es) := by
  obtain ⟨place, t, hstores, rfl⟩ := h
  rw [SplayTree.totalWeight, hstores.root_eq, hstores.nodes.holds.total_link,
    hstores.weighed.totalWeight_eq]

theorem shows_empty : Shows ({} : SplayTree α) [] :=
  ⟨id, .leaf, ⟨⟨trivial, .nil, Nat.zero_le _⟩, trivial, rfl, rfl, .nil, by simp⟩, rfl⟩

end SplayTree

end BinTrace
