import BinTrace.Proofs.Splay.Searches

/-!
A stored tree is changed at its root: the root gets another entry, a new root is put above it, or it
is taken away and what was below is put together. Everything else stays where it is.
-/

namespace BinTrace

variable {α : Type}

open WeightTree SplayNodes

namespace SplayNodes

variable {ns ns' : SplayNodes α} {place : Nat → Nat} {side : Side}
  {near far left right : WeightTree α} {e e' new : WeightEntry α}

/-! ### Changes of a root -/

/-- A tree as seen from its left side. -/
theorem Stores.on_left (h : ns.Stores place (join left e right)) :
    ns.Stores place (joinOn .left left e right) := h

theorem perm_places_joinOn (side : Side) (near far : WeightTree α) (e : WeightEntry α) :
    (places place (joinOn side near e far).entries).Perm
      (place e.key :: places place (near.entries ++ far.entries)) :=
  places_perm (perm_joinOn ..)

theorem Stores.root_apart (h : ns.Stores place (joinOn side near e far)) :
    place e.key ∉ places place near.entries ∧ place e.key ∉ places place far.entries := by
  have hnodup := (perm_places_joinOn ..).nodup_iff.mp h.nodup
  have hroot := (List.nodup_cons.mp hnodup).1
  rwa [places_append, List.mem_append, not_or] at hroot

theorem Stores.nodup_parts (h : ns.Stores place (joinOn side near e far)) :
    (places place near.entries).Nodup ∧ (places place far.entries).Nodup ∧
      ∀ m ∈ places place near.entries, ∀ n ∈ places place far.entries, m ≠ n := by
  have hnodup := (perm_places_joinOn ..).nodup_iff.mp h.nodup
  rw [List.nodup_cons, places_append, List.nodup_append] at hnodup
  exact hnodup.2

/-- Another entry of the same key at the root. -/
theorem Stores.root_changed (side : Side) (h : ns.Stores place (joinOn side near e far))
    (hkey : e'.key = e.key)
    (hnode : ns'[place e.key]? = some (e'.node (e'.weight + near.totalWeight + far.totalWeight) none
      side (link place near) (link place far)))
    (hwithin : Within ns ns' [place e.key])
    (hmax : (joinOn side near e' far).totalWeight ≤ maxWeight) :
    ns'.Stores place (joinOn side near e' far) := by
  obtain ⟨-, hnear, hfar⟩ := holds_joinOn.mp h.holds
  obtain ⟨hnotNear, hnotFar⟩ := h.root_apart
  refine ⟨holds_joinOn.mpr ⟨hkey ▸ hnode, ?_, ?_⟩, ?_, hmax⟩
  · rw [hkey]
    refine hnear.congr (fun _ _ => rfl) fun n hn => hwithin.same n ?_
    rw [List.mem_singleton]
    rintro rfl
    exact hnotNear hn
  · rw [hkey]
    refine hfar.congr (fun _ _ => rfl) fun n hn => hwithin.same n ?_
    rw [List.mem_singleton]
    rintro rfl
    exact hnotFar hn
  · rw [(perm_places_joinOn ..).nodup_iff, hkey, ← (perm_places_joinOn ..).nodup_iff]
    exact h.nodup

/-- A change of the root that keeps its key and its links. -/
theorem Stores.reweigh (h : ns.Stores place (join left e right)) (e' : WeightEntry α)
    (hkey : e'.key = e.key)
    {f : SplayNode α → SplayNode α}
    (hf : ∀ total parent near far,
      f (e.node total parent .left near far) = e'.node total parent .left near far)
    (hmax : (join left e' right).totalWeight ≤ maxWeight) :
    ∃ ns₁ ns₂, ns.change (place e.key) f = some ns₁ ∧ ns₁.update (place e.key) = some ns₂ ∧
      ns₂.Stores place (join left e' right) ∧ ns₂.size = ns.size := by
  obtain ⟨hnode, hleft, hright⟩ := holds_join.mp h.holds
  obtain ⟨hnotLeft, hnotRight⟩ := h.on_left.root_apart
  have hchanged : (ns.modifyAt (some (place e.key)) f)[place e.key]? = some
      (e'.node (e.weight + left.totalWeight + right.totalWeight) none .left (link place left)
        (link place right)) := by
    simp [getElem?_modifyAt, hnode, hf]
  have htotal {t : WeightTree α} (ht : ns.Holds place (some (place e.key)) t)
      (hnot : place e.key ∉ places place t.entries) :
      (ns.modifyAt (some (place e.key)) f).total (link place t) = some t.totalWeight := by
    refine ht.total_of fun n hn => ?_
    have hne : n ≠ place e.key := fun h => hnot (h ▸ mem_of_link hn)
    rw [getElem?_modifyAt_of_ne hne]
  refine ⟨_, _, change_eq (lt_size hnode),
    update_node hchanged (htotal hleft hnotLeft) (htotal hright hnotRight) hmax, ?_, by simp⟩
  refine Stores.root_changed .left h hkey ?_ ⟨by simp, fun n hn => ?_⟩ hmax
  · simp [getElem?_modifyAt, hnode, hf]
  · rw [List.mem_singleton] at hn
    rw [getElem?_modifyAt_of_ne hn, getElem?_modifyAt_of_ne hn]

/-! ### A new root -/

/-- What is there after a part of a tree has gone over from its root to a new node above. -/
structure Divided (ns ns' : SplayNodes α) (r n : Nat) (e new : WeightEntry α) (side : Side)
    (part rest : Option Nat) (below : Nat) : Prop where
  size : ns'.size = ns.size
  root : ns'[r]? = some (e.node below (some n) side none rest)
  above : ns'[n]? = some (new.node new.weight none side part (some r))
  moved : ∀ m ∈ part, ns'[m]? = (·.withParent (some n)) <$> ns[m]?
  other : ∀ m, m ≠ r → m ≠ n → m ∉ part → ns'[m]? = ns[m]?

/-- The nodes after that, but for the weight of the new one. -/
def divided (ns : SplayNodes α) (r n : Nat) (side : Side) (part : Option Nat) (below : Nat) :
    SplayNodes α :=
  let ns := (ns.modifyAt (some r) (·.withChild side none)).modifyAt (some r) (·.withTotal below)
  let ns := (ns.modifyAt (some n) (·.withChild side part)).modifyAt part (·.withParent (some n))
  let ns := (ns.modifyAt (some n) (·.withChild side.other (some r))).modifyAt (some r)
    (·.withParent (some n))
  ns.modifyAt (some n) (·.withParent none)

theorem divided_of_splitRoot {r n total far : Nat} {part rest : Option Nat}
    (hroot : ns[r]? = some (e.node total none side part rest))
    (hnew : ns[n]? = some (new.node new.weight none side none none)) (hne : n ≠ r)
    (hpart : ∀ m ∈ part, m < ns.size ∧ m ≠ r ∧ m ≠ n) (hrest : rest ≠ some r)
    (hfar : ns.total rest = some far) (hmax : e.weight + 0 + far ≤ maxWeight) :
    ∃ ns', SplayTree.splitRoot ns r n side = ns'.update n ∧
      Divided ns ns' r n e new side part rest (e.weight + 0 + far) := by
  have hr := lt_size hroot
  have hn := lt_size hnew
  have hpr : part ≠ some r := fun h => (hpart r h).2.1 rfl
  have hpn : part ≠ some n := fun h => (hpart n h).2.2 rfl
  have hcut : (ns.modifyAt (some r) (·.withChild side none))[r]? =
      some (e.node total none side none rest) := by
    simp [getElem?_modifyAt, hroot]
  have hrestTotal : (ns.modifyAt (some r) (·.withChild side none)).total rest = some far := by
    rw [← hfar]
    apply total_eq
    rintro m rfl
    rw [getElem?_modifyAt_of_ne fun h => hrest (congrArg some h)]
  have hupdate := update_node hcut (show SplayNodes.total _ none = some 0 from rfl) hrestTotal hmax
  refine ⟨ns.divided r n side part (e.weight + 0 + far), ?_, ?_⟩
  · simp only [SplayTree.splitRoot, hroot, WeightEntry.near_node, change_eq hr, hupdate,
      Option.bind_eq_bind, Option.bind_some]
    rw [setChild_eq (by simpa using hn) (by simpa using fun m hm => (hpart m hm).1),
      Option.bind_some, setChild_eq (by simpa using hn) (by simpa using hr), Option.bind_some,
      change_eq (by simpa using hn), Option.bind_some]
    rfl
  · unfold divided
    constructor
    · simp
    · simp [getElem?_modifyAt, hroot, hne, hpr]
    · simp [getElem?_modifyAt, hnew, hne.symm, hpn]
    · rintro m rfl
      obtain ⟨-, hmr, hmn⟩ := hpart m rfl
      simp [getElem?_modifyAt, hmr.symm, hmn.symm]
    · intro m hmr hmn hm
      replace hm : part ≠ some m := hm
      simp [getElem?_modifyAt, hmr.symm, hmn.symm, hm]

theorem perm_split (side : Side) (near far : WeightTree α) (new e : WeightEntry α) :
    (joinOn side near new (joinOn side .leaf e far)).entries.Perm
      (new :: (joinOn side near e far).entries) := by
  refine (perm_joinOn ..).trans (.cons new ?_)
  calc (near.entries ++ (joinOn side .leaf e far).entries)
    List.Perm _ (near.entries ++ e :: far.entries) := (perm_joinOn ..).append_left _
    List.Perm _ (e :: (near.entries ++ far.entries)) := List.perm_middle
    List.Perm _ (joinOn side near e far).entries := (perm_joinOn ..).symm

/-- The old root stays below the new one, without the part that has gone over to it. -/
theorem Stores.splitRoot (h : ns.Stores place (joinOn side near e far)) (new : WeightEntry α)
    (hnew : ns[place new.key]? = some (new.node new.weight none side none none))
    (hfresh : place new.key ∉ places place (joinOn side near e far).entries)
    (hmax : new.weight + (joinOn side near e far).totalWeight ≤ maxWeight) :
    ∃ ns', SplayTree.splitRoot ns (place e.key) (place new.key) side = some ns' ∧
      ns'.Stores place (joinOn side near new (joinOn side .leaf e far)) ∧ ns'.size = ns.size := by
  obtain ⟨hroot, hnear, hfar⟩ := holds_joinOn.mp h.holds
  obtain ⟨hnotNear, hnotFar⟩ := h.root_apart
  rw [totalWeight_joinOn] at hmax
  have hapart := hfresh
  rw [(perm_places_joinOn ..).mem_iff, List.mem_cons, places_append, List.mem_append, not_or,
    not_or] at hapart
  obtain ⟨hne, hnewNear, hnewFar⟩ := hapart
  obtain ⟨ns₁, hsplit, hdivided⟩ := divided_of_splitRoot hroot hnew hne
    (fun m hm => ⟨hnear.lt_size m (mem_of_link hm), fun h => hnotNear (h ▸ mem_of_link hm),
      fun h => hnewNear (h ▸ mem_of_link hm)⟩)
    (fun h => hnotFar (mem_of_link h)) hfar.total_link (by omega)
  have hnearTotal : ns₁.total (link place near) = some near.totalWeight :=
    hnear.total_of fun m hm => by simp [hdivided.moved m hm, Function.comp_def]
  have hbelowTotal : ns₁.total (some (place e.key)) = some (e.weight + 0 + far.totalWeight) := by
    simp [total, hdivided.root]
  have hsame : ∀ m, m ≠ place new.key → (ns₁.modifyAt (some (place new.key)) (·.withTotal
      (new.weight + near.totalWeight + (e.weight + 0 + far.totalWeight))))[m]? = ns₁[m]? :=
    fun m hm => getElem?_modifyAt_of_ne hm
  obtain ⟨hnodupNear, hnodupFar, hdisjoint⟩ := h.nodup_parts
  refine ⟨_, hsplit.trans (update_node hdivided.above hnearTotal hbelowTotal (by omega)),
    ⟨holds_joinOn.mpr ⟨?_, ?_, holds_joinOn.mpr ⟨?_, trivial, ?_⟩⟩, ?_, ?_⟩, by simp [hdivided.size]⟩
  · simp [getElem?_modifyAt, hdivided.above]
  · refine hnear.adopt hnodupNear (fun m hm => ?_) fun m hm hroot => ?_
    · rw [hsame m fun h => hnewNear (h ▸ mem_of_link hm), hdivided.moved m hm]
    · have hmn : m ≠ place new.key := fun h => hnewNear (h ▸ hm)
      rw [hsame m hmn, hdivided.other m (fun h => hnotNear (h ▸ hm)) hmn hroot]
  · rw [hsame _ (Ne.symm hne), hdivided.root]
    rfl
  · refine hfar.congr (fun _ _ => rfl) fun m hm => ?_
    have hmn : m ≠ place new.key := fun h => hnewFar (h ▸ hm)
    rw [hsame m hmn]
    exact hdivided.other m (fun h => hnotFar (h ▸ hm)) hmn fun h =>
      hdisjoint m (mem_of_link h) m hm rfl
  · rw [(places_perm (perm_split ..)).nodup_iff]
    exact List.nodup_cons.mpr ⟨hfresh, h.nodup⟩
  · rw [totalWeight_joinOn, totalWeight_joinOn, totalWeight_leaf]
    omega

/-! ### Trees put together -/

/-- Without its root a tree falls into two. -/
theorem Stores.detach (h : ns.Stores place (join left e right)) :
    ∃ ns₁ ns₂, ns.changeAt (link place left) (·.withParent none) = some ns₁ ∧
      ns₁.changeAt (link place right) (·.withParent none) = some ns₂ ∧ ns₂.Stores place left ∧
      ns₂.Stores place right ∧ ns₂[place e.key]? = ns[place e.key]? ∧ ns₂.size = ns.size := by
  obtain ⟨-, hleft, hright⟩ := holds_join.mp h.holds
  obtain ⟨hnotLeft, hnotRight⟩ := h.on_left.root_apart
  obtain ⟨hnodupLeft, hnodupRight, hdisjoint⟩ := h.on_left.nodup_parts
  have hlight := h.light
  rw [← joinOn_left, totalWeight_joinOn] at hlight
  have hnotLink {t u : WeightTree α} (h : ∀ m ∈ places place t.entries,
      ∀ n ∈ places place u.entries, m ≠ n) : ∀ n ∈ places place t.entries, link place u ≠ some n :=
    fun n hn hlink => h n hn n (mem_of_link hlink) rfl
  have hleftRight := hnotLink hdisjoint
  have hrightLeft := hnotLink fun m hm n hn => (hdisjoint n hn m hm).symm
  refine ⟨_, _, changeAt_eq fun n hn => hleft.lt_size n (mem_of_link hn),
    changeAt_eq fun n hn => ?_, ⟨hleft.adopt hnodupLeft ?_ ?_, hnodupLeft, by omega⟩,
    ⟨hright.adopt hnodupRight ?_ ?_, hnodupRight, by omega⟩, ?_, by simp⟩
  · rw [size_modifyAt]
    exact hright.lt_size n (mem_of_link hn)
  · intro n hn
    simp [getElem?_modifyAt, Option.mem_def.mp hn, hleftRight n (mem_of_link hn)]
  · intro n hn hroot
    replace hroot : link place left ≠ some n := hroot
    simp [getElem?_modifyAt, hroot, hleftRight n hn]
  · intro n hn
    simp [getElem?_modifyAt, Option.mem_def.mp hn, hrightLeft n (mem_of_link hn)]
  · intro n hn hroot
    replace hroot : link place right ≠ some n := hroot
    simp [getElem?_modifyAt, hroot, hrightLeft n hn]
  · have hl : link place left ≠ some (place e.key) := fun h => hnotLeft (mem_of_link h)
    have hr : link place right ≠ some (place e.key) := fun h => hnotRight (mem_of_link h)
    simp [getElem?_modifyAt, hl, hr]

/-- A tree is put to the right of another one whose root is its last node. -/
theorem Stores.addRight (h : ns.Stores place (join left e .leaf)) (hright : ns.Stores place right)
    (hdisjoint : ∀ m ∈ places place (join left e .leaf).entries,
      ∀ n ∈ places place right.entries, m ≠ n)
    (hmax : (join left e right).totalWeight ≤ maxWeight) :
    ∃ ns₁ ns₂, ns.setChild (some (place e.key)) .right (link place right) = some ns₁ ∧
      ns₁.update (place e.key) = some ns₂ ∧ ns₂.Stores place (join left e right) ∧
      Within ns ns₂ (places place ((join left e .leaf).entries ++ right.entries)) := by
  obtain ⟨hnode, hleft, -⟩ := holds_join.mp h.holds
  obtain ⟨hnotLeft, -⟩ := h.on_left.root_apart
  have hentries : (join left e right).entries = (join left e .leaf).entries ++ right.entries := by
    simp [entries_join, entries]
  have hnodup : (places place (join left e right).entries).Nodup := by
    rw [hentries, places_append, List.nodup_append]
    exact ⟨h.nodup, hright.nodup, hdisjoint⟩
  have hlink : ∀ n ∈ places place (join left e .leaf).entries, link place right ≠ some n :=
    fun n hn hlink => hdisjoint n hn n (mem_of_link hlink) rfl
  have hmem : place e.key ∈ places place (join left e .leaf).entries := by simp [entries_join]
  have hlinkLeft : ∀ n ∈ places place left.entries, link place right ≠ some n := by
    intro n hn
    apply hlink
    rw [entries_join, places_append]
    exact List.mem_append_left _ hn
  have hset : ns.setChild (some (place e.key)) .right (link place right) = some _ :=
    setChild_eq (fun n hn => Option.some.inj hn ▸ lt_size hnode) fun n hn =>
      hright.holds.lt_size n (mem_of_link hn)
  generalize hns₁ :
    (ns.modifyAt (some (place e.key)) (·.withChild .right (link place right))).modifyAt
      (link place right) (·.withParent (some (place e.key))) = ns₁ at hset
  have hroot : ns₁[place e.key]? = some (e.node (e.weight + left.totalWeight) none .left
      (link place left) (link place right)) := by
    simp [← hns₁, getElem?_modifyAt, hnode, hlink _ hmem]
  have hmoved : ∀ n ∈ link place right,
      ns₁[n]? = (·.withParent (some (place e.key))) <$> ns[n]? := by
    intro n hn
    have hne : place e.key ≠ n := fun h => hlink _ hmem (h ▸ hn)
    simp [← hns₁, getElem?_modifyAt, Option.mem_def.mp hn, hne]
  have hother : ∀ n, n ≠ place e.key → n ∉ link place right → ns₁[n]? = ns[n]? := by
    intro n hne hn
    replace hn : link place right ≠ some n := hn
    simp [← hns₁, getElem?_modifyAt, hne.symm, hn]
  have hleftTotal : ns₁.total (link place left) = some left.totalWeight :=
    hleft.total_of fun n hn => by
      rw [hother n (fun h => hnotLeft (h ▸ mem_of_link hn)) (hlinkLeft n (mem_of_link hn))]
  have hrightTotal : ns₁.total (link place right) = some right.totalWeight :=
    hright.holds.total_of fun n hn => by simp [hmoved n hn, Function.comp_def]
  have hsame : ∀ n, n ≠ place e.key → (ns₁.modifyAt (some (place e.key))
      (·.withTotal (e.weight + left.totalWeight + right.totalWeight)))[n]? = ns₁[n]? :=
    fun n hn => getElem?_modifyAt_of_ne hn
  have hrightRoot : ∀ n ∈ places place right.entries, n ≠ place e.key := fun n hn h =>
    hdisjoint _ hmem n hn h.symm
  refine ⟨ns₁, _, hset, update_node hroot hleftTotal hrightTotal hmax,
    ⟨holds_join.mpr ⟨?_, ?_, ?_⟩, hnodup, hmax⟩, ?_, ?_⟩
  · simp [getElem?_modifyAt, hroot]
  · refine hleft.congr (fun _ _ => rfl) fun n hn => ?_
    have hne : n ≠ place e.key := fun h => hnotLeft (h ▸ hn)
    rw [hsame n hne, hother n hne (hlinkLeft n hn)]
  · refine hright.holds.adopt hright.nodup (fun n hn => ?_) fun n hn hnot => ?_
    · rw [hsame n (hrightRoot n (mem_of_link hn)), hmoved n hn]
    · rw [hsame n (hrightRoot n hn), hother n (hrightRoot n hn) hnot]
  · simp [← hns₁]
  · intro n hn
    rw [places_append, List.mem_append, not_or] at hn
    have hne : n ≠ place e.key := fun h => hn.1 (h ▸ hmem)
    rw [hsame n hne, hother n hne fun h => hn.2 (mem_of_link h)]

theorem plug_descendLast {t l : WeightTree α} {way way' : List (Step α)} (ht : t.Weighed)
    (h : descendLast t way = some (l, e, way')) : plug way' (join l e .leaf) = plug way t := by
  fun_induction descendLast t way with
  | case1 way => cases h
  | case2 way left e total =>
    cases h
    rw [ht.eq_join]
  | case3 way left e right total hne ih =>
    rw [ih ht.2.1 h, ht.eq_join]
    rfl

/-- On the way to the last node nothing lies to the right. -/
theorem entriesRight_descendLast {t l : WeightTree α} {way way' : List (Step α)}
    (h : descendLast t way = some (l, e, way')) : entriesRight way' = entriesRight way := by
  fun_induction descendLast t way with
  | case1 way => cases h
  | case2 way left e total =>
    cases h
    rfl
  | case3 way left e right total hne ih => exact ih h

theorem eq_leaf_of_entries {t : WeightTree α} (h : t.entries = []) : t = .leaf := by
  cases t with
  | leaf => rfl
  | node left e right total => simp [entries] at h

theorem Stores.joinRoots (hleft : ns.Stores place left) (hright : ns.Stores place right)
    (hweighed : left.Weighed)
    (hdisjoint : ∀ m ∈ places place left.entries, ∀ n ∈ places place right.entries, m ≠ n)
    (hmax : left.totalWeight + right.totalWeight ≤ maxWeight) :
    ∃ ns', SplayTree.joinRoots ns (link place left) (link place right) =
        some (link place (left.append right), ns') ∧ ns'.Stores place (left.append right) ∧
      Within ns ns' (places place (left.entries ++ right.entries)) := by
  rw [append]
  split
  · rename_i hlast
    rw [descendLast_eq_none.mp hlast]
    exact ⟨ns, rfl, hright, .refl _⟩
  · rename_i l e way hlast
    obtain ⟨hentries, hparts⟩ := descendLast_spec hlast
    obtain ⟨hl, hway⟩ := hparts hweighed (by simp)
    obtain ⟨n, hn, hout⟩ := hleft.holds.outermost_right hlast
    have hplug : plug way (join l e .leaf) = left := plug_descendLast hweighed hlast
    obtain ⟨ns₁, hsplay, hreshaped⟩ := Stores.splay (hplug.symm ▸ hleft)
    have hempty : (raise way l .leaf).2 = .leaf := by
      apply eq_leaf_of_entries
      rw [(entries_raise ..).2, entriesRight_descendLast hlast]
      rfl
    rw [hempty, hplug] at hreshaped
    have hrightKeeps := hright.congr (fun _ _ => rfl) fun n hn =>
      hreshaped.within.same n fun hl => hdisjoint n hl n hn rfl
    have hfirst := (weighed_raise (b := .leaf) hway hl trivial).1
    have htotal : (join (raise way l .leaf).1 e .leaf).totalWeight = left.totalWeight := by
      rw [(weighed_join (u := .leaf) hfirst trivial).totalWeight_eq, hreshaped.entries_eq,
        hweighed.totalWeight_eq]
    have hlight : (join (raise way l .leaf).1 e right).totalWeight ≤ maxWeight := by
      rw [← htotal] at hmax
      simpa [join, WeightTree.totalWeight] using hmax
    obtain ⟨ns₂, ns₃, hset, hupdate, hstores, hwithin⟩ := hreshaped.stores.addRight hrightKeeps
      (hreshaped.entries_eq ▸ hdisjoint) hlight
    refine ⟨ns₃, ?_, hstores, ?_⟩
    · simp only [SplayTree.joinRoots, Option.mem_def.mp hn, hout, hsplay, hset, hupdate,
        Option.bind_eq_bind, Option.bind_some]
      rfl
    · rw [hreshaped.entries_eq] at hwithin
      refine Within.trans (hreshaped.within.mono fun n hn => ?_) hwithin
      rw [places_append]
      exact List.mem_append_left _ hn

end SplayNodes

end BinTrace
