import BinTrace.Reuse.WeightTree
import Mathlib

/-!
A search tree with weights is a map from keys to values and weights. Every operation is described
by what it makes of the entries in the order of their keys: a key cuts them into those below it,
the one that has it, and those above it.
-/

namespace BinTrace.WeightTree

variable {α : Type}

/-! ### Entries in the order of their keys -/

section Entries

def weightOf (es : List (WeightEntry α)) : Nat := (es.map WeightEntry.weight).sum

def Increasing (es : List (WeightEntry α)) : Prop := es.Pairwise fun e f => e.key < f.key

def lower (k : Nat) (es : List (WeightEntry α)) : List (WeightEntry α) :=
  es.filter fun e => e.key < k

def item? (k : Nat) (es : List (WeightEntry α)) : Option (WeightEntry α) :=
  es.find? fun e => e.key = k

def upper (k : Nat) (es : List (WeightEntry α)) : List (WeightEntry α) :=
  es.filter fun e => k < e.key

/-- Entries below a key, with that key, and above it. -/
structure Cut (k : Nat) (left : List (WeightEntry α)) (found : Option (WeightEntry α))
    (right : List (WeightEntry α)) : Prop where
  lt : ∀ e ∈ left, e.key < k
  key_eq : ∀ e ∈ found, e.key = k
  gt : ∀ e ∈ right, k < e.key

variable {es left right : List (WeightEntry α)} {found : Option (WeightEntry α)}
  {e f : WeightEntry α} {k : Nat}

@[simp] theorem weightOf_nil : weightOf ([] : List (WeightEntry α)) = 0 := rfl

@[simp] theorem weightOf_cons : weightOf (e :: es) = e.weight + weightOf es := by simp [weightOf]

@[simp] theorem weightOf_append : weightOf (left ++ right) = weightOf left + weightOf right := by
  simp [weightOf]

theorem lower_eq_self (h : ∀ e ∈ es, e.key < k) : lower k es = es :=
  List.filter_eq_self.mpr fun e he => decide_eq_true (h e he)

theorem lower_eq_nil (h : ∀ e ∈ es, k ≤ e.key) : lower k es = [] :=
  List.filter_eq_nil_iff.mpr fun e he => by simpa using h e he

theorem upper_eq_self (h : ∀ e ∈ es, k < e.key) : upper k es = es :=
  List.filter_eq_self.mpr fun e he => decide_eq_true (h e he)

theorem upper_eq_nil (h : ∀ e ∈ es, e.key ≤ k) : upper k es = [] :=
  List.filter_eq_nil_iff.mpr fun e he => by simpa using h e he

theorem upper_append : upper k (left ++ right) = upper k left ++ upper k right :=
  List.filter_append ..

theorem upper_cons_of_lt (h : k < e.key) : upper k (e :: es) = e :: upper k es :=
  List.filter_cons_of_pos (by simpa using h)

theorem upper_cons_of_le (h : e.key ≤ k) : upper k (e :: es) = upper k es :=
  List.filter_cons_of_neg (by simpa using h)

theorem weightOf_upper_cons : weightOf (upper k (e :: es)) =
    (if k < e.key then e.weight else 0) + weightOf (upper k es) := by
  split
  · rename_i hk
    rw [upper_cons_of_lt hk, weightOf_cons]
  · rename_i hk
    rw [upper_cons_of_le (Nat.le_of_not_lt hk), Nat.zero_add]

theorem weightOf_upper_append :
    weightOf (upper k (left ++ right)) = weightOf (upper k left) + weightOf (upper k right) := by
  rw [upper_append, weightOf_append]

theorem Cut.lower_eq (h : Cut k left found right) :
    lower k (left ++ found.toList ++ right) = left := by
  have hfound : ∀ e ∈ found.toList, k ≤ e.key := fun e he => by
    have heq := h.key_eq e (Option.mem_toList.mp he)
    omega
  have hright : ∀ e ∈ right, k ≤ e.key := fun e he => Nat.le_of_lt (h.gt e he)
  calc lower k (left ++ found.toList ++ right)
      = lower k left ++ lower k found.toList ++ lower k right := by
        simp only [lower, List.filter_append]
    _ = left := by
        rw [lower_eq_self h.lt, lower_eq_nil hfound, lower_eq_nil hright]
        simp

theorem Cut.upper_eq (h : Cut k left found right) :
    upper k (left ++ found.toList ++ right) = right := by
  have hleft : ∀ e ∈ left, e.key ≤ k := fun e he => Nat.le_of_lt (h.lt e he)
  have hfound : ∀ e ∈ found.toList, e.key ≤ k := fun e he => by
    have heq := h.key_eq e (Option.mem_toList.mp he)
    omega
  rw [upper_append, upper_append, upper_eq_nil hleft, upper_eq_nil hfound, upper_eq_self h.gt]
  simp

theorem Cut.item?_eq (h : Cut k left found right) :
    item? k (left ++ found.toList ++ right) = found := by
  have hleft : left.find? (fun e => decide (e.key = k)) = none :=
    List.find?_eq_none.mpr fun e he => by
      have hlt := h.lt e he
      simp
      omega
  have hright : right.find? (fun e => decide (e.key = k)) = none :=
    List.find?_eq_none.mpr fun e he => by
      have hgt := h.gt e he
      simp
      omega
  unfold item?
  cases found with
  | none => simp [hleft, hright]
  | some e => simp [hleft, h.key_eq e rfl]

theorem cut_entries (es : List (WeightEntry α)) (k : Nat) :
    Cut k (lower k es) (item? k es) (upper k es) where
  lt e he := by simpa using (List.mem_filter.mp he).2
  key_eq e he := by simpa using List.find?_some he
  gt e he := by simpa using (List.mem_filter.mp he).2

/-- A key cuts every list of entries in the order of their keys. -/
theorem Increasing.eq_append (h : Increasing es) (k : Nat) :
    es = lower k es ++ (item? k es).toList ++ upper k es := by
  induction es with
  | nil => rfl
  | cons e rest ih =>
      obtain ⟨hlt, hrest⟩ := List.pairwise_cons.mp h
      have hgt : k ≤ e.key → ∀ f ∈ rest, k < f.key := fun hk f hf =>
        Nat.lt_of_le_of_lt hk (hlt f hf)
      have hcut : ∀ found, (∀ f ∈ found, f.key = k) → k ≤ e.key → Cut k [] found rest :=
        fun found hkey hk => ⟨by simp, hkey, hgt hk⟩
      rcases Nat.lt_trichotomy e.key k with hk | hk | hk
      · have hlower : lower k (e :: rest) = e :: lower k rest :=
          List.filter_cons_of_pos (by simpa using hk)
        have hitem : item? k (e :: rest) = item? k rest :=
          List.find?_cons_of_neg (by simpa using Nat.ne_of_lt hk)
        rw [hlower, hitem, upper_cons_of_le (Nat.le_of_lt hk), List.cons_append, List.cons_append,
          ← ih hrest]
      · have hcut := hcut (some e) (by simpa using hk) (Nat.le_of_eq hk.symm)
        have heq : e :: rest = [] ++ (some e).toList ++ rest := rfl
        rw [heq, hcut.lower_eq, hcut.upper_eq, hcut.item?_eq]
      · have hcut : Cut k [] none (e :: rest) :=
          ⟨by simp, by simp, List.forall_mem_cons.mpr ⟨hk, hgt (Nat.le_of_lt hk)⟩⟩
        have heq : e :: rest = [] ++ (none : Option (WeightEntry α)).toList ++ e :: rest := rfl
        rw [heq, hcut.lower_eq, hcut.upper_eq, hcut.item?_eq]

theorem increasing_append_cons : Increasing (left ++ e :: right) ↔
    Increasing left ∧ Increasing right ∧ (∀ f ∈ left, f.key < e.key) ∧
      (∀ g ∈ right, e.key < g.key) := by
  unfold Increasing
  rw [List.pairwise_append, List.pairwise_cons]
  constructor
  · rintro ⟨hl, ⟨he, hr⟩, h⟩
    exact ⟨hl, hr, fun f hf => h f hf e List.mem_cons_self, he⟩
  · rintro ⟨hl, hr, hle, he⟩
    refine ⟨hl, ⟨he, hr⟩, fun f hf g hg => ?_⟩
    rcases List.mem_cons.mp hg with rfl | hg
    · exact hle f hf
    · exact Nat.lt_trans (hle f hf) (he g hg)

/-- An entry cuts the others in those before and those behind it. -/
theorem Increasing.cut_at (h : Increasing (left ++ e :: right)) :
    Cut e.key left (some e) right := by
  obtain ⟨-, -, hlt, hgt⟩ := increasing_append_cons.mp h
  exact ⟨hlt, by simp, hgt⟩

theorem Increasing.sublist (h : Increasing es) {fs : List (WeightEntry α)}
    (hs : List.Sublist fs es) : Increasing fs := List.Pairwise.sublist hs h

end Entries

/-! ### Trees whose stored weights are right -/

/-- The stored weight of every subtree is that of its entries. -/
def Weighed : WeightTree α → Prop
  | leaf => True
  | node left e right total =>
    left.Weighed ∧ right.Weighed ∧ total = e.weight + left.totalWeight + right.totalWeight

/-- A search tree: keys increase from left to right, and stored weights are right. -/
structure Valid (t : WeightTree α) : Prop where
  weighed : t.Weighed
  increasing : Increasing t.entries

namespace Step

/-- The subtree that a step passes by. -/
def tree : Step α → WeightTree α
  | .left _ t => t
  | .right t _ => t

end Step

variable {t u : WeightTree α} {e : WeightEntry α} {k : Nat} {way : List (Step α)}

theorem Weighed.totalWeight_eq (h : t.Weighed) : t.totalWeight = weightOf t.entries := by
  induction t with
  | leaf => rfl
  | node left e right total ihl ihr =>
      obtain ⟨hl, hr, rfl⟩ := h
      simp only [totalWeight, entries, weightOf_append, weightOf_cons, ← ihl hl, ← ihr hr]
      omega

theorem weighed_join (ht : t.Weighed) (hu : u.Weighed) : (join t e u).Weighed := ⟨ht, hu, rfl⟩

theorem weighed_raise {a b : WeightTree α} (hway : ∀ s ∈ way, s.tree.Weighed) (ha : a.Weighed)
    (hb : b.Weighed) : (raise way a b).1.Weighed ∧ (raise way a b).2.Weighed := by
  fun_induction raise way a b <;> simp_all [weighed_join, Step.tree]

theorem weighed_descend (hway : ∀ s ∈ way, s.tree.Weighed) (ht : t.Weighed) :
    (descend k t way).1.Weighed ∧ ∀ s ∈ (descend k t way).2, s.tree.Weighed := by
  fun_induction descend k t way <;> simp_all [Weighed, Step.tree]

theorem Valid.leaf : (leaf : WeightTree α).Valid := ⟨trivial, .nil⟩

/-! ### The way down to a key -/

/-- Where the way down to a key ends: at a leaf between the entries below the key and those above
it, or at the entry that has it. -/
inductive Descends (t : WeightTree α) (k : Nat) : Prop
  | absent {way : List (Step α)} (heq : descend k t [] = (.leaf, way))
      (hway : ∀ s ∈ way, s.tree.Weighed)
      (hcut : Cut k (entriesLeft way) none (entriesRight way))
      (hentries : t.entries = entriesLeft way ++ (none : Option (WeightEntry α)).toList ++
        entriesRight way)
  | present {left right : WeightTree α} {e : WeightEntry α} {total : Nat} {way : List (Step α)}
      (heq : descend k t [] = (.node left e right total, way))
      (hleft : left.Weighed) (hright : right.Weighed) (hway : ∀ s ∈ way, s.tree.Weighed)
      (hcut : Cut k (entriesLeft way ++ left.entries) (some e)
        (right.entries ++ entriesRight way))
      (hentries : t.entries = entriesLeft way ++ left.entries ++ (some e).toList ++
        (right.entries ++ entriesRight way))

/-- What lies beside the way down to a key is below it on the left and above it on the right. -/
theorem bounds_descend (ht : Increasing t.entries) (hl : ∀ e ∈ entriesLeft way, e.key < k)
    (hr : ∀ e ∈ entriesRight way, k < e.key) :
    (∀ e ∈ entriesLeft (descend k t way).2, e.key < k) ∧
      ∀ e ∈ entriesRight (descend k t way).2, k < e.key := by
  fun_induction descend k t way with
  | case1 way => exact ⟨hl, hr⟩
  | case2 left e right total way hk => exact ⟨hl, hr⟩
  | case3 left e right total way hk hlt ih =>
      obtain ⟨hleft, -, -, hright⟩ := increasing_append_cons.mp ht
      refine ih hleft hl fun f hf => ?_
      simp only [entriesRight, List.cons_append, List.mem_cons, List.mem_append] at hf
      rcases hf with rfl | hf | hf
      · exact hlt
      · exact Nat.lt_trans hlt (hright f hf)
      · exact hr f hf
  | case4 left e right total way hk hlt ih =>
      obtain ⟨-, hright, hleft, -⟩ := increasing_append_cons.mp ht
      refine ih hright (fun f hf => ?_) hr
      have hgt : e.key < k := by omega
      simp only [entriesLeft, List.mem_append, List.mem_singleton] at hf
      rcases hf with (hf | hf) | rfl
      · exact hl f hf
      · exact Nat.lt_trans (hleft f hf) hgt
      · exact hgt

theorem key_of_descend {left right : WeightTree α} {total : Nat} {way' : List (Step α)}
    (h : descend k t way = (.node left e right total, way')) : e.key = k := by
  fun_induction descend k t way with
  | case1 way => cases h
  | case2 left e right total way hk =>
      cases h
      exact hk.symm
  | case3 left e right total way hk hlt ih => exact ih h
  | case4 left e right total way hk hlt ih => exact ih h

theorem Valid.descends (ht : t.Valid) (k : Nat) : Descends t k := by
  have hnil : ∀ s ∈ ([] : List (Step α)), s.tree.Weighed := by simp
  obtain ⟨hweighed, hway⟩ := weighed_descend (k := k) hnil ht.weighed
  obtain ⟨hleft, hright⟩ := bounds_descend ht.increasing
    (show ∀ e ∈ entriesLeft ([] : List (Step α)), e.key < k by simp [entriesLeft])
    (show ∀ e ∈ entriesRight [], k < e.key by simp [entriesRight])
  have hentries := entries_descend k t []
  simp only [entriesLeft, entriesRight, List.nil_append, List.append_nil] at hentries
  rcases heq : descend k t [] with ⟨u, way⟩
  rw [heq] at hweighed hway hleft hright hentries
  cases u with
  | leaf => exact .absent heq hway ⟨hleft, by simp, hright⟩ (by simpa [entries] using hentries.symm)
  | node left e right total =>
      have hsplit : t.entries =
          entriesLeft way ++ left.entries ++ e :: (right.entries ++ entriesRight way) := by
        rw [← hentries]
        simp [entries]
      have hinc := ht.increasing
      rw [hsplit] at hinc
      exact .present heq hweighed.1 hweighed.2.1 hway (key_of_descend heq ▸ hinc.cut_at)
        (by simpa using hsplit)

/-! ### Operations -/

theorem insert_spec (ht : t.Valid) (k : Nat) (v : α) (w : Nat) :
    (t.insert k v w).entries = lower k t.entries ++
      ⟨k, v, ((item? k t.entries).map WeightEntry.weight).getD 0 + w⟩ :: upper k t.entries ∧
    (t.insert k v w).Valid := by
  have hspec : (t.insert k v w).entries = lower k t.entries ++
      ⟨k, v, ((item? k t.entries).map WeightEntry.weight).getD 0 + w⟩ :: upper k t.entries ∧
      (t.insert k v w).Weighed := by
    cases ht.descends k with
    | @absent way heq hway hcut hentries =>
        obtain ⟨hl, hr⟩ := entries_raise way leaf leaf
        obtain ⟨hwl, hwr⟩ := weighed_raise (a := leaf) (b := leaf) hway trivial trivial
        rw [insert, heq, hentries, hcut.lower_eq, hcut.upper_eq, hcut.item?_eq]
        refine ⟨?_, weighed_join hwl hwr⟩
        simp only [entries_join, hl, hr, entries]
        simp
    | @present left right e total way heq hleft hright hway hcut hentries =>
        obtain ⟨hl, hr⟩ := entries_raise way left right
        obtain ⟨hwl, hwr⟩ := weighed_raise hway hleft hright
        rw [insert, heq, hentries, hcut.lower_eq, hcut.upper_eq, hcut.item?_eq]
        refine ⟨?_, weighed_join hwl hwr⟩
        simp only [entries_join, hl, hr, Option.map_some, Option.getD_some]
  refine ⟨hspec.1, hspec.2, ?_⟩
  rw [hspec.1]
  have hinc := ht.increasing
  have hcut := cut_entries t.entries k
  exact increasing_append_cons.mpr ⟨hinc.sublist List.filter_sublist,
    hinc.sublist List.filter_sublist, hcut.lt, hcut.gt⟩

/-- `modify` with a function that keeps keys. -/
theorem modify_spec (ht : t.Valid) (k : Nat) {f : WeightEntry α → WeightEntry α}
    (hf : ∀ e, (f e).key = e.key) :
    (t.modify k f).1 = (item? k t.entries).map f ∧
      (t.modify k f).2.entries = lower k t.entries ++ ((item? k t.entries).map f).toList ++
        upper k t.entries ∧ (t.modify k f).2.Valid := by
  cases ht.descends k with
  | @absent way heq hway hcut hentries =>
      have hitem : item? k t.entries = none := by rw [hentries, hcut.item?_eq]
      have hkeep := ht.increasing.eq_append k
      rw [hitem] at hkeep
      rw [modify, heq, hitem]
      exact ⟨rfl, hkeep, ht⟩
  | @present left right e total way heq hleft hright hway hcut hentries =>
      obtain ⟨hl, hr⟩ := entries_raise way left right
      obtain ⟨hwl, hwr⟩ := weighed_raise hway hleft hright
      have hinc := ht.increasing
      rw [hentries, Option.toList_some, List.append_assoc, List.singleton_append] at hinc
      obtain ⟨hincl, hincr, -, -⟩ := increasing_append_cons.mp hinc
      have hkey : (f e).key = k := (hf e).trans (hcut.key_eq e rfl)
      rw [modify, heq, hentries, hcut.lower_eq, hcut.upper_eq, hcut.item?_eq]
      refine ⟨rfl, ?_, weighed_join hwl hwr, ?_⟩
      · simp only [entries_join, hl, hr, Option.map_some, Option.toList_some]
        simp
      · simp only [entries_join, hl, hr]
        exact increasing_append_cons.mpr ⟨hincl, hincr, fun g hg => hkey ▸ hcut.lt g hg,
          fun g hg => hkey ▸ hcut.gt g hg⟩

theorem descendLast_eq_none {way : List (Step α)} : descendLast t way = none ↔ t = leaf := by
  fun_induction descendLast t way <;> simp_all

theorem descendLast_spec {left : WeightTree α} {way' : List (Step α)}
    (h : descendLast t way = some (left, e, way')) :
    entriesLeft way ++ t.entries = entriesLeft way' ++ left.entries ++ [e] ∧
      (t.Weighed → (∀ s ∈ way, s.tree.Weighed) →
        left.Weighed ∧ ∀ s ∈ way', s.tree.Weighed) := by
  fun_induction descendLast t way with
  | case1 way => cases h
  | case2 way left e total =>
      cases h
      exact ⟨by simp [entries], fun ht hway => ⟨ht.1, hway⟩⟩
  | case3 way left e right total hright ih =>
      obtain ⟨heq, hweighed⟩ := ih h
      refine ⟨?_, fun ht hway => hweighed ht.2.1 ?_⟩
      · rw [← heq]
        simp [entriesLeft, entries]
      · exact List.forall_mem_cons.mpr ⟨ht.1, hway⟩

theorem append_spec (ht : t.Weighed) (hu : u.Weighed) :
    (append t u).entries = t.entries ++ u.entries ∧ (append t u).Weighed := by
  unfold append
  split
  · rename_i h
    rw [descendLast_eq_none.mp h]
    exact ⟨rfl, hu⟩
  · rename_i left e way h
    obtain ⟨heq, hweighed⟩ := descendLast_spec h
    obtain ⟨hleft, hway⟩ := hweighed ht (by simp)
    obtain ⟨hl, -⟩ := entries_raise way left leaf
    obtain ⟨hwl, -⟩ := weighed_raise (b := leaf) hway hleft trivial
    refine ⟨?_, weighed_join hwl hu⟩
    simp only [entriesLeft, List.nil_append] at heq
    rw [entries_join, hl, heq]
    simp

theorem remove_spec (ht : t.Valid) (k : Nat) :
    (t.remove k).1 = item? k t.entries ∧
      (t.remove k).2.entries = lower k t.entries ++ upper k t.entries ∧ (t.remove k).2.Valid := by
  cases ht.descends k with
  | @absent way heq hway hcut hentries =>
      have hitem : item? k t.entries = none := by rw [hentries, hcut.item?_eq]
      have hkeep := ht.increasing.eq_append k
      rw [hitem, Option.toList_none, List.append_nil] at hkeep
      rw [remove, heq, hitem]
      exact ⟨rfl, hkeep, ht⟩
  | @present left right e total way heq hleft hright hway hcut hentries =>
      obtain ⟨hl, hr⟩ := entries_raise way left right
      obtain ⟨hwl, hwr⟩ := weighed_raise hway hleft hright
      obtain ⟨happend, hwappend⟩ := append_spec hwl hwr
      have hinc := ht.increasing
      rw [hentries, Option.toList_some, List.append_assoc, List.singleton_append] at hinc
      rw [remove, heq, hentries, hcut.lower_eq, hcut.upper_eq, hcut.item?_eq]
      refine ⟨rfl, ?_, hwappend, ?_⟩
      · simp only [happend, hl, hr]
      · simp only [happend, hl, hr]
        exact hinc.sublist (List.Sublist.append_left (List.sublist_cons_self _ _) _)

theorem find?_eq (ht : Increasing t.entries) : t.find? k = item? k t.entries := by
  induction t with
  | leaf => rfl
  | node left e right total ihl ihr =>
      obtain ⟨hl, hr, hlt, hgt⟩ := increasing_append_cons.mp ht
      have hcutl := hl.eq_append k
      have hcutr := hr.eq_append k
      unfold find?
      split
      · rename_i hk
        subst hk
        have heq : (node left e right total).entries =
            left.entries ++ (some e).toList ++ right.entries := by simp [entries]
        rw [heq, Cut.item?_eq ⟨hlt, by simp, hgt⟩]
      · rename_i hne
        have hitem : item? k (node left e right total).entries =
            (item? k left.entries).or (item? k right.entries) := by
          simp [item?, entries, Ne.symm hne]
        rw [hitem]
        split
        · rename_i hlt'
          have hnone : item? k right.entries = none :=
            List.find?_eq_none.mpr fun f hf => by
              have := hgt f hf
              simp
              omega
          rw [ihl hl, hnone, Option.or_none]
        · rename_i hle
          have hnone : item? k left.entries = none :=
            List.find?_eq_none.mpr fun f hf => by
              have := hlt f hf
              simp
              omega
          rw [ihr hr, hnone, Option.none_or]

theorem Valid.left {left right : WeightTree α} {total : Nat}
    (h : (node left e right total).Valid) : left.Valid :=
  ⟨h.weighed.1, (increasing_append_cons.mp h.increasing).1⟩

theorem Valid.right {left right : WeightTree α} {total : Nat}
    (h : (node left e right total).Valid) : right.Valid :=
  ⟨h.weighed.2.1, (increasing_append_cons.mp h.increasing).2.1⟩

theorem weightAbove_eq (ht : t.Valid) : t.weightAbove k = weightOf (upper k t.entries) := by
  induction t with
  | leaf => rfl
  | node left e right total ihl ihr =>
      obtain ⟨-, -, hlt, hgt⟩ := increasing_append_cons.mp ht.increasing
      have htotal := ht.right.weighed.totalWeight_eq
      unfold weightAbove
      rw [entries, upper_append]
      split
      · rename_i hk
        subst hk
        rw [upper_eq_nil fun f hf => Nat.le_of_lt (hlt f hf), upper_cons_of_le (Nat.le_refl _),
          upper_eq_self hgt, htotal, List.nil_append]
      · rename_i hne
        split
        · rename_i hk
          have hright : ∀ f ∈ right.entries, k < f.key := fun f hf => Nat.lt_trans hk (hgt f hf)
          rw [upper_cons_of_lt hk, upper_eq_self hright, weightOf_append, weightOf_cons,
            ihl ht.left, htotal]
          omega
        · rename_i hle
          have hleft : ∀ f ∈ left.entries, f.key ≤ k := fun f hf => by
            have := hlt f hf
            omega
          rw [upper_eq_nil hleft, upper_cons_of_le (by omega), ihr ht.right, List.nil_append]

theorem ceiling?_eq (ht : Increasing t.entries) :
    t.ceiling? k = (t.entries.find? fun e => k ≤ e.key).map WeightEntry.key := by
  induction t with
  | leaf => rfl
  | node left e right total ihl ihr =>
      obtain ⟨hl, hr, hlt, hgt⟩ := increasing_append_cons.mp ht
      have hleft : e.key ≤ k → left.entries.find? (fun f => decide (k ≤ f.key)) = none :=
        fun hk => List.find?_eq_none.mpr fun f hf => by
          have := hlt f hf
          simp
          omega
      unfold ceiling?
      rw [entries, List.find?_append]
      split
      · rename_i hk
        rw [hleft (by omega), List.find?_cons_of_pos (by simp; omega), hk]
        rfl
      · rename_i hne
        split
        · rename_i hk
          rw [ihl hl]
          cases left.entries.find? fun f => decide (k ≤ f.key) <;>
            simp [Nat.le_of_lt hk]
        · rename_i hle
          rw [ihr hr, hleft (by omega), Option.none_or, List.find?_cons_of_neg (by simp; omega)]

theorem predecessor?_eq (ht : Increasing t.entries) :
    t.predecessor? k = (lower k t.entries).getLast?.map WeightEntry.key := by
  induction t with
  | leaf => rfl
  | node left e right total ihl ihr =>
      obtain ⟨hl, hr, hlt, hgt⟩ := increasing_append_cons.mp ht
      have happend : lower k (node left e right total).entries =
          lower k left.entries ++ lower k (e :: right.entries) := List.filter_append ..
      unfold predecessor?
      rw [happend]
      split
      · rename_i hk
        have hcons : lower k (e :: right.entries) = e :: lower k right.entries :=
          List.filter_cons_of_pos (by simpa using hk)
        rw [hcons, ihr hr, List.getLast?_append_cons, List.getLast?_cons]
        cases (lower k right.entries).getLast? <;> simp
      · rename_i hk
        have hright : lower k (e :: right.entries) = [] :=
          lower_eq_nil (List.forall_mem_cons.mpr ⟨by omega, fun f hf => by
            have := hgt f hf
            omega⟩)
        rw [hright, List.append_nil, ihl hl]

theorem successor?_eq (ht : Increasing t.entries) :
    t.successor? k = (upper k t.entries).head?.map WeightEntry.key := by
  induction t with
  | leaf => rfl
  | node left e right total ihl ihr =>
      obtain ⟨hl, hr, hlt, hgt⟩ := increasing_append_cons.mp ht
      unfold successor?
      rw [entries, upper_append]
      split
      · rename_i hk
        rw [upper_cons_of_lt hk, ihl hl]
        cases upper k left.entries <;> simp
      · rename_i hk
        have hleft : ∀ f ∈ left.entries, f.key ≤ k := fun f hf => by
          have := hlt f hf
          omega
        rw [upper_eq_nil hleft, upper_cons_of_le (by omega), ihr hr, List.nil_append]

theorem minKey?_eq (t : WeightTree α) : t.minKey? = t.entries.head?.map WeightEntry.key := by
  induction t with
  | leaf => rfl
  | node left e right total ihl ihr =>
      rw [minKey?, entries, ihl]
      cases left.entries <;> simp

/-! ### Operations on an entry that is there -/

section At

variable {es fs : List (WeightEntry α)}

theorem Increasing.at_entry (h : Increasing (es ++ e :: fs)) :
    lower e.key (es ++ e :: fs) = es ∧ item? e.key (es ++ e :: fs) = some e ∧
      upper e.key (es ++ e :: fs) = fs := by
  have hcut := h.cut_at
  have hsplit : es ++ e :: fs = es ++ (some e).toList ++ fs := by simp
  rw [hsplit]
  exact ⟨hcut.lower_eq, hcut.item?_eq, hcut.upper_eq⟩

theorem remove_at (ht : t.Valid) (heq : t.entries = es ++ e :: fs) :
    (t.remove e.key).1 = some e ∧ (t.remove e.key).2.entries = es ++ fs ∧
      (t.remove e.key).2.Valid := by
  obtain ⟨hlower, hitem, hupper⟩ := (heq ▸ ht.increasing).at_entry
  have hspec := remove_spec ht e.key
  rwa [heq, hlower, hitem, hupper] at hspec

theorem adjust_at (ht : t.Valid) (heq : t.entries = es ++ e :: fs) (delta : Int) :
    let weight := min maxWeight (e.weight + delta).toNat
    (t.adjust e.key delta).1 = some weight ∧
      (t.adjust e.key delta).2.entries = es ++ { e with weight } :: fs ∧
      (t.adjust e.key delta).2.Valid := by
  obtain ⟨hlower, hitem, hupper⟩ := (heq ▸ ht.increasing).at_entry
  have hspec := modify_spec ht e.key
    (f := fun e => { e with weight := min maxWeight (e.weight + delta).toNat }) fun _ => rfl
  rw [heq, hlower, hitem, hupper] at hspec
  obtain ⟨hfound, hentries, hvalid⟩ := hspec
  unfold adjust
  dsimp only
  rw [hfound, hentries]
  exact ⟨rfl, by simp, hvalid⟩

theorem weight?_at (ht : t.Valid) (heq : t.entries = es ++ e :: fs) :
    t.weight? e.key = some e.weight := by
  obtain ⟨-, hitem, -⟩ := (heq ▸ ht.increasing).at_entry
  rw [weight?, find?_eq ht.increasing, heq, hitem, Option.map_some]

/-- An insertion behind all other entries. -/
theorem insert_last (ht : t.Valid) (hk : ∀ e ∈ t.entries, e.key < k) (v : α) (w : Nat) :
    (t.insert k v w).entries = t.entries ++ [⟨k, v, w⟩] ∧ (t.insert k v w).Valid := by
  have hcut : Cut k t.entries none ([] : List (WeightEntry α)) := ⟨hk, by simp, by simp⟩
  have hsplit : t.entries = t.entries ++ (none : Option (WeightEntry α)).toList ++ [] := by simp
  obtain ⟨hentries, hvalid⟩ := insert_spec ht k v w
  refine ⟨?_, hvalid⟩
  rw [hentries, hsplit, hcut.lower_eq, hcut.upper_eq, hcut.item?_eq]
  simp

end At

end BinTrace.WeightTree
