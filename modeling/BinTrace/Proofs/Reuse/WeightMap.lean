import Mathlib
import BinTrace.Proofs.Reuse.WeightTree

/-!
A weighted tree is a finite map. What can be asked of a tree can be asked of a map from keys to
weights and values, and whatever is asked of both in turn, they give the same answers.
-/

namespace BinTrace

/-- A finite map from keys to weights and values. -/
abbrev WeightMap (α : Type) := Finmap fun _ : Nat => Nat × α

/-- What can be asked of a tree and of a map. -/
inductive WeightCall (α : Type)
  | insert (key : Nat) (value : α) (weight : Nat)
  | remove (key : Nat)
  | adjust (key : Nat) (delta : Int)
  | weight (key : Nat)
  | weightAbove (key : Nat)
  | ceiling (key : Nat)
  | predecessor (key : Nat)
  | successor (key : Nat)
  | minKey
  | clear

inductive WeightAnswer (α : Type)
  | done
  /-- A weight and a value, if there were any. -/
  | found (item : Option (Nat × α))
  /-- A weight or a key, if there is one. -/
  | number (n : Option Nat)
  deriving DecidableEq

namespace WeightCall

variable {α σ : Type}

/-- The answers to some calls, and the state that they leave. -/
def run (step : σ → WeightCall α → WeightAnswer α × σ) (s : σ) :
    List (WeightCall α) → List (WeightAnswer α) × σ
  | [] => ([], s)
  | c :: rest =>
    let (answer, s) := step s c
    let (answers, s) := run step s rest
    (answer :: answers, s)

end WeightCall

def least? (s : Finset Nat) : Option Nat := if h : s.Nonempty then some (s.min' h) else none

def greatest? (s : Finset Nat) : Option Nat := if h : s.Nonempty then some (s.max' h) else none

namespace WeightMap

variable {α : Type}

/-- The weight of a key, zero if it is not there. -/
def weight (m : WeightMap α) (k : Nat) : Nat := ((m.lookup k).map Prod.fst).getD 0

def total (m : WeightMap α) : Nat := ∑ k ∈ m.keys, m.weight k

/-- Adds weight to a key and sets its value. -/
def add (m : WeightMap α) (k : Nat) (value : α) (weight : Nat) : WeightMap α :=
  m.insert k (m.weight k + weight, value)

/-- Changes the weight of a key that is there; it stops at zero. -/
def adjust (m : WeightMap α) (k : Nat) (delta : Int) : WeightMap α :=
  match m.lookup k with
  | some (weight, value) => m.insert k ((weight + delta).toNat, value)
  | none => m

/-- The answer of a map, and the map afterwards. -/
def call (m : WeightMap α) : WeightCall α → WeightAnswer α × WeightMap α
  | .insert k value weight => (.done, m.add k value weight)
  | .remove k => (.found (m.lookup k), m.erase k)
  | .adjust k delta =>
    (.number (((m.adjust k delta).lookup k).map Prod.fst), m.adjust k delta)
  | .weight k => (.number ((m.lookup k).map Prod.fst), m)
  | .weightAbove k => (.number (some (∑ j ∈ m.keys with k < j, m.weight j)), m)
  | .ceiling k => (.number (least? {j ∈ m.keys | k ≤ j}), m)
  | .predecessor k => (.number (greatest? {j ∈ m.keys | j < k}), m)
  | .successor k => (.number (least? {j ∈ m.keys | k < j}), m)
  | .minKey => (.number (least? m.keys), m)
  | .clear => (.done, ∅)

theorem weight_le_total {m : WeightMap α} {k : Nat} (h : k ∈ m.keys) : m.weight k ≤ m.total :=
  Finset.single_le_sum (fun _ _ => Nat.zero_le _) h

end WeightMap

/-- What an entry holds under its key. -/
def WeightEntry.item {α : Type} (e : WeightEntry α) : Nat × α := (e.weight, e.value)

namespace WeightTree

variable {α : Type}

/-- The answer of a tree, and the tree afterwards. -/
def call (t : WeightTree α) : WeightCall α → WeightAnswer α × WeightTree α
  | .insert k value weight => (.done, t.insert k value weight)
  | .remove k => (.found ((t.remove k).1.map WeightEntry.item), (t.remove k).2)
  | .adjust k delta => (.number (t.adjust k delta).1, (t.adjust k delta).2)
  | .weight k => (.number (t.weight? k), t)
  | .weightAbove k => (.number (some (t.weightAbove k)), t)
  | .ceiling k => (.number (t.ceiling? k), t)
  | .predecessor k => (.number (t.predecessor? k), t)
  | .successor k => (.number (t.successor? k), t)
  | .minKey => (.number t.minKey?, t)
  | .clear => (.done, leaf)

/-- The tree is sound and finds what the map has. -/
structure Represents (t : WeightTree α) (m : WeightMap α) : Prop where
  valid : t.Valid
  lookup_eq : ∀ k, m.lookup k = (item? k t.entries).map WeightEntry.item

variable {t : WeightTree α} {m : WeightMap α} {es : List (WeightEntry α)} {e : WeightEntry α}
  {o : Option (WeightEntry α)} {j k : Nat}

/-! ### Entries of a list -/

/-- Between the entries below a key and those above it another entry with the key may be put, or
none. -/
theorem item?_splice (h : Increasing es) (ho : ∀ e ∈ o, e.key = k) :
    item? j (lower k es ++ o.toList ++ upper k es) = if j = k then o else item? j es := by
  split
  · rename_i hj
    subst hj
    exact Cut.item?_eq ⟨(cut_entries es j).lt, ho, (cut_entries es j).gt⟩
  · rename_i hj
    have hrest (o : Option (WeightEntry α)) (ho : ∀ e ∈ o, e.key = k) :
        item? j (lower k es ++ o.toList ++ upper k es) =
          (item? j (lower k es)).or (item? j (upper k es)) := by
      have hpass : o.toList.find? (fun e => decide (e.key = j)) = none :=
        List.find?_eq_none.mpr fun e he => by
          rw [ho e (Option.mem_toList.mp he)]
          simpa using Ne.symm hj
      rw [item?, List.find?_append, List.find?_append, hpass, Option.or_none]
      rfl
    rw [hrest o ho, ← hrest _ (cut_entries es k).key_eq, ← h.eq_append k]

theorem Increasing.item?_of_mem (h : Increasing es) (he : e ∈ es) : item? e.key es = some e := by
  obtain ⟨left, right, rfl⟩ := List.append_of_mem he
  exact h.at_entry.2.1

theorem Increasing.nodup_keys (h : Increasing es) : (es.map WeightEntry.key).Nodup :=
  List.pairwise_map.mpr (h.imp Nat.ne_of_lt)

theorem least?_eq {s : Finset Nat} (h : IsLeast (s : Set Nat) k) : least? s = some k := by
  have hs : s.Nonempty := ⟨k, h.1⟩
  rw [least?, dif_pos hs, (s.isLeast_min' hs).unique h]

theorem greatest?_eq {s : Finset Nat} (h : IsGreatest (s : Set Nat) k) : greatest? s = some k := by
  have hs : s.Nonempty := ⟨k, h.1⟩
  rw [greatest?, dif_pos hs, (s.isGreatest_max' hs).unique h]

theorem least?_keys (h : Increasing es) :
    least? (es.map WeightEntry.key).toFinset = es.head?.map WeightEntry.key := by
  cases es with
  | nil => rfl
  | cons e rest =>
      refine least?_eq ⟨by simp, fun k hk => ?_⟩
      obtain ⟨f, hf, rfl⟩ := List.mem_map.mp (List.mem_toFinset.mp hk)
      rcases List.mem_cons.mp hf with rfl | hf
      · exact Nat.le_refl _
      · exact Nat.le_of_lt ((List.pairwise_cons.mp h).1 f hf)

theorem greatest?_keys (h : Increasing es) :
    greatest? (es.map WeightEntry.key).toFinset = es.getLast?.map WeightEntry.key := by
  induction es using List.reverseRecOn with
  | nil => rfl
  | append_singleton rest e =>
      rw [List.getLast?_concat, Option.map_some]
      refine greatest?_eq ⟨by simp, fun k hk => ?_⟩
      obtain ⟨f, hf, rfl⟩ := List.mem_map.mp (List.mem_toFinset.mp hk)
      rcases List.mem_append.mp hf with hf | hf
      · exact Nat.le_of_lt ((List.pairwise_append.mp h).2.2 f hf e (List.mem_singleton_self e))
      · rw [List.mem_singleton.mp hf]

theorem Valid.call (h : t.Valid) (c : WeightCall α) : (t.call c).2.Valid := by
  cases c with
  | insert k value weight => exact (insert_spec h k value weight).2
  | remove k => exact (remove_spec h k).2.2
  | adjust k delta =>
      obtain ⟨-, -, hvalid⟩ := modify_spec h k
        (f := fun e => { e with weight := min maxWeight (e.weight + delta).toNat }) fun _ => rfl
      exact hvalid
  | clear => exact .leaf
  | _ => exact h

/-! ### What the tree tells of the map -/

namespace Represents

theorem leaf : Represents (leaf : WeightTree α) ∅ := ⟨.leaf, fun _ => rfl⟩

theorem mem_iff (h : Represents t m) (e : WeightEntry α) :
    e ∈ t.entries ↔ m.lookup e.key = some e.item := by
  rw [h.lookup_eq]
  constructor
  · intro he
    rw [h.valid.increasing.item?_of_mem he, Option.map_some]
  · intro he
    obtain ⟨f, hf, heq⟩ := Option.map_eq_some_iff.mp he
    obtain rfl : f = e := by
      have hkey : f.key = e.key := by simpa using List.find?_some hf
      cases f
      cases e
      cases heq
      cases hkey
      rfl
    exact List.mem_of_find?_eq_some hf

theorem keys_eq (h : Represents t m) : m.keys = (t.entries.map WeightEntry.key).toFinset := by
  ext k
  rw [Finmap.mem_keys, Finmap.mem_iff, List.mem_toFinset, List.mem_map]
  constructor
  · rintro ⟨⟨weight, value⟩, hk⟩
    exact ⟨⟨k, value, weight⟩, (h.mem_iff _).mpr hk, rfl⟩
  · rintro ⟨e, he, rfl⟩
    exact ⟨_, (h.mem_iff e).mp he⟩

/-- Keys of the map are chosen by choosing entries of the tree. -/
theorem filter_keys (h : Represents t m) (p : Nat → Prop) [DecidablePred p] :
    {k ∈ m.keys | p k} = ((t.entries.filter fun e => p e.key).map WeightEntry.key).toFinset := by
  ext k
  simp only [h.keys_eq, Finset.mem_filter, List.mem_toFinset, List.mem_map, List.mem_filter,
    decide_eq_true_eq]
  constructor
  · rintro ⟨⟨e, he, rfl⟩, hp⟩
    exact ⟨e, ⟨he, hp⟩, rfl⟩
  · rintro ⟨e, ⟨he, hp⟩, rfl⟩
    exact ⟨⟨e, he, rfl⟩, hp⟩

theorem weight_eq (h : Represents t m) (he : e ∈ t.entries) : m.weight e.key = e.weight := by
  rw [WeightMap.weight, (h.mem_iff e).mp he]
  rfl

theorem sum_weight (h : Represents t m) (hs : es.Sublist t.entries) :
    ∑ k ∈ (es.map WeightEntry.key).toFinset, m.weight k = weightOf es := by
  have hnodup := (h.valid.increasing.sublist hs).nodup_keys
  rw [List.sum_toFinset _ hnodup, List.map_map, weightOf]
  exact congrArg List.sum (List.map_congr_left fun e he => h.weight_eq (hs.subset he))

theorem card_eq (h : Represents t m) : m.keys.card = t.entries.length := by
  rw [h.keys_eq, List.toFinset_card_of_nodup h.valid.increasing.nodup_keys, List.length_map]

theorem total_eq (h : Represents t m) : m.total = weightOf t.entries := by
  rw [WeightMap.total, h.keys_eq, h.sum_weight (List.Sublist.refl _)]

/-! ### Calls that ask -/

theorem weight?_eq (h : Represents t m) (k : Nat) : t.weight? k = (m.lookup k).map Prod.fst := by
  rw [weight?, find?_eq h.valid.increasing, h.lookup_eq, Option.map_map]
  rfl

theorem weightAbove_eq (h : Represents t m) (k : Nat) :
    t.weightAbove k = ∑ j ∈ m.keys with k < j, m.weight j := by
  rw [WeightTree.weightAbove_eq h.valid, h.filter_keys, h.sum_weight List.filter_sublist]
  rfl

theorem ceiling?_eq (h : Represents t m) (k : Nat) :
    t.ceiling? k = least? {j ∈ m.keys | k ≤ j} := by
  rw [WeightTree.ceiling?_eq h.valid.increasing, h.filter_keys,
    least?_keys (h.valid.increasing.sublist List.filter_sublist), List.head?_filter]

theorem predecessor?_eq (h : Represents t m) (k : Nat) :
    t.predecessor? k = greatest? {j ∈ m.keys | j < k} := by
  rw [WeightTree.predecessor?_eq h.valid.increasing, h.filter_keys,
    greatest?_keys (h.valid.increasing.sublist List.filter_sublist)]
  rfl

theorem successor?_eq (h : Represents t m) (k : Nat) :
    t.successor? k = least? {j ∈ m.keys | k < j} := by
  rw [WeightTree.successor?_eq h.valid.increasing, h.filter_keys,
    least?_keys (h.valid.increasing.sublist List.filter_sublist)]
  rfl

theorem minKey?_eq (h : Represents t m) : t.minKey? = least? m.keys := by
  rw [WeightTree.minKey?_eq, h.keys_eq, least?_keys h.valid.increasing]

/-! ### Calls that change -/

/-- A tree in which the entry of a key has been exchanged finds what a map has in which the same
was done. -/
theorem splice {u : WeightTree α} {n : WeightMap α} (h : Represents t m) (hvalid : u.Valid)
    (ho : ∀ e ∈ o, e.key = k)
    (hentries : u.entries = lower k t.entries ++ o.toList ++ upper k t.entries)
    (hn : ∀ j, n.lookup j = if j = k then o.map WeightEntry.item else m.lookup j) :
    Represents u n := by
  refine ⟨hvalid, fun j => ?_⟩
  rw [hn, hentries, item?_splice h.valid.increasing ho, h.lookup_eq]
  split <;> rfl

theorem lookup_insert (m : WeightMap α) (k : Nat) (item : Nat × α) (j : Nat) :
    (m.insert k item).lookup j = if j = k then some item else m.lookup j := by
  split
  · rename_i hj
    rw [hj, Finmap.lookup_insert]
  · rename_i hj
    exact Finmap.lookup_insert_of_ne m hj

theorem insert (h : Represents t m) (k : Nat) (value : α) (weight : Nat) :
    Represents (t.insert k value weight) (m.add k value weight) := by
  obtain ⟨hentries, hvalid⟩ := insert_spec h.valid k value weight
  have hweight : ((item? k t.entries).map WeightEntry.weight).getD 0 = m.weight k := by
    rw [WeightMap.weight, h.lookup_eq, Option.map_map]
    rfl
  rw [hweight] at hentries
  exact h.splice (o := some ⟨k, value, m.weight k + weight⟩) hvalid (by simp)
    (by simpa using hentries) (lookup_insert m k _)

theorem remove (h : Represents t m) (k : Nat) :
    (t.remove k).1.map WeightEntry.item = m.lookup k ∧ Represents (t.remove k).2 (m.erase k) := by
  obtain ⟨hfound, hentries, hvalid⟩ := remove_spec h.valid k
  have hbetween : (t.remove k).2.entries =
      lower k t.entries ++ (none : Option (WeightEntry α)).toList ++ upper k t.entries := by
    rw [hentries, Option.toList_none, List.append_nil]
  refine ⟨by rw [hfound, h.lookup_eq], h.splice hvalid (by simp) hbetween fun j => ?_⟩
  split
  · rename_i hj
    rw [hj, Finmap.lookup_erase]
    rfl
  · rename_i hj
    exact Finmap.lookup_erase_ne hj

/-- Below the greatest weight only zero stops a change. -/
theorem adjust (h : Represents t m) (k : Nat) (delta : Int)
    (hbound : (m.adjust k delta).total ≤ maxWeight) :
    (t.adjust k delta).1 = ((m.adjust k delta).lookup k).map Prod.fst ∧
      Represents (t.adjust k delta).2 (m.adjust k delta) := by
  let f (e : WeightEntry α) : WeightEntry α :=
    { e with weight := min maxWeight (e.weight + delta).toNat }
  obtain ⟨hfound, hentries, hvalid⟩ := modify_spec h.valid k (f := f) fun _ => rfl
  have hlookup := h.lookup_eq k
  have hadjust : t.adjust k delta =
      ((t.modify k f).1.map WeightEntry.weight, (t.modify k f).2) := rfl
  rw [hadjust, hfound]
  cases hitem : item? k t.entries with
  | none =>
      rw [hitem, Option.map_none] at hlookup hentries
      have hsame : m.adjust k delta = m := by rw [WeightMap.adjust, hlookup]
      rw [hsame, hlookup]
      refine ⟨rfl, h.splice hvalid (by simp) hentries fun j => ?_⟩
      split
      · rename_i hj
        rw [hj, hlookup]
        rfl
      · rfl
  | some e =>
      rw [hitem, Option.map_some] at hlookup hentries
      have hnew : m.adjust k delta = m.insert k ((e.weight + delta).toNat, e.value) := by
        rw [WeightMap.adjust, hlookup]
        rfl
      have hle : (e.weight + delta).toNat ≤ maxWeight := by
        refine Nat.le_trans ?_ hbound
        have hweight : (m.adjust k delta).weight k = (e.weight + delta).toNat := by
          rw [hnew, WeightMap.weight, Finmap.lookup_insert]
          rfl
        rw [← hweight]
        refine WeightMap.weight_le_total ?_
        rw [hnew, Finmap.mem_keys]
        exact Finmap.mem_insert.mpr (.inl rfl)
      have hf : f e = { e with weight := (e.weight + delta).toNat } := by
        simp only [f, Nat.min_eq_right hle]
      rw [hf] at hentries
      rw [hnew, Finmap.lookup_insert, Option.map_some, Option.map_some, Option.map_some, hf]
      have hkey : e.key = k := (cut_entries t.entries k).key_eq e hitem
      exact ⟨rfl, h.splice hvalid (by simpa using hkey) hentries (lookup_insert m k _)⟩

/-- What one call does. -/
theorem call (h : Represents t m) (c : WeightCall α)
    (hbound : (m.call c).2.total ≤ maxWeight) :
    (t.call c).1 = (m.call c).1 ∧ Represents (t.call c).2 (m.call c).2 := by
  cases c with
  | insert k value weight => exact ⟨rfl, h.insert k value weight⟩
  | remove k =>
      obtain ⟨hfound, hremoved⟩ := h.remove k
      exact ⟨congrArg WeightAnswer.found hfound, hremoved⟩
  | adjust k delta =>
      obtain ⟨hweight, hadjusted⟩ := h.adjust k delta hbound
      exact ⟨congrArg WeightAnswer.number hweight, hadjusted⟩
  | weight k => exact ⟨congrArg WeightAnswer.number (h.weight?_eq k), h⟩
  | weightAbove k => exact ⟨congrArg (WeightAnswer.number ∘ some) (h.weightAbove_eq k), h⟩
  | ceiling k => exact ⟨congrArg WeightAnswer.number (h.ceiling?_eq k), h⟩
  | predecessor k => exact ⟨congrArg WeightAnswer.number (h.predecessor?_eq k), h⟩
  | successor k => exact ⟨congrArg WeightAnswer.number (h.successor?_eq k), h⟩
  | minKey => exact ⟨congrArg WeightAnswer.number h.minKey?_eq, h⟩
  | clear => exact ⟨rfl, .leaf⟩

/-- What a whole run does. -/
theorem run (h : Represents t m) (calls : List (WeightCall α))
    (hbound : ∀ front, front <+: calls →
      (WeightCall.run WeightMap.call m front).2.total < 2 ^ 64) :
    (WeightCall.run WeightTree.call t calls).1 = (WeightCall.run WeightMap.call m calls).1 ∧
      Represents (WeightCall.run WeightTree.call t calls).2
        (WeightCall.run WeightMap.call m calls).2 := by
  induction calls generalizing t m with
  | nil => exact ⟨rfl, h⟩
  | cons c rest ih =>
      have hfirst : (m.call c).2.total < 2 ^ 64 := hbound [c] (by simp)
      obtain ⟨hanswer, hnext⟩ := h.call c (Nat.le_sub_one_of_lt hfirst)
      obtain ⟨hanswers, hlast⟩ := ih hnext fun front hfront =>
        hbound (c :: front) (List.cons_prefix_cons.mpr ⟨rfl, hfront⟩)
      exact ⟨List.cons_eq_cons.mpr ⟨hanswer, hanswers⟩, hlast⟩

end Represents

end WeightTree

end BinTrace
