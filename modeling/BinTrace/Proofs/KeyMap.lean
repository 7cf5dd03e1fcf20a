import BinTrace.Arithmetic
import BinTrace.KeyMap
import Mathlib.Data.List.Sort

/-!
Maps are told by what looking a key up in them gives, and so the order of insertions of different
keys does not count.
-/

namespace BinTrace.KeyMap

variable {α : Type} {m n : KeyMap α} {j k : Nat}

theorem mem_keys : k ∈ m.keys ↔ (m.get? k).isSome = true := by
  simp only [keys, List.mem_map, Prod.exists, exists_and_right, exists_eq_right, mem_entries_iff,
    Option.isSome_iff_exists]

theorem ext_get? (h : ∀ k, m.get? k = n.get? k) : m = n := by
  have hanti : Std.Antisymm fun a b : Nat × α => a.1 < b.1 :=
    ⟨fun _ _ hab hba => absurd hab (Nat.lt_asymm hba)⟩
  have hirrefl : Std.Irrefl fun a b : Nat × α => a.1 < b.1 := ⟨fun _ => Nat.lt_irrefl _⟩
  have hentries : m.entries = n.entries := m.sorted.eq_of_mem_iff n.sorted fun e => by
    rw [mem_entries_iff, mem_entries_iff, h]
  cases m
  cases n
  congr

theorem insert_insert (m : KeyMap α) (k : Nat) (v w : α) :
    (m.insert k v).insert k w = m.insert k w := by
  refine ext_get? fun j => ?_
  simp only [get?_insert]
  split <;> rfl

theorem insert_comm (m : KeyMap α) (hne : j ≠ k) (v w : α) :
    (m.insert j v).insert k w = (m.insert k w).insert j v := by
  refine ext_get? fun i => ?_
  simp only [get?_insert]
  grind

theorem lookup_eq_none_of_lt {e : Nat × α} {es : List (Nat × α)}
    (h : (e :: es).Pairwise fun a b => a.1 < b.1) (hk : k < e.1) : (e :: es).lookup k = none := by
  rw [List.lookup_eq_none_iff]
  intro d hd
  have hle : k < d.1 := by
    rcases List.mem_cons.mp hd with rfl | hd
    · exact hk
    · exact Nat.lt_trans hk ((List.pairwise_cons.mp h).1 d hd)
  simpa using Nat.ne_of_lt hle

theorem sum_insertEntry {es : List (Nat × Nat)} (h : es.Pairwise fun a b => a.1 < b.1) (k : Nat) :
    ((insertEntry k ((es.lookup k).getD 0 + 1) es).map Prod.snd).sum =
      (es.map Prod.snd).sum + 1 := by
  induction es with
  | nil => rfl
  | cons d rest ih =>
      obtain ⟨j, w⟩ := d
      simp only [insertEntry]
      split
      · rename_i hlt
        rw [lookup_eq_none_of_lt h hlt]
        simp
        omega
      · split
        · rename_i heq
          simp [heq]
          omega
        · rename_i hne
          rw [lookup_cons_entry, if_neg hne, List.map_cons, List.sum_cons,
            ih (List.pairwise_cons.mp h).2]
          simp
          omega

theorem sum_values_alter (m : KeyMap Nat) (k : Nat) :
    (m.alter k 0 (· + 1)).values.sum = m.values.sum + 1 :=
  sum_insertEntry m.sorted k

theorem increasing_keys (m : KeyMap α) : m.keys.Pairwise (· < ·) :=
  List.pairwise_map.mpr m.sorted

theorem get?_alter (m : KeyMap α) (k j : Nat) (d : α) (f : α → α) :
    (m.alter k d f).get? j = if j = k then some (f ((m.get? k).getD d)) else m.get? j :=
  get?_insert m k j _

/-- Of numbers in order those up to `k` stand in front. -/
theorem takeWhile_le_eq_filter {l : List Nat} (h : l.Pairwise (· < ·)) (k : Nat) :
    (l.takeWhile fun j => j ≤ k) = l.filter fun j => j ≤ k := by
  induction l with
  | nil => rfl
  | cons i rest ih =>
      obtain ⟨hlt, hrest⟩ := List.pairwise_cons.mp h
      by_cases hi : i ≤ k
      · rw [List.takeWhile_cons_of_pos (by simpa using hi),
          List.filter_cons_of_pos (by simpa using hi), ih hrest]
      · rw [List.takeWhile_cons_of_neg (by simpa using hi), eq_comm, List.filter_eq_nil_iff]
        intro j hj
        have hle : i ≤ j := by
          rcases List.mem_cons.mp hj with rfl | hj
          · exact Nat.le_refl j
          · exact Nat.le_of_lt (hlt j hj)
        simp only [decide_eq_true_eq]
        omega

theorem floor?_eq_some_iff : m.floor? k = some j ↔
    j ∈ m.keys ∧ j ≤ k ∧ ∀ i ∈ m.keys, i ≤ k → i ≤ j := by
  have hmem (i : Nat) : i ∈ m.keys.filter (fun j => j ≤ k) ↔ i ∈ m.keys ∧ i ≤ k := by simp
  have hsorted := m.increasing_keys.filter fun j => j ≤ k
  rw [floor?, takeWhile_le_eq_filter m.increasing_keys, List.getLast?_eq_some_iff]
  constructor
  · rintro ⟨front, hfront⟩
    rw [hfront] at hsorted hmem
    obtain ⟨hj, hle⟩ := (hmem j).mp (by simp)
    refine ⟨hj, hle, fun i hi hik => ?_⟩
    rcases List.mem_append.mp ((hmem i).mpr ⟨hi, hik⟩) with hin | hin
    · exact Nat.le_of_lt ((List.pairwise_append.mp hsorted).2.2 i hin j (by simp))
    · exact Nat.le_of_eq (List.mem_singleton.mp hin)
  · rintro ⟨hj, hle, hgreatest⟩
    obtain ⟨front, behind, hsplit⟩ := List.append_of_mem ((hmem j).mpr ⟨hj, hle⟩)
    rw [hsplit] at hsorted hmem
    have hbehind : behind = [] := List.eq_nil_iff_forall_not_mem.mpr fun i hi => by
      obtain ⟨hin, hik⟩ := (hmem i).mp (by simp [hi])
      have hlt := (List.pairwise_cons.mp (List.pairwise_append.mp hsorted).2.1).1 i hi
      exact Nat.not_le.mpr hlt (hgreatest i hin hik)
    exact ⟨front, by rw [hsplit, hbehind]⟩

theorem ceiling?_eq_some_iff : m.ceiling? k = some j ↔
    j ∈ m.keys ∧ k ≤ j ∧ ∀ i ∈ m.keys, k ≤ i → j ≤ i := by
  have hsorted := m.increasing_keys
  rw [ceiling?, List.find?_eq_some_iff_append]
  simp only [decide_eq_true_eq, Bool.not_eq_eq_eq_not, Bool.not_true, decide_eq_false_iff_not]
  constructor
  · rintro ⟨hle, front, behind, hsplit, hfront⟩
    rw [hsplit] at hsorted ⊢
    refine ⟨by simp, hle, fun i hi hki => ?_⟩
    rcases List.mem_append.mp hi with hi | hi
    · exact absurd hki (hfront i hi)
    · rcases List.mem_cons.mp hi with rfl | hi
      · exact Nat.le_refl i
      · have hordered := (List.pairwise_append.mp hsorted).2.1
        exact Nat.le_of_lt ((List.pairwise_cons.mp hordered).1 i hi)
  · rintro ⟨hj, hle, hleast⟩
    obtain ⟨front, behind, hsplit⟩ := List.append_of_mem hj
    refine ⟨hle, front, behind, hsplit, fun i hi hki => ?_⟩
    have hmem : i ∈ m.keys := by
      rw [hsplit]
      exact List.mem_append_left _ hi
    rw [hsplit] at hsorted
    exact Nat.not_lt.mpr (hleast i hmem hki)
      ((List.pairwise_append.mp hsorted).2.2 i hi j List.mem_cons_self)

theorem floor?_eq_none_iff : m.floor? k = none ↔ ∀ i ∈ m.keys, k < i := by
  rw [floor?, takeWhile_le_eq_filter m.increasing_keys]
  simp

theorem ceiling?_eq_none_iff : m.ceiling? k = none ↔ ∀ i ∈ m.keys, i < k := by
  simp [ceiling?]

end BinTrace.KeyMap
