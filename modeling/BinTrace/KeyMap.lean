/-!
Finite maps from numbers, as lists of entries in the order of their keys. Looking a key up after an
insertion or a removal is described by `get?_insert` and `get?_erase`.
-/

namespace BinTrace

structure KeyMap (α : Type) where
  entries : List (Nat × α)
  sorted : entries.Pairwise fun a b => a.1 < b.1

namespace KeyMap

variable {α : Type}

def empty : KeyMap α := ⟨[], .nil⟩

instance : Inhabited (KeyMap α) := ⟨empty⟩

def insertEntry (k : Nat) (v : α) : List (Nat × α) → List (Nat × α)
  | [] => [(k, v)]
  | (j, w) :: rest =>
    if k < j then (k, v) :: (j, w) :: rest
    else if k = j then (k, v) :: rest
    else (j, w) :: insertEntry k v rest

theorem mem_insertEntry {k : Nat} {v : α} {e : Nat × α} {es : List (Nat × α)}
    (h : e ∈ insertEntry k v es) : e = (k, v) ∨ e ∈ es := by
  induction es with
  | nil => simpa [insertEntry] using h
  | cons d rest ih =>
    simp only [insertEntry] at h
    split at h
    · simpa using h
    · split at h
      · rcases List.mem_cons.mp h with h | h
        · exact .inl h
        · exact .inr (List.mem_cons_of_mem _ h)
      · rcases List.mem_cons.mp h with h | h
        · exact .inr (by simp [h])
        · rcases ih h with h | h
          · exact .inl h
          · exact .inr (List.mem_cons_of_mem _ h)

theorem sorted_insertEntry {k : Nat} {v : α} {es : List (Nat × α)}
    (h : es.Pairwise fun a b => a.1 < b.1) :
    (insertEntry k v es).Pairwise fun a b => a.1 < b.1 := by
  induction es with
  | nil => simp [insertEntry]
  | cons d rest ih =>
    obtain ⟨hd, hr⟩ := List.pairwise_cons.mp h
    simp only [insertEntry]
    split
    · rename_i hk
      refine List.pairwise_cons.mpr ⟨fun e he => ?_, h⟩
      rcases List.mem_cons.mp he with rfl | he
      · exact hk
      · exact Nat.lt_trans hk (hd e he)
    · split
      · rename_i hk
        subst hk
        exact List.pairwise_cons.mpr ⟨hd, hr⟩
      · refine List.pairwise_cons.mpr ⟨fun e he => ?_, ih hr⟩
        rcases mem_insertEntry he with rfl | he
        · simp only
          omega
        · exact hd e he

def insert (m : KeyMap α) (k : Nat) (v : α) : KeyMap α :=
  ⟨insertEntry k v m.entries, sorted_insertEntry m.sorted⟩

def erase (m : KeyMap α) (k : Nat) : KeyMap α :=
  ⟨m.entries.filter fun e => e.1 ≠ k, m.sorted.filter _⟩

def get? (m : KeyMap α) (k : Nat) : Option α := m.entries.lookup k

/-- Changes the value of a key, which is `default` before there is one. -/
def alter (m : KeyMap α) (k : Nat) (default : α) (f : α → α) : KeyMap α :=
  m.insert k (f ((m.get? k).getD default))

def size (m : KeyMap α) : Nat := m.entries.length

def keys (m : KeyMap α) : List Nat := m.entries.map Prod.fst

def values (m : KeyMap α) : List α := m.entries.map Prod.snd

/-- The greatest key up to `k`. -/
def floor? (m : KeyMap α) (k : Nat) : Option Nat := (m.keys.takeWhile fun j => j ≤ k).getLast?

/-- The least key from `k` on. -/
def ceiling? (m : KeyMap α) (k : Nat) : Option Nat := m.keys.find? fun j => k ≤ j

theorem get?_empty (k : Nat) : (empty : KeyMap α).get? k = none := rfl

theorem lookup_cons_entry (i j : Nat) (w : α) (es : List (Nat × α)) :
    ((i, w) :: es).lookup j = if j = i then some w else es.lookup j := by
  by_cases h : j = i
  · subst h
    rw [List.lookup_cons_self, if_pos rfl]
  · have hkey : (j == i) = false := by simpa using h
    rw [List.lookup_cons, hkey, if_neg h]

theorem lookup_insertEntry (k j : Nat) (v : α) (es : List (Nat × α)) :
    (insertEntry k v es).lookup j = if j = k then some v else es.lookup j := by
  induction es with
  | nil => simp [insertEntry, lookup_cons_entry]
  | cons d rest ih =>
    obtain ⟨i, w⟩ := d
    simp only [insertEntry]
    split
    · rw [lookup_cons_entry]
    · split
      · rename_i hk
        subst hk
        simp only [lookup_cons_entry]
        split <;> rfl
      · rename_i hne
        simp only [lookup_cons_entry, ih]
        split <;> split <;> simp_all

theorem get?_insert (m : KeyMap α) (k j : Nat) (v : α) :
    (m.insert k v).get? j = if j = k then some v else m.get? j :=
  lookup_insertEntry k j v m.entries

theorem lookup_filter_ne (k j : Nat) (es : List (Nat × α)) :
    (es.filter fun e => e.1 ≠ k).lookup j = if j = k then none else es.lookup j := by
  induction es with
  | nil => simp
  | cons d rest ih =>
    obtain ⟨i, w⟩ := d
    by_cases hi : i = k
    · rw [List.filter_cons_of_neg (by simp [hi]), ih, lookup_cons_entry]
      split <;> simp_all
    · rw [List.filter_cons_of_pos (by simp [hi]), lookup_cons_entry, lookup_cons_entry, ih]
      split <;> split <;> simp_all

theorem get?_erase (m : KeyMap α) (k j : Nat) :
    (m.erase k).get? j = if j = k then none else m.get? j :=
  lookup_filter_ne k j m.entries

theorem lookup_eq_some_iff {k : Nat} {v : α} {es : List (Nat × α)}
    (h : es.Pairwise fun a b => a.1 < b.1) : es.lookup k = some v ↔ (k, v) ∈ es := by
  induction es with
  | nil => simp
  | cons d rest ih =>
    obtain ⟨i, w⟩ := d
    obtain ⟨hd, hr⟩ := List.pairwise_cons.mp h
    rw [lookup_cons_entry, List.mem_cons, ← ih hr]
    split
    · rename_i hk
      subst hk
      have hnone : rest.lookup k ≠ some v := fun he =>
        Nat.lt_irrefl k (hd (k, v) ((ih hr).mp he))
      simp [hnone, eq_comm]
    · rename_i hk
      simp [hk]

theorem mem_entries_iff (m : KeyMap α) (k : Nat) (v : α) :
    (k, v) ∈ m.entries ↔ m.get? k = some v :=
  (lookup_eq_some_iff m.sorted).symm

theorem nodup_keys (m : KeyMap α) : m.keys.Nodup :=
  List.pairwise_map.mpr (m.sorted.imp Nat.ne_of_lt)

end KeyMap

end BinTrace
