import BinTrace.Proofs.Reuse.Stats

/-!
Reuse distances by what was referenced, with no window and no tree. Of the addresses that have been
referenced since the last skip, in the order of their references, only the last occurrence of each
counts: the distance to an address is the number of distinct others behind it.
-/

namespace BinTrace.Reuse

/-- What is told to an analyzer. -/
inductive Event
  | reference (id address : Nat)
  | skip (amount : Nat)

/-- The addresses that were referenced since the last skip, the latest at the end. -/
def remember (history : List Nat) : Event → List Nat
  | .reference _ a => history ++ [a]
  | .skip _ => []

def history (events : List Event) : List Nat := events.foldl remember []

/-- Without skips every reference is remembered. -/
theorem history_references (id : Nat) (as : List Nat) : history (as.map (.reference id)) = as := by
  induction as using List.reverseRecOn with
  | nil => rfl
  | append_singleton as a ih =>
      rw [history, List.map_append, List.foldl_append, ← history, ih]
      rfl

/-- How many distinct other addresses were referenced after the last reference to an address. -/
def othersSince (history : List Nat) (a : Nat) : Nat :=
  (history.rtakeWhile (· ≠ a)).toFinset.card

/-- The distance of a reference in a window of the given capacity, where zero stands for no limit;
none if it is cold. -/
def distance? (capacity : Nat) (history : List Nat) (a : Nat) : Option Nat :=
  if a ∈ history ∧ (capacity = 0 ∨ othersSince history a < capacity) then
    some (othersSince history a)
  else none

/-- What is recorded of the references among some events. -/
def recorded (capacity : Nat) (history : List Nat) : List Event → List Record
  | [] => []
  | .reference id a :: rest =>
    (id, distance? capacity history a) :: recorded capacity (history ++ [a]) rest
  | .skip _ :: rest => recorded capacity [] rest

/-- The last of some addresses, as many as the capacity allows. -/
def newest (capacity : Nat) (l : List Nat) : List Nat :=
  if capacity = 0 then l else l.rtake capacity

/-- The distinct addresses of a history, cut to those that were used last, from the least to the
most recent. -/
def resident (capacity : Nat) (history : List Nat) : List Nat := newest capacity history.dedup

variable {capacity a d : Nat} {h l : List Nat}

theorem newest_suffix (capacity : Nat) (l : List Nat) : newest capacity l <:+ l := by
  unfold newest
  split
  · exact List.suffix_refl l
  · exact List.drop_suffix _ _

theorem length_newest_le (hc : capacity ≠ 0) (l : List Nat) :
    (newest capacity l).length ≤ capacity := by
  rw [newest, if_neg hc, List.rtake, List.length_drop]
  omega

theorem newest_eq_self (h : capacity = 0 ∨ l.length ≤ capacity) : newest capacity l = l := by
  unfold newest
  split
  · rfl
  · have hle : l.length ≤ capacity := by tauto
    rw [List.rtake, Nat.sub_eq_zero_of_le hle, List.drop_zero]

/-- As many elements can be cut off a suffix as off the whole list, if it has so many. -/
theorem rtake_of_suffix {n : Nat} {s : List Nat} (hs : s <:+ l) (hn : n ≤ s.length) :
    s.rtake n = l.rtake n := by
  obtain ⟨p, rfl⟩ := hs
  have hsub : (p ++ s).length - n = p.length + (s.length - n) := by
    rw [List.length_append]
    omega
  rw [List.rtake, List.rtake, hsub, List.drop_append,
    List.drop_eq_nil_of_le (Nat.le_add_right _ _), Nat.add_sub_cancel_left, List.nil_append]

theorem newest_concat (n : Nat) (l : List Nat) (a : Nat) :
    newest (n + 1) (l ++ [a]) = l.rtake n ++ [a] := by
  rw [newest, if_neg (Nat.succ_ne_zero n), List.rtake_concat_succ]

/-- A reference moves its address to the end. -/
theorem dedup_concat (h : List Nat) (a : Nat) :
    (h ++ [a]).dedup = h.dedup.filter (· ≠ a) ++ [a] := by
  induction h with
  | nil => simp
  | cons b rest ih =>
      by_cases hb : b ∈ rest
      · rw [List.cons_append, List.dedup_cons_of_mem (List.mem_append_left _ hb), ih,
          List.dedup_cons_of_mem hb]
      · rw [List.dedup_cons_of_notMem hb, List.cons_append]
        by_cases hba : b = a
        · subst hba
          rw [List.dedup_cons_of_mem (by simp), ih]
          simp
        · rw [List.dedup_cons_of_notMem (by simp [hb, hba]), ih]
          simp [hba]

theorem nodup_resident (capacity : Nat) (h : List Nat) : (resident capacity h).Nodup :=
  (List.nodup_dedup h).sublist (newest_suffix _ _).sublist

/-- What the window holds after a reference depends only on what it held before. -/
theorem resident_concat (capacity : Nat) (h : List Nat) (a : Nat) :
    resident capacity (h ++ [a]) =
      newest capacity ((resident capacity h).filter (· ≠ a) ++ [a]) := by
  rw [resident, dedup_concat]
  cases capacity with
  | zero => simp [resident, newest]
  | succ n =>
      rw [newest_concat, newest_concat]
      congr 1
      have hsuffix : (resident (n + 1) h).filter (· ≠ a) <:+ h.dedup.filter (· ≠ a) :=
        (newest_suffix _ _).filter _
      rcases Nat.lt_or_ge n h.dedup.length with hlong | hshort
      · have hlength : (resident (n + 1) h).length = n + 1 := by
          rw [resident, newest, if_neg (Nat.succ_ne_zero n), List.rtake, List.length_drop]
          omega
        have hfilter := (nodup_resident (n + 1) h).erase_eq_filter a
        have herase := List.length_erase (a := a) (l := resident (n + 1) h)
        refine (rtake_of_suffix hsuffix ?_).symm
        have heq : (resident (n + 1) h).filter (· ≠ a) = (resident (n + 1) h).erase a := by
          rw [hfilter]
          exact List.filter_congr fun b _ => by simp [bne, beq_eq_decide]
        rw [heq, herase, hlength]
        split <;> omega
      · rw [resident, newest_eq_self (.inr (by omega))]

/-- An address of the window moves to the end. -/
theorem resident_concat_of_mem {x y : List Nat} (hxy : resident capacity h = x ++ a :: y) :
    resident capacity (h ++ [a]) = x ++ y ++ [a] := by
  have hnodup := nodup_resident capacity h
  rw [hxy, List.nodup_middle, List.nodup_cons] at hnodup
  have hfilter : (x ++ a :: y).filter (· ≠ a) = x ++ y := by
    rw [List.filter_append, List.filter_cons_of_neg (by simp), ← List.filter_append]
    exact List.filter_eq_self.mpr fun b hb => decide_eq_true fun hba => hnodup.1 (hba ▸ hb)
  rw [resident_concat, hxy, hfilter, newest_eq_self]
  rcases Nat.eq_zero_or_pos capacity with hc | hc
  · exact .inl hc
  · have hle := length_newest_le (Nat.ne_of_gt hc) h.dedup
    rw [← resident, hxy, List.length_append, List.length_cons] at hle
    refine .inr ?_
    simp only [List.length_append, List.length_singleton]
    omega

/-- Any other address comes to the end of the window, which gives up its oldest one if it is
full. -/
theorem resident_concat_of_notMem (ha : a ∉ resident capacity h) :
    resident capacity (h ++ [a]) =
      (if capacity ≠ 0 ∧ capacity ≤ (resident capacity h).length then (resident capacity h).tail
        else resident capacity h) ++ [a] := by
  have hfilter : (resident capacity h).filter (· ≠ a) = resident capacity h :=
    List.filter_eq_self.mpr fun b hb => decide_eq_true fun hba => ha (hba ▸ hb)
  rw [resident_concat, hfilter]
  split
  · rename_i hfull
    obtain ⟨n, rfl⟩ := Nat.exists_eq_add_one_of_ne_zero hfull.1
    have hle : (resident (n + 1) h).length ≤ n + 1 := length_newest_le (Nat.succ_ne_zero n) h.dedup
    have hone : (resident (n + 1) h).length - n = 1 := by omega
    rw [newest_concat, List.rtake, hone, List.drop_one]
  · refine newest_eq_self ?_
    rw [List.length_append, List.length_singleton]
    omega

/-- Behind the last occurrence of an address are the distinct others that followed it. -/
theorem exists_dedup_eq (ha : a ∈ h) :
    ∃ x y, h.dedup = x ++ a :: y ∧ y.length = othersSince h a := by
  let q := h.rtakeWhile (· ≠ a)
  have haq : a ∉ q := fun hq => by simpa using List.mem_rtakeWhile_imp hq
  obtain ⟨p, hp⟩ : ∃ p, h.rdropWhile (· ≠ a) = p ++ [a] := by
    have hne : h.rdropWhile (· ≠ a) ≠ [] := fun hnil =>
      absurd rfl (of_decide_eq_true (List.rdropWhile_eq_nil_iff.mp hnil a ha))
    have hlast := List.rdropWhile_last_not _ _ hne
    refine ⟨(h.rdropWhile (· ≠ a)).dropLast, ?_⟩
    have heq : (h.rdropWhile (· ≠ a)).getLast hne = a := by simpa using hlast
    conv_lhs => rw [← List.dropLast_append_getLast hne, heq]
  have hsplit : h = p ++ a :: q := by
    have happend := List.rdropWhile_append_rtakeWhile (p := (· ≠ a)) (l := h)
    rw [hp, List.append_assoc, List.singleton_append] at happend
    exact happend.symm
  obtain ⟨x, hx⟩ := List.suffix_union_right p (a :: q.dedup)
  refine ⟨x, q.dedup, ?_, (List.card_toFinset q).symm⟩
  rw [hx, ← List.dedup_cons_of_notMem haq, ← List.dedup_append, ← hsplit]

/-- The window reaches to an address if there is room for those that were used later. -/
theorem exists_resident_eq {x y : List Nat} (hdedup : h.dedup = x ++ a :: y)
    (hfits : capacity = 0 ∨ y.length < capacity) : ∃ x', resident capacity h = x' ++ a :: y := by
  rw [resident, hdedup, newest]
  split
  · exact ⟨x, rfl⟩
  · have hlt : y.length < capacity := by tauto
    refine ⟨x.drop ((x ++ a :: y).length - capacity), ?_⟩
    rw [List.rtake, List.drop_append_of_le_length]
    rw [List.length_append, List.length_cons]
    omega

/-- A reference has a distance if its address is in the window, and then the distance tells how
many addresses there are behind it. -/
theorem distance?_of_mem (ha : a ∈ resident capacity h) :
    ∃ x y, resident capacity h = x ++ a :: y ∧ distance? capacity h a = some y.length := by
  have hmem : a ∈ h := List.mem_dedup.mp ((newest_suffix _ _).subset ha)
  obtain ⟨x, y, hdedup, hlength⟩ := exists_dedup_eq hmem
  have hfits : capacity = 0 ∨ y.length < capacity := by
    by_contra hlong
    rw [not_or, Nat.not_lt] at hlong
    have hsuffix : y <:+ h.dedup := by
      rw [hdedup]
      exact (List.suffix_cons a y).trans (List.suffix_append x _)
    rw [resident, newest, if_neg hlong.1, ← rtake_of_suffix hsuffix hlong.2] at ha
    have hnodup := List.nodup_dedup h
    rw [hdedup] at hnodup
    exact (List.nodup_cons.mp hnodup.of_append_right).1 (List.drop_subset _ _ ha)
  obtain ⟨x', hx'⟩ := exists_resident_eq hdedup hfits
  exact ⟨x', y, hx', by rw [distance?, ← hlength, if_pos ⟨hmem, hfits⟩]⟩

theorem distance?_of_notMem (ha : a ∉ resident capacity h) : distance? capacity h a = none := by
  refine if_neg fun ⟨hmem, hfits⟩ => ha ?_
  obtain ⟨x, y, hdedup, hlength⟩ := exists_dedup_eq hmem
  obtain ⟨x', hx'⟩ := exists_resident_eq hdedup (hlength ▸ hfits)
  rw [hx']
  simp

/-- A distance in a window of limited capacity is less than the capacity. -/
theorem distance?_lt (hd : distance? capacity h a = some d) : capacity = 0 ∨ d < capacity := by
  unfold distance? at hd
  split at hd
  · rename_i hfits
    cases hd
    exact hfits.2
  · cases hd

theorem lt_of_recorded {events : List Event} {r : Record} (hr : r ∈ recorded capacity h events)
    (hd : r.2 = some d) : capacity = 0 ∨ d < capacity := by
  induction events generalizing h with
  | nil => cases hr
  | cons event rest ih =>
      cases event with
      | reference id a =>
          rcases List.mem_cons.mp hr with rfl | hr
          · exact distance?_lt hd
          · exact ih hr
      | skip amount => exact ih hr

/-- A distance within the capacity falls in a bin. -/
theorem bin?_ne_none (individual : Nat) (hd : capacity = 0 ∨ d < capacity) :
    (BinRule.mk individual capacity).bin? d ≠ none := by
  rw [ne_eq, BinRule.bin?_eq_none_iff]
  dsimp only
  omega

/-- Every distance that is recorded falls in a bin. -/
theorem bin?_of_recorded {id : Nat} {events : List Event} (individual : Nat)
    (hd : some d ∈ Log.distancesOf id (recorded capacity h events)) :
    (BinRule.mk individual capacity).bin? d ≠ none := by
  obtain ⟨r, hr, hrd⟩ := List.mem_map.mp hd
  exact bin?_ne_none individual (lt_of_recorded (List.mem_filter.mp hr).1 hrd)

end BinTrace.Reuse
