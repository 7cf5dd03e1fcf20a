import BinTrace.Proofs.Reuse.History
import BinTrace.Proofs.Reuse.Totals

/-!
Spatial locality by what was referenced. The window is a queue, and beside it a map tells how often
each address occurs in the queue; the nearest address is the key next below or next above. Both hold
the last references since the latest skip, and so every distance is the least one to any of them.
-/

namespace BinTrace.Reuse

/-- How far the nearest of some addresses is; none if there are none. -/
def nearestOf? (addresses : List Nat) (a : Nat) : Option Nat := (addresses.map (Nat.dist a)).min?

namespace Spatial

/-- The references of a history that lie in a window; every window has room for one. -/
def inReach (capacity : Nat) (h : List Nat) : List Nat := newest (max 1 capacity) h

/-- What is recorded of the references among some events. -/
def recorded (capacity : Nat) (h : List Nat) : List Event → List Record
  | [] => []
  | .reference id a :: rest =>
    (id, nearestOf? (inReach capacity h) a) :: recorded capacity (h ++ [a]) rest
  | .skip _ :: rest => recorded capacity [] rest

def step (s : Spatial) : Event → Spatial
  | .reference id a => (s.process id a).2
  | .skip _ => s.skip

def run (s : Spatial) (events : List Event) : Spatial := events.foldl step s

/-! ### Addresses with how often they occur -/

/-- The map tells how often each address occurs in a list. -/
def Tallies (m : KeyMap Nat) (l : List Nat) : Prop :=
  ∀ a, m.get? a = if a ∈ l then some (l.count a) else none

variable {m : KeyMap Nat} {l h : List Nat} {s : Spatial} {a : Nat}

theorem tallies_empty : Tallies .empty [] := fun _ => rfl

theorem Tallies.getD (hm : Tallies m l) (a : Nat) : (m.get? a).getD 0 = l.count a := by
  rw [hm]
  split
  · rfl
  · rename_i ha
    rw [List.count_eq_zero.mpr ha, Option.getD_none]

theorem Tallies.mem_keys (hm : Tallies m l) : a ∈ m.keys ↔ a ∈ l := by
  rw [KeyMap.mem_keys, hm]
  split <;> simp_all

theorem Tallies.concat (hm : Tallies m l) (a : Nat) :
    Tallies (m.alter a 0 (· + 1)) (l ++ [a]) := by
  intro b
  rw [KeyMap.get?_alter, hm.getD]
  by_cases hb : b = a
  · subst hb
    simp
  · simp [hb, hm b, Ne.symm hb]

/-- One occurrence of an address less: with the last one its entry goes. -/
theorem Tallies.tail {count : Nat} (hm : Tallies m (a :: l)) (hcount : m.get? a = some count) :
    Tallies (if count ≤ 1 then m.erase a else m.insert a (count - 1)) l := by
  obtain rfl : l.count a + 1 = count := by
    rw [hm a, if_pos List.mem_cons_self, List.count_cons_self] at hcount
    exact Option.some.inj hcount
  intro b
  have hother (hb : b ≠ a) : m.get? b = if b ∈ l then some (l.count b) else none := by
    simp [hm b, hb, Ne.symm hb]
  split
  · rename_i hlast
    have ha : a ∉ l := List.count_eq_zero.mp (by omega)
    rw [KeyMap.get?_erase]
    split
    · rename_i hb
      rw [hb, if_neg ha]
    · rename_i hb
      exact hother hb
  · rename_i hmore
    have ha : a ∈ l := List.count_pos_iff.mp (by omega)
    rw [KeyMap.get?_insert]
    split
    · rename_i hb
      rw [hb, if_pos ha, Nat.add_sub_cancel]
    · rename_i hb
      exact hother hb

/-- The keys are the distinct addresses in order. -/
theorem Tallies.keys_eq (hm : Tallies m l) : m.keys = l.toFinset.sort := by
  have hset : m.keys.toFinset = l.toFinset := Finset.ext fun b => by
    rw [List.mem_toFinset, List.mem_toFinset, hm.mem_keys]
  rw [← hset]
  exact ((List.toFinset_sort _ m.nodup_keys).mpr (m.increasing_keys.imp Nat.le_of_lt)).symm

theorem Tallies.values_le (hm : Tallies m l) {n : Nat} (hn : n ∈ m.values) : n ≤ l.length := by
  obtain ⟨⟨b, _⟩, hb, rfl⟩ := List.mem_map.mp hn
  rw [KeyMap.mem_entries_iff, hm b] at hb
  split at hb
  · cases hb
    exact List.count_le_length
  · cases hb

/-! ### The nearest address -/

/-- An address of the list to which no other is nearer gives the distance. -/
theorem nearestOf?_eq {b : Nat} (hb : b ∈ l) (hnearest : ∀ c ∈ l, Nat.dist a b ≤ Nat.dist a c) :
    nearestOf? l a = some (Nat.dist a b) :=
  List.min?_eq_some_iff.mpr
    ⟨List.mem_map_of_mem hb, fun _ hd => by
      obtain ⟨c, hc, rfl⟩ := List.mem_map.mp hd
      exact hnearest c hc⟩

theorem Tallies.floor (hm : Tallies m l) {below : Nat} (hbelow : m.floor? a = some below) :
    below ∈ l ∧ Nat.dist a below = a - below ∧ ∀ c ∈ l, c ≤ a → a - below ≤ Nat.dist a c := by
  obtain ⟨hmem, hle, hgreatest⟩ := KeyMap.floor?_eq_some_iff.mp hbelow
  simp only [hm.mem_keys] at hmem hgreatest
  refine ⟨hmem, Nat.dist_eq_sub_of_le_right hle, fun c hc hca => ?_⟩
  rw [Nat.dist_eq_sub_of_le_right hca]
  exact Nat.sub_le_sub_left (hgreatest c hc hca) a

theorem Tallies.ceiling (hm : Tallies m l) {above : Nat} (habove : m.ceiling? a = some above) :
    above ∈ l ∧ Nat.dist a above = above - a ∧ ∀ c ∈ l, a ≤ c → above - a ≤ Nat.dist a c := by
  obtain ⟨hmem, hle, hleast⟩ := KeyMap.ceiling?_eq_some_iff.mp habove
  simp only [hm.mem_keys] at hmem hleast
  refine ⟨hmem, Nat.dist_eq_sub_of_le hle, fun c hc hac => ?_⟩
  rw [Nat.dist_eq_sub_of_le hac]
  exact Nat.sub_le_sub_right (hleast c hc hac) a

/-- The nearest address is the next one below or the next one above. -/
theorem nearest?_eq (hs : Tallies s.resident l) (a : Nat) : s.nearest? a = nearestOf? l a := by
  unfold nearest?
  cases hbelow : s.resident.floor? a with
  | none =>
      have hover : ∀ c ∈ l, a < c := fun c hc =>
        KeyMap.floor?_eq_none_iff.mp hbelow c (hs.mem_keys.mpr hc)
      cases habove : s.resident.ceiling? a with
      | none =>
          have hunder : ∀ c ∈ l, c < a := fun c hc =>
            KeyMap.ceiling?_eq_none_iff.mp habove c (hs.mem_keys.mpr hc)
          obtain rfl : l = [] := List.eq_nil_iff_forall_not_mem.mpr fun c hc =>
            Nat.lt_asymm (hover c hc) (hunder c hc)
          rfl
      | some above =>
          obtain ⟨hmem, hdist, hnearest⟩ := hs.ceiling habove
          dsimp only
          rw [← hdist] at hnearest ⊢
          exact (nearestOf?_eq hmem fun c hc => hnearest c hc (Nat.le_of_lt (hover c hc))).symm
  | some below =>
      obtain ⟨hmem, hdist, hnearest⟩ := hs.floor hbelow
      cases habove : s.resident.ceiling? a with
      | none =>
          have hunder : ∀ c ∈ l, c < a := fun c hc =>
            KeyMap.ceiling?_eq_none_iff.mp habove c (hs.mem_keys.mpr hc)
          dsimp only
          rw [← hdist] at hnearest ⊢
          exact (nearestOf?_eq hmem fun c hc => hnearest c hc (Nat.le_of_lt (hunder c hc))).symm
      | some above =>
          obtain ⟨hmem', hdist', hnearest'⟩ := hs.ceiling habove
          have hboth : ∀ c ∈ l, min (a - below) (above - a) ≤ Nat.dist a c := by
            intro c hc
            rcases Nat.le_total c a with hca | hac
            · exact (Nat.min_le_left _ _).trans (hnearest c hc hca)
            · exact (Nat.min_le_right _ _).trans (hnearest' c hc hac)
          dsimp only
          rcases Nat.le_total (a - below) (above - a) with hle | hle
          · rw [Nat.min_eq_left hle, ← hdist] at hboth ⊢
            exact (nearestOf?_eq hmem hboth).symm
          · rw [Nat.min_eq_right hle, ← hdist'] at hboth ⊢
            exact (nearestOf?_eq hmem' hboth).symm

/-! ### Runs -/

/-- The queue of an analyzer and its map hold the references of a history that are in reach. -/
structure Tracks (s : Spatial) (capacity : Nat) (h : List Nat) : Prop where
  capacity_eq : s.capacity = max 1 capacity
  recent_eq : s.recent = inReach capacity h
  tallies : Tallies s.resident s.recent

variable {capacity : Nat}

theorem inReach_nil (capacity : Nat) : inReach capacity [] = [] :=
  newest_eq_self (.inr (Nat.zero_le _))

/-- A window that is full gives up its oldest reference for a new one. -/
theorem inReach_concat (capacity : Nat) (h : List Nat) (a : Nat) : inReach capacity (h ++ [a]) =
    (if max 1 capacity ≤ (inReach capacity h).length then (inReach capacity h).tail
      else inReach capacity h) ++ [a] := by
  obtain ⟨n, hn⟩ : ∃ n, max 1 capacity = n + 1 := ⟨max 1 capacity - 1, by omega⟩
  have hlength : (inReach capacity h).length = min (n + 1) h.length := by
    rw [inReach, hn, newest, if_neg (Nat.succ_ne_zero n), List.rtake, List.length_drop]
    omega
  rw [hlength, inReach, inReach, hn, newest_concat, newest, if_neg (Nat.succ_ne_zero n)]
  congr 1
  split
  · rw [List.rtake, List.rtake, List.tail_drop]
    congr 1
    omega
  · rw [List.rtake, List.rtake]
    congr 1
    omega

theorem Tallies.evict (ht : Tallies s.resident s.recent) :
    s.evict.recent = s.recent.tail ∧ Tallies s.evict.resident s.evict.recent := by
  unfold Spatial.evict
  split
  · rename_i hrecent
    exact ⟨by rw [hrecent]; rfl, ht⟩
  · rename_i oldest rest hrecent
    rw [hrecent] at ht
    split
    · rename_i count hcount
      exact ⟨by rw [hrecent]; rfl, ht.tail hcount⟩
    · rename_i hcount
      simp [ht oldest] at hcount

/-- What one reference does. -/
theorem Tracks.process (ht : s.Tracks capacity h) (id a : Nat) :
    (s.process id a).1 = nearestOf? (inReach capacity h) a ∧
      (s.process id a).2.Tracks capacity (h ++ [a]) := by
  refine ⟨ht.recent_eq ▸ nearest?_eq ht.tallies a, ?_⟩
  obtain ⟨hcapacity, hrecent, htallies⟩ := ht
  have hnext := inReach_concat capacity h a
  rw [← hcapacity, ← hrecent] at hnext
  unfold Spatial.process
  dsimp only
  split
  · rename_i hfull
    obtain ⟨htail, htallies'⟩ :=
      Tallies.evict (s := { s with log := s.log.record id (s.nearest? a) }) htallies
    refine ⟨(keeps_evict _).1.trans hcapacity, ?_, htallies'.concat a⟩
    rw [hnext, if_pos hfull]
    exact congrArg (· ++ [a]) htail
  · rename_i hroom
    exact ⟨hcapacity, by rw [hnext, if_neg hroom], htallies.concat a⟩

theorem Tracks.skip (ht : s.Tracks capacity h) : s.skip.Tracks capacity [] :=
  ⟨ht.capacity_eq, (inReach_nil capacity).symm, tallies_empty⟩

theorem tracks_new (capacity individual maxTracking : Nat) :
    (new capacity individual maxTracking).Tracks capacity [] :=
  ⟨rfl, (inReach_nil capacity).symm, tallies_empty⟩

/-- What a whole run does: it records the distances to the nearest addresses in reach. -/
theorem Tracks.run {rs : List Record} (events : List Event) (ht : s.Tracks capacity h)
    (hl : s.log.Tells rs) : (s.run events).Tracks capacity (events.foldl remember h) ∧
      (s.run events).log.Tells (rs ++ recorded capacity h events) ∧
      (s.run events).log.rule = s.log.rule := by
  induction events generalizing s h rs with
  | nil =>
      rw [recorded, List.append_nil]
      exact ⟨ht, hl, rfl⟩
  | cons event rest ih =>
      cases event with
      | reference id a =>
          obtain ⟨hd, htracks⟩ := ht.process id a
          have hlog := s.log_process id a
          rw [hd] at hlog
          have htells := hl.record id (nearestOf? (inReach capacity h) a)
          rw [← hlog] at htells
          obtain ⟨hrun, hrecords, hrule⟩ := ih htracks htells
          rw [List.append_assoc, List.singleton_append] at hrecords
          refine ⟨hrun, hrecords, hrule.trans ?_⟩
          rw [hlog]
          rfl
      | skip amount =>
          exact ih ht.skip hl

/-- For every capacity, limits and events: a reference gets the least distance to the references in
reach, and is recorded under its id with it; the addresses that are active are those in reach, in
increasing order and each once; and the log counts for each id the distances of its references in
their bins, and as misses exactly those with none in reach or beyond the tracking maximum. No count
of an address exceeds the number of references in reach. -/
theorem nearest_run (capacity individual maxTracking : Nat) (events : List Event) :
    let s := (new capacity individual maxTracking).run events
    let reach := inReach capacity (history events)
    let rs := recorded capacity [] events
    (∀ id a, (s.process id a).1 = nearestOf? reach a ∧
      (s.process id a).2.log = s.log.record id (nearestOf? reach a)) ∧
      s.active = reach.toFinset.sort ∧
      s.log.Tells rs ∧ s.log.rule = ⟨individual, maxTracking⟩ ∧
      (∀ id stats, s.log.stats? id = some stats → stats.misses = (Log.distancesOf id rs).countP
        fun d => d.all fun distance => maxTracking ≠ 0 ∧ maxTracking < distance) ∧
      ∀ count ∈ s.resident.values, count ≤ max 1 capacity := by
  intro s reach rs
  obtain ⟨htracks, htells, hrule⟩ := (tracks_new capacity individual maxTracking).run events
    (Log.tells_nil ⟨individual, maxTracking⟩)
  replace hrule : s.log.rule = ⟨individual, maxTracking⟩ := hrule
  refine ⟨fun id a => ?_, ?_, htells, hrule, fun id stats hstats => ?_, fun count hcount => ?_⟩
  · have hd := (htracks.process id a).1
    exact ⟨hd, (s.log_process id a).trans (congrArg (s.log.record id) hd)⟩
  · exact htracks.tallies.keys_eq.trans (congrArg (·.toFinset.sort) htracks.recent_eq)
  · obtain ⟨-, hown, hcounts⟩ := htells.stats id stats hstats
    rw [hcounts.misses_eq, hown, hrule]
    refine List.countP_congr fun d _ => ?_
    cases d with
    | none => simp
    | some d => simp [BinRule.bin?_eq_none_iff]
  · refine (htracks.tallies.values_le hcount).trans ?_
    rw [htracks.recent_eq]
    exact length_newest_le (by omega) _

end Spatial

end BinTrace.Reuse
