import BinTrace.Proofs.Reuse.History
import BinTrace.Proofs.Reuse.WeightTree
import BinTrace.Reuse.Exact

/-!
The window of exact reuse distances. Its two parts hold the same addresses, each under the number of
its last reference, and in the order of these numbers the addresses are those that a history of all
references leaves in the window. So every distance that is recorded is the one of the history.
-/

namespace BinTrace.Reuse

open WeightTree

namespace Exact

def step (e : Exact) : Event → Exact
  | .reference id a => (e.process id a).2
  | .skip amount => e.skip amount

def run (e : Exact) (events : List Event) : Exact := events.foldl step e

/-- The order holds every address once, under a number below the next one, and tells the same of
each address as the window does, but for stale ones that have been taken out of the order only. -/
structure Synced (e : Exact) (stale : List Nat) : Prop where
  valid : e.order.Valid
  weight_eq : ∀ n ∈ e.order.entries, n.weight = 1
  key_lt : ∀ n ∈ e.order.entries, n.key < e.sequence
  nodup : e.active.Nodup
  get?_iff : ∀ b ∉ stale, ∀ k, e.window.get? b = some k ↔ ⟨k, b, 1⟩ ∈ e.order.entries
  notMem : ∀ b ∈ stale, b ∉ e.active

variable {e : Exact} {a : Nat} {h : List Nat} {stale : List Nat}

theorem Synced.mem_active (hs : e.Synced stale) (ha : a ∉ stale) :
    a ∈ e.active ↔ ∃ k, e.window.get? a = some k := by
  rw [active, List.mem_map]
  constructor
  · rintro ⟨⟨k, b, w⟩, hn, rfl⟩
    obtain rfl : w = 1 := hs.weight_eq _ hn
    exact ⟨k, (hs.get?_iff _ ha k).mpr hn⟩
  · rintro ⟨k, hk⟩
    exact ⟨_, (hs.get?_iff a ha k).mp hk, rfl⟩

theorem Synced.exists_split (hs : e.Synced []) (ha : a ∈ e.active) :
    ∃ left last right, e.order.entries = left ++ ⟨last, a, 1⟩ :: right := by
  obtain ⟨last, hlast⟩ := (hs.mem_active (by simp)).mp ha
  obtain ⟨left, right, hsplit⟩ := List.append_of_mem ((hs.get?_iff a (by simp) last).mp hlast)
  exact ⟨left, last, right, hsplit⟩

theorem Synced.get?_of_split (hs : e.Synced []) {left right : List (WeightEntry Nat)} {last : Nat}
    (hsplit : e.order.entries = left ++ ⟨last, a, 1⟩ :: right) : e.window.get? a = some last :=
  (hs.get?_iff a (by simp) last).mpr (by simp [hsplit])

theorem Synced.get?_of_notMem (hs : e.Synced []) (ha : a ∉ e.active) : e.window.get? a = none := by
  cases hk : e.window.get? a with
  | none => rfl
  | some k => exact absurd ((hs.mem_active (by simp)).mpr ⟨k, hk⟩) ha

/-- The window and the order hold the same addresses with the same numbers. -/
theorem Synced.entries_perm (hs : e.Synced []) :
    e.window.entries.Perm (e.order.entries.map fun n => (n.value, n.key)) := by
  have hwindow : e.window.entries.Nodup := List.Nodup.of_map Prod.fst e.window.nodup_keys
  have horder : (e.order.entries.map fun n => (n.value, n.key)).Nodup :=
    List.Nodup.of_map Prod.fst (by rw [List.map_map]; exact hs.nodup)
  refine (List.perm_ext_iff_of_nodup hwindow horder).mpr fun (b, k) => ?_
  rw [KeyMap.mem_entries_iff, hs.get?_iff b (by simp), List.mem_map]
  constructor
  · exact fun hn => ⟨_, hn, rfl⟩
  · rintro ⟨⟨k', b', w⟩, hn, heq⟩
    obtain rfl : w = 1 := hs.weight_eq _ hn
    cases heq
    exact hn

/-- The window holds as many addresses as the order. -/
theorem Synced.size_eq (hs : e.Synced []) : e.window.size = e.active.length := by
  rw [KeyMap.size, hs.entries_perm.length_eq, active, List.length_map, List.length_map]

theorem Synced.touch (hs : e.Synced [a]) : (e.touch a).Synced [] ∧
    (e.touch a).order.entries = e.order.entries ++ [⟨e.sequence, a, 1⟩] := by
  obtain ⟨hentries, hvalid⟩ := insert_last hs.valid hs.key_lt a 1
  have hactive : (e.touch a).active = e.active ++ [a] := by
    show ((e.order.insert e.sequence a 1).entries).map WeightEntry.value = _
    rw [hentries, List.map_append]
    rfl
  have hfresh : a ∉ e.active := hs.notMem a List.mem_cons_self
  refine ⟨⟨hvalid, ?_, ?_, ?_, fun b _ k => ?_, by simp⟩, hentries⟩
  · intro n hn
    rw [Exact.touch, hentries] at hn
    rcases List.mem_append.mp hn with hn | hn
    · exact hs.weight_eq n hn
    · obtain rfl := List.mem_singleton.mp hn
      rfl
  · intro n hn
    rw [Exact.touch, hentries] at hn
    rcases List.mem_append.mp hn with hn | hn
    · exact Nat.lt_succ_of_lt (hs.key_lt n hn)
    · obtain rfl := List.mem_singleton.mp hn
      exact Nat.lt_succ_self _
  · rw [hactive]
    exact List.nodup_append.mpr ⟨hs.nodup, List.nodup_singleton a, fun b hb c hc hbc =>
      hfresh (List.mem_singleton.mp hc ▸ hbc ▸ hb)⟩
  · show (e.window.insert a e.sequence).get? b = some k ↔
      ⟨k, b, 1⟩ ∈ (e.order.insert e.sequence a 1).entries
    rw [hentries, KeyMap.get?_insert, List.mem_append, List.mem_singleton]
    split
    · rename_i hb
      subst hb
      have hout : (⟨k, b, 1⟩ : WeightEntry Nat) ∉ e.order.entries := fun hn =>
        hfresh (List.mem_map.mpr ⟨_, hn, rfl⟩)
      simp [hout, eq_comm]
    · rename_i hb
      rw [hs.get?_iff b (by simpa using hb)]
      simp [hb]

/-- An address is taken out of the order, and is stale in the window. -/
theorem Synced.takeOut (hs : e.Synced []) {left right : List (WeightEntry Nat)}
    {n : WeightEntry Nat} (hsplit : e.order.entries = left ++ n :: right) (log : Log) :
    let e' := { e with order := (e.order.remove n.key).2, log }
    e'.Synced [n.value] ∧ e'.order.entries = left ++ right := by
  obtain ⟨-, hentries, hvalid⟩ := remove_at hs.valid hsplit
  have hactive : e.active =
      left.map WeightEntry.value ++ n.value :: right.map WeightEntry.value := by
    rw [active, hsplit, List.map_append, List.map_cons]
  have hnodup := hs.nodup
  rw [hactive, List.nodup_middle, ← List.map_append] at hnodup
  obtain ⟨hout, hrest⟩ := List.nodup_cons.mp hnodup
  have hactive' : (e.order.remove n.key).2.entries.map WeightEntry.value =
      (left ++ right).map WeightEntry.value := by rw [hentries]
  have hsub : ∀ m ∈ left ++ right, m ∈ e.order.entries := fun m hm => by
    rw [hsplit]
    exact (List.sublist_cons_self n right).append_left left |>.subset hm
  refine ⟨⟨hvalid, fun m hm => hs.weight_eq m (hsub m (hentries ▸ hm)),
    fun m hm => hs.key_lt m (hsub m (hentries ▸ hm)), ?_, fun b hb k => ?_, fun b hb => ?_⟩,
    hentries⟩
  · show ((e.order.remove n.key).2.entries.map WeightEntry.value).Nodup
    rwa [hactive']
  · show e.window.get? b = some k ↔ ⟨k, b, 1⟩ ∈ (e.order.remove n.key).2.entries
    rw [hs.get?_iff b (by simp), hentries]
    refine ⟨fun hm => ?_, hsub _⟩
    rw [hsplit, List.mem_append, List.mem_cons] at hm
    rcases hm with hm | rfl | hm
    · exact List.mem_append_left _ hm
    · exact absurd List.mem_cons_self hb
    · exact List.mem_append_right _ hm
  · obtain rfl := List.mem_singleton.mp hb
    show n.value ∉ (e.order.remove n.key).2.entries.map WeightEntry.value
    rwa [hactive']

/-- A stale address is taken out of the window too. -/
theorem Synced.forget (hs : e.Synced [a]) : { e with window := e.window.erase a }.Synced [] := by
  have hout : a ∉ e.active := hs.notMem a List.mem_cons_self
  refine ⟨hs.valid, hs.weight_eq, hs.key_lt, hs.nodup, fun b _ k => ?_, by simp⟩
  show (e.window.erase a).get? b = some k ↔ ⟨k, b, 1⟩ ∈ e.order.entries
  rw [KeyMap.get?_erase]
  split
  · rename_i hb
    subst hb
    have hnone : (⟨k, b, 1⟩ : WeightEntry Nat) ∉ e.order.entries := fun hn =>
      hout (List.mem_map.mpr ⟨_, hn, rfl⟩)
    simp [hnone]
  · rename_i hb
    exact hs.get?_iff b (by simpa using hb) k

/-- The window gives up its oldest address if it is full. -/
theorem Synced.evict (hs : e.Synced []) : e.evict.Synced [] ∧ e.evict.active =
    if e.capacity ≠ 0 ∧ e.capacity ≤ e.active.length then e.active.tail else e.active := by
  unfold Exact.evict
  rw [hs.size_eq]
  split
  · rename_i hfull
    have hsome : e.order.entries ≠ [] := by
      intro hnil
      rw [active, hnil] at hfull
      exact hfull.1 (Nat.le_zero.mp hfull.2)
    obtain ⟨oldest, rest, hsplit⟩ := List.exists_cons_of_ne_nil hsome
    have hfirst : e.order.entries = [] ++ oldest :: rest := hsplit
    have hmin : e.order.minKey? = some oldest.key := by
      rw [minKey?_eq, hsplit]
      rfl
    have hremoved := (remove_at hs.valid hfirst).1
    -- out of the order first, which leaves the address stale, and then out of the window
    obtain ⟨hstale, hentries⟩ := hs.takeOut hfirst e.log
    rw [hmin]
    dsimp only
    rcases hremove : e.order.remove oldest.key with ⟨victim?, order⟩
    rw [hremove] at hremoved hstale hentries
    obtain rfl : victim? = some oldest := hremoved
    refine ⟨hstale.forget, ?_⟩
    show order.entries.map WeightEntry.value = e.active.tail
    rw [show order.entries = rest from hentries, active, hsplit]
    rfl
  · exact ⟨hs, rfl⟩

theorem keeps_evict (e : Exact) : e.evict.capacity = e.capacity ∧ e.evict.log = e.log := by
  unfold Exact.evict
  split
  · split
    · split <;> exact ⟨rfl, rfl⟩
    · exact ⟨rfl, rfl⟩
  · exact ⟨rfl, rfl⟩

/-- Without a limit no address is given up. -/
theorem evict_of_unbounded (hc : e.capacity = 0) : e.evict = e :=
  if_neg fun h => h.1 hc

/-- What a reference leaves of an analyzer besides its order. -/
structure Referred (e e' : Exact) (id a : Nat) (distance : Option Nat) : Prop where
  synced : e'.Synced []
  capacity_eq : e'.capacity = e.capacity
  window_eq : e'.window = e.window.insert a e.sequence
  sequence_eq : e'.sequence = e.sequence + 1
  log_eq : e'.log = e.log.record id distance

/-- A reference to an address of the window: its distance is the number of addresses behind it, and
it moves to the end. -/
theorem Synced.process_of_mem (hs : e.Synced []) {left right : List (WeightEntry Nat)} {last : Nat}
    (hsplit : e.order.entries = left ++ ⟨last, a, 1⟩ :: right) (id : Nat) :
    (e.process id a).1 = some right.length ∧
      Referred e (e.process id a).2 id a (some right.length) ∧
      (e.process id a).2.order.entries = left ++ right ++ [⟨e.sequence, a, 1⟩] := by
  have hlast := hs.get?_of_split hsplit
  have hdistance : e.order.weightAbove last = right.length := by
    have hinc := hs.valid.increasing
    rw [hsplit] at hinc
    rw [weightAbove_eq hs.valid, hsplit, hinc.at_entry.2.2, weightOf,
      List.map_congr_left (g := fun _ => 1) fun m hm => hs.weight_eq m (by simp [hsplit, hm])]
    simp
  obtain ⟨hstale, hentries⟩ := hs.takeOut hsplit (e.log.record id (some right.length))
  obtain ⟨hsynced, htouched⟩ := hstale.touch
  unfold process
  rw [hlast]
  dsimp only
  rw [hdistance]
  exact ⟨rfl, ⟨hsynced, rfl, rfl, rfl, rfl⟩, htouched.trans (congrArg (· ++ _) hentries)⟩

/-- A reference to an address that is not in the window: the window makes room for it. -/
theorem Synced.process_of_notMem (hs : e.Synced []) (ha : a ∉ e.active) (id : Nat) :
    (e.process id a).1 = none ∧ Referred e.evict (e.process id a).2 id a none ∧
      (e.process id a).2.order.entries = e.evict.order.entries ++ [⟨e.evict.sequence, a, 1⟩] := by
  have hnone := hs.get?_of_notMem ha
  obtain ⟨hevict, hactive⟩ := hs.evict
  have hfresh : a ∉ e.evict.active := by
    rw [hactive]
    split
    · exact fun hmem => ha (List.mem_of_mem_tail hmem)
    · exact ha
  have hstale : { e.evict with log := e.evict.log.record id none }.Synced [a] :=
    ⟨hevict.valid, hevict.weight_eq, hevict.key_lt, hevict.nodup,
      fun b _ => hevict.get?_iff b (by simp), fun b hb => List.mem_singleton.mp hb ▸ hfresh⟩
  obtain ⟨hsynced, htouched⟩ := hstale.touch
  unfold process
  rw [hnone]
  exact ⟨rfl, ⟨hsynced, rfl, rfl, rfl, rfl⟩, htouched⟩

/-- What is recorded of a reference is the distance that it gets. -/
theorem log_process (e : Exact) (id address : Nat) :
    (e.process id address).2.log = e.log.record id (e.process id address).1 := by
  unfold process
  cases e.window.get? address with
  | some last => rfl
  | none =>
      show e.evict.log.record id none = e.log.record id none
      rw [(keeps_evict e).2]

/-- The window holds what a history leaves in it, and every reference gets the distance that it has
in the history. -/
structure Tracks (e : Exact) (capacity : Nat) (h : List Nat) : Prop where
  synced : e.Synced []
  capacity_eq : e.capacity = capacity
  active_eq : e.active = resident capacity h

/-- What one reference does. -/
theorem Tracks.process {capacity : Nat} (ht : e.Tracks capacity h) (id a : Nat) :
    (e.process id a).1 = distance? capacity h a ∧ (e.process id a).2.Tracks capacity (h ++ [a]) ∧
      (e.process id a).2.log = e.log.record id (distance? capacity h a) := by
  obtain ⟨hs, rfl, hactive⟩ := ht
  by_cases ha : a ∈ e.active
  · obtain ⟨left, last, right, hsplit⟩ := hs.exists_split ha
    obtain ⟨x, y, hxy, hdistance⟩ := distance?_of_mem (hactive ▸ ha)
    obtain ⟨rfl, rfl⟩ : left.map WeightEntry.value = x ∧ right.map WeightEntry.value = y := by
      -- an address occurs once, so there is one way to cut the window at it
      have hboth : x ++ a :: y =
          left.map WeightEntry.value ++ a :: right.map WeightEntry.value := by
        rw [← hxy, ← hactive, active, hsplit, List.map_append, List.map_cons]
      have hnodup := hs.nodup
      rw [hactive, hxy, List.nodup_middle, List.nodup_cons, List.mem_append, not_or] at hnodup
      obtain ⟨hx, -, hy⟩ := (List.append_cons_inj_of_notMem hnodup.1.1 hnodup.1.2).mp hboth
      exact ⟨hx.symm, hy.symm⟩
    obtain ⟨hd, href, hentries⟩ := hs.process_of_mem hsplit id
    rw [hdistance, List.length_map]
    refine ⟨hd, ⟨href.synced, href.capacity_eq, ?_⟩, href.log_eq⟩
    rw [active, hentries, resident_concat_of_mem hxy]
    simp
  · obtain ⟨hd, href, hentries⟩ := hs.process_of_notMem ha id
    obtain ⟨hcapacity, hlog⟩ := keeps_evict e
    have hevicted := hs.evict.2
    rw [hactive] at ha hevicted
    rw [distance?_of_notMem ha]
    refine ⟨hd, ⟨href.synced, href.capacity_eq.trans hcapacity, ?_⟩, ?_⟩
    · rw [resident_concat_of_notMem ha, ← hevicted, active, hentries, List.map_append]
      rfl
    · rw [href.log_eq, hlog]

/-- A window that is empty holds what no history leaves in it. -/
theorem tracks_of_empty (hw : e.window = .empty) (ho : e.order = .leaf) :
    e.Tracks e.capacity [] := by
  have hnone : e.order.entries = [] := by rw [ho]; rfl
  have hactive : e.active = [] := by rw [active, hnone]; rfl
  refine ⟨⟨ho ▸ .leaf, ?_, ?_, hactive ▸ .nil, fun b _ k => ?_, ?_⟩, rfl, ?_⟩
  · exact fun n hn => absurd (hnone ▸ hn) List.not_mem_nil
  · exact fun n hn => absurd (hnone ▸ hn) List.not_mem_nil
  · rw [hw, KeyMap.get?_empty, hnone]
    simp
  · exact fun b hb => absurd hb List.not_mem_nil
  · rw [hactive]
    simp [resident, newest]

theorem Tracks.skip {capacity : Nat} (ht : e.Tracks capacity h) (amount : Nat) :
    (e.skip amount).Tracks capacity [] := by
  have hempty := tracks_of_empty (e := e.skip amount) rfl rfl
  rwa [show (e.skip amount).capacity = capacity from ht.capacity_eq] at hempty

/-- What a whole run does: it records the distances that the history gives. -/
theorem Tracks.run {capacity : Nat} {rs : List Record} (events : List Event)
    (ht : e.Tracks capacity h) (hl : e.log.Tells rs) :
    (e.run events).Tracks capacity (events.foldl remember h) ∧
      (e.run events).log.Tells (rs ++ recorded capacity h events) ∧
      (e.run events).log.rule = e.log.rule := by
  induction events generalizing e h rs with
  | nil =>
      rw [recorded, List.append_nil]
      exact ⟨ht, hl, rfl⟩
  | cons event rest ih =>
      cases event with
      | reference id a =>
          obtain ⟨-, htracks, hlog⟩ := ht.process id a
          have htells := hl.record id (distance? capacity h a)
          rw [← hlog] at htells
          obtain ⟨hrun, hrecords, hrule⟩ := ih htracks htells
          rw [List.append_assoc, List.singleton_append] at hrecords
          refine ⟨hrun, hrecords, hrule.trans ?_⟩
          rw [hlog]
          rfl
      | skip amount => exact ih (ht.skip amount) hl

/-- How many references of an id were counted as misses. -/
def misses (e : Exact) (id : Nat) : Nat := ((e.log.stats? id).map Stats.misses).getD 0

/-- A reference is counted as a miss exactly if its address is not in the window of the history. -/
theorem misses_process (individual : Nat) (events : List Event) (id a : Nat) {capacity : Nat} :
    let e := (new capacity individual).run events
    (e.process id a).2.misses id =
      e.misses id + if a ∈ resident capacity (history events) then 0 else 1 := by
  intro e
  have hnew : (new capacity individual).Tracks capacity [] := tracks_of_empty rfl rfl
  obtain ⟨htracks, htells, hrule⟩ := hnew.run events (Log.tells_nil ⟨individual, capacity⟩)
  obtain ⟨-, hstats, -⟩ := htells.getD id
  have hbin : (distance? capacity (history events) a).bind (BinRule.mk individual capacity).bin? =
      none ↔ a ∉ resident capacity (history events) := by
    constructor
    · intro hnone ha
      obtain ⟨x, y, -, hd⟩ := distance?_of_mem ha
      rw [hd] at hnone
      exact bin?_ne_none individual (distance?_lt hd) hnone
    · exact fun ha => by rw [distance?_of_notMem ha, Option.bind_none]
  have hbefore : ((e.log.stats? id).getD { id, rule := e.log.rule }).misses = e.misses id := by
    rw [misses]
    cases e.log.stats? id <;> rfl
  have hlog : (e.process id a).2.log = e.log.record id (distance? capacity (history events) a) :=
    (htracks.process id a).2.2
  rw [misses, hlog, Log.stats?_record, if_pos rfl, Option.map_some, Option.getD_some,
    Stats.misses_record, hbefore, hstats.trans hrule]
  show _ + (if (distance? capacity (history events) a).bind (BinRule.mk individual capacity).bin? =
    none then 1 else 0) = _
  simp only [hbin, ite_not]

/-- For every capacity and limit of single bins, after any events: a reference gets the distance
that the history gives, the window holds the addresses that were used last, and the log counts for
each id the distances of its references in their bins, and as misses exactly the cold ones. -/
theorem distances_run (capacity individual : Nat) (events : List Event) :
    let e := (new capacity individual).run events
    let rs := recorded capacity [] events
    (∀ id a, (e.process id a).1 = distance? capacity (history events) a) ∧
      e.active = resident capacity (history events) ∧
      e.log.Tells rs ∧ e.log.rule = ⟨individual, capacity⟩ ∧
      ∀ id s, e.log.stats? id = some s → s.misses = (Log.distancesOf id rs).count none := by
  intro e rs
  have hnew : (new capacity individual).Tracks capacity [] := tracks_of_empty rfl rfl
  obtain ⟨htracks, htells, hsame⟩ := hnew.run events (Log.tells_nil ⟨individual, capacity⟩)
  have hrule : e.log.rule = ⟨individual, capacity⟩ := hsame
  refine ⟨fun id a => (htracks.process id a).1, htracks.active_eq, htells, hrule, fun id s hs => ?_⟩
  obtain ⟨-, hown, hcounts⟩ := htells.stats id s hs
  rw [hcounts.misses_eq, hown, hrule, List.nil_append, List.count]
  refine List.countP_congr fun d hd => ?_
  cases d with
  | none => simp
  | some d => simpa using bin?_of_recorded individual hd

end Exact

end BinTrace.Reuse
