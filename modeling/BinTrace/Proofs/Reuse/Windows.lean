import BinTrace.Proofs.Reuse.Totals

/-!
What an analyzer makes of references some of which are left out. A log depends on nothing but its
records, so what is recorded in one run after another is the sum of what each run alone records.
When references have been left out, an exact or a spatial analyzer goes on as if it were new, and so
each window between them is a run of its own. An approximate one still knows how many addresses it
has seen.
-/

namespace BinTrace.Reuse

open KeyMap

/-! ### Logs and their sums -/

namespace Stats

/-- No bin is there without a distance in it. -/
def Filled (s : Stats) : Prop := ∀ bin, s.bins.get? bin ≠ some 0

theorem Filled.record {s : Stats} (h : s.Filled) (d : Option Nat) : (s.record d).Filled := by
  unfold Stats.record
  dsimp only
  split
  · intro bin
    rw [alter, get?_insert]
    split
    · simp
    · exact h bin
  · exact h

theorem Filled.mem_distances {s : Stats} (h : s.Filled) (bin : Nat) :
    bin ∈ s.distances ↔ 0 < s.count bin := by
  rw [distances, mem_keys, count]
  cases hbin : s.bins.get? bin with
  | none => simp
  | some n => simpa using Nat.pos_of_ne_zero fun hzero => h bin (hzero ▸ hbin)

end Stats

namespace Log

def misses (l : Log) (id : Nat) : Nat := ((l.stats? id).map Stats.misses).getD 0

/-- How many references of an id are counted in a bin. -/
def count (l : Log) (id bin : Nat) : Nat := ((l.stats? id).map fun s => s.count bin).getD 0

/-- The bins of an id. -/
def bins (l : Log) (id : Nat) : List Nat := ((l.stats? id).map Stats.distances).getD []

/-- The statistics in a log are, id by id, the sums of those in some others. -/
structure SumOf (l : Log) (parts : List Log) : Prop where
  rule_eq : ∀ p ∈ parts, p.rule = l.rule
  stats : ∀ id s, l.stats? id = some s → s.id = id ∧ s.rule = l.rule
  none_iff : ∀ id, l.stats? id = none ↔ ∀ p ∈ parts, p.stats? id = none
  accesses_eq : ∀ id, l.accesses id = (parts.map fun p => p.accesses id).sum
  misses_eq : ∀ id, l.misses id = (parts.map fun p => p.misses id).sum
  count_eq : ∀ id bin, l.count id bin = (parts.map fun p => p.count id bin).sum
  mem_bins_iff : ∀ id bin, bin ∈ l.bins id ↔ ∃ p ∈ parts, bin ∈ p.bins id

/-- The log of some records. -/
def ofRecords (rule : BinRule) (rs : List Record) : Log :=
  rs.foldl (fun l r => l.record r.1 r.2) { rule }

variable {l : Log} {rs : List Record} (rule : BinRule)

theorem ofRecords_concat (rs : List Record) (r : Record) :
    ofRecords rule (rs ++ [r]) = (ofRecords rule rs).record r.1 r.2 := by
  rw [ofRecords, List.foldl_append]
  rfl

theorem rule_ofRecords (rs : List Record) : (ofRecords rule rs).rule = rule := by
  induction rs using List.reverseRecOn with
  | nil => rfl
  | append_singleton rs r ih =>
      rw [ofRecords_concat]
      exact ih

theorem tells_ofRecords (rs : List Record) : (ofRecords rule rs).Tells rs := by
  induction rs using List.reverseRecOn with
  | nil => exact tells_nil rule
  | append_singleton rs r ih =>
      rw [ofRecords_concat]
      exact ih.record r.1 r.2

theorem filled_ofRecords (rs : List Record) {id : Nat} {s : Stats}
    (hs : (ofRecords rule rs).stats? id = some s) : s.Filled := by
  induction rs using List.reverseRecOn generalizing s with
  | nil => cases hs
  | append_singleton rs r ih =>
      rw [ofRecords_concat, stats?_record] at hs
      split at hs
      · cases hs
        refine Stats.Filled.record ?_ r.2
        cases hold : (ofRecords rule rs).stats? r.1 with
        | none => exact fun bin h => by cases h
        | some old => exact ih (by simp_all)
      · exact ih hs

theorem mem_bins_ofRecords (rs : List Record) (id bin : Nat) :
    bin ∈ (ofRecords rule rs).bins id ↔ 0 < (ofRecords rule rs).count id bin := by
  rw [bins, count]
  cases hs : (ofRecords rule rs).stats? id with
  | none => simp
  | some s => exact (filled_ofRecords rule rs hs).mem_distances bin

theorem Tells.accesses_eq (h : l.Tells rs) (id : Nat) :
    l.accesses id = (distancesOf id rs).length := by
  rw [← (h.getD id).2.2.accesses_eq, accesses]
  cases l.stats? id <;> rfl

theorem Tells.misses_eq (h : l.Tells rs) (id : Nat) :
    l.misses id = (distancesOf id rs).countP fun d => d.bind l.rule.bin? = none := by
  obtain ⟨-, hrule, hcounts⟩ := h.getD id
  rw [← hrule, ← hcounts.misses_eq, misses]
  cases l.stats? id <;> rfl

theorem Tells.count_eq (h : l.Tells rs) (id bin : Nat) :
    l.count id bin = (distancesOf id rs).countP fun d => d.bind l.rule.bin? = some bin := by
  obtain ⟨-, hrule, hcounts⟩ := h.getD id
  rw [← hrule, ← hcounts.count_eq, count]
  cases l.stats? id <;> rfl

theorem distancesOf_flatten (id : Nat) (runs : List (List Record)) :
    distancesOf id runs.flatten = (runs.map (distancesOf id)).flatten := by
  rw [distancesOf, List.filter_flatten, List.map_flatten, List.map_map]
  rfl

/-- What adds up over runs of records adds up over their logs. -/
theorem sum_ofRecords {f : Log → Nat} {g : List Record → Nat}
    (hf : ∀ rs, f (ofRecords rule rs) = g rs)
    (hg : ∀ runs : List (List Record), g runs.flatten = (runs.map g).sum)
    (runs : List (List Record)) :
    f (ofRecords rule runs.flatten) = ((runs.map (ofRecords rule)).map f).sum := by
  rw [hf, hg, List.map_map]
  exact congrArg List.sum (List.map_congr_left fun rs _ => (hf rs).symm)

theorem countP_distancesOf_flatten (id : Nat) (p : Option Nat → Bool)
    (runs : List (List Record)) : (distancesOf id runs.flatten).countP p =
      (runs.map fun rs => (distancesOf id rs).countP p).sum := by
  rw [distancesOf_flatten, List.countP_flatten, List.map_map]
  rfl

/-- What is recorded in one run after another is the sum of what is recorded in each. -/
theorem sumOf_ofRecords (runs : List (List Record)) :
    (ofRecords rule runs.flatten).SumOf (runs.map (ofRecords rule)) := by
  have htells (rs : List Record) : (ofRecords rule rs).Tells rs := tells_ofRecords rule rs
  have hrule := rule_ofRecords rule
  have hcount (id bin : Nat) : (ofRecords rule runs.flatten).count id bin =
      ((runs.map (ofRecords rule)).map fun p => p.count id bin).sum :=
    sum_ofRecords rule (f := fun l => l.count id bin)
      (fun rs => by rw [(htells rs).count_eq, hrule]) (countP_distancesOf_flatten id _) runs
  refine ⟨?_, fun id s hs => ?_, fun id => ?_, fun id => ?_, fun id => ?_, hcount, fun id bin => ?_⟩
  · exact List.forall_mem_map.mpr fun rs _ => (hrule rs).trans (hrule _).symm
  · obtain ⟨hid, hown, -⟩ := (htells _).stats id s hs
    exact ⟨hid, hown⟩
  · rw [(htells _).none_iff, List.forall_mem_map]
    simp only [(htells _).none_iff, List.mem_flatten]
    exact ⟨fun h rs hrs r hr => h r ⟨rs, hrs, hr⟩, fun h r ⟨rs, hrs, hr⟩ => h rs hrs r hr⟩
  · refine sum_ofRecords rule (f := fun l => l.accesses id)
      (fun rs => (htells rs).accesses_eq id) (fun runs => ?_) runs
    rw [distancesOf_flatten, List.length_flatten, List.map_map]
    rfl
  · exact sum_ofRecords rule (f := fun l => l.misses id)
      (fun rs => by rw [(htells rs).misses_eq, hrule]) (countP_distancesOf_flatten id _) runs
  · rw [mem_bins_ofRecords, hcount, Nat.pos_iff_ne_zero, ne_eq, List.sum_eq_zero_iff]
    simp [mem_bins_ofRecords, Nat.pos_iff_ne_zero]

end Log

/-! ### Analyzers that start again -/

namespace Analyzer

def step (a : Analyzer) : Event → Analyzer
  | .reference id address => (a.process id address).2
  | .skip amount => a.skip amount

def run (a : Analyzer) (events : List Event) : Analyzer := events.foldl step a

/-- What an analyzer records of the references among some events. -/
def records (a : Analyzer) : List Event → List Record
  | [] => []
  | .reference id address :: rest =>
    (id, (a.process id address).1) :: (a.process id address).2.records rest
  | .skip amount :: rest => (a.skip amount).records rest

variable {a : Analyzer}

theorem run_cons (a : Analyzer) (e : Event) (rest : List Event) :
    a.run (e :: rest) = (a.step e).run rest := rfl

theorem run_concat (a : Analyzer) (events : List Event) (e : Event) :
    a.run (events ++ [e]) = (a.run events).step e := by
  rw [run, List.foldl_append]
  rfl

theorem log_run (a : Analyzer) (events : List Event) :
    (a.run events).log = (a.records events).foldl (fun l r => l.record r.1 r.2) a.log := by
  induction events generalizing a with
  | nil => rfl
  | cons e rest ih =>
      rw [run_cons, ih]
      cases e with
      | reference id address => rw [step, log_process, records, List.foldl_cons]
      | skip amount => rw [step, log_skip, records]

theorem records_append (a : Analyzer) (before rest : List Event) :
    a.records (before ++ rest) = a.records before ++ (a.run before).records rest := by
  induction before generalizing a with
  | nil => rfl
  | cons e before ih => cases e <;> simp [records, run_cons, step, ih]

/-- To leave references out one after another is to leave them out together. -/
theorem skip_skip (a : Analyzer) (m n : Nat) : (a.skip m).skip n = a.skip (m + n) := by
  cases a <;> simp [skip, Exact.skip, Approximate.skip, Spatial.skip, Nat.add_assoc]

/-- An analyzer that has recorded nothing, and that starts again whenever references have been left
out. -/
structure Fresh (a : Analyzer) : Prop where
  log_eq : a.log = { rule := a.log.rule }
  renews : ∀ before amount rest, ((a.run before).skip amount).records rest = a.records rest

theorem Fresh.log_run (h : a.Fresh) (events : List Event) :
    (a.run events).log = .ofRecords a.log.rule (a.records events) := by
  rw [Analyzer.log_run, h.log_eq]
  rfl

theorem Fresh.records_skip (h : a.Fresh) (before : List Event) (amount : Nat) (rest : List Event) :
    a.records (before ++ .skip amount :: rest) = a.records before ++ a.records rest := by
  rw [records_append, records, h.renews]

/-- What an exact analyzer records is decided by the history that it tracks. -/
theorem records_of_tracks {e : Exact} {capacity : Nat} {h : List Nat} (ht : e.Tracks capacity h)
    (events : List Event) : (exact e).records events = recorded capacity h events := by
  induction events generalizing e h with
  | nil => rfl
  | cons event rest ih =>
      cases event with
      | reference id address =>
          obtain ⟨hd, hnext, -⟩ := ht.process id address
          exact congrArg₂ List.cons (congrArg (Prod.mk id) hd) (ih hnext)
      | skip amount => exact ih (ht.skip amount)

theorem run_exact (e : Exact) (events : List Event) :
    (exact e).run events = exact (e.run events) := by
  induction events generalizing e with
  | nil => rfl
  | cons event rest ih => cases event <;> exact ih _

theorem fresh_exact (capacity individual : Nat) : (exact (.new capacity individual)).Fresh where
  log_eq := rfl
  renews before amount rest := by
    have hnew : (Exact.new capacity individual).Tracks capacity [] := Exact.tracks_of_empty rfl rfl
    have hrun := (hnew.run before (Log.tells_nil ⟨individual, capacity⟩)).1
    rw [run_exact, skip, records_of_tracks (hrun.skip amount), records_of_tracks hnew]

/-- What a spatial analyzer has recorded does not matter to what it records. -/
theorem records_withLog (s : Spatial) (log : Log) (events : List Event) :
    (spatial { s with log }).records events = (spatial s).records events := by
  induction events generalizing s log with
  | nil => rfl
  | cons event rest ih =>
      cases event with
      | reference id address =>
          have hsame : ({ s with log }.process id address).2 =
              { (s.process id address).2 with log := log.record id (s.nearest? address) } := by
            unfold Spatial.process Spatial.evict
            dsimp only
            split
            · split
              · rfl
              · split <;> rfl
            · rfl
          refine congrArg ((id, s.nearest? address) :: ·) ?_
          exact (congrArg (fun s => (spatial s).records rest) hsame).trans (ih _ _)
      | skip amount => exact ih s.skip log

theorem run_spatial (s : Spatial) (events : List Event) :
    ∃ s', (spatial s).run events = spatial s' ∧ s'.capacity = s.capacity := by
  induction events generalizing s with
  | nil => exact ⟨s, rfl, rfl⟩
  | cons event rest ih =>
      cases event with
      | reference id address =>
          obtain ⟨s', hrun, hcapacity⟩ := ih (s.process id address).2
          refine ⟨s', hrun, hcapacity.trans ?_⟩
          unfold Spatial.process
          dsimp only
          split
          · exact (Spatial.keeps_evict _).1
          · rfl
      | skip amount => exact ih s.skip

theorem fresh_spatial (capacity individual maxTracking : Nat) :
    (spatial (.new capacity individual maxTracking)).Fresh where
  log_eq := rfl
  renews before amount rest := by
    obtain ⟨s, hrun, hcapacity⟩ := run_spatial (.new capacity individual maxTracking) before
    have hskip : s.skip = { Spatial.new capacity individual maxTracking with log := s.log } := by
      rw [Spatial.skip, hcapacity]
      rfl
    rw [hrun, skip, hskip, records_withLog]

end Analyzer

end BinTrace.Reuse
