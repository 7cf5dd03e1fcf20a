import BinTrace.Reuse.Stats
import Mathlib

/-!
What a log says of the references that were recorded in it: how many there were for each id, how
many of them had a distance in each bin, and how many were misses.
-/

namespace BinTrace.Reuse

open KeyMap

/-- An id, and a distance or none for a cold reference. -/
abbrev Record := Nat × Option Nat

theorem BinRule.bin?_eq_none_iff (r : BinRule) (d : Nat) :
    r.bin? d = none ↔ r.maxTracking ≠ 0 ∧ r.maxTracking < d := by
  unfold bin?
  split
  · rename_i hfar
    exact iff_of_true rfl hfar
  · rename_i hnear
    refine iff_of_false ?_ hnear
    split <;> exact Option.some_ne_none _

namespace Stats

/-- The statistics count the given distances. -/
structure Counts (s : Stats) (distances : List (Option Nat)) : Prop where
  accesses_eq : s.accesses = distances.length
  misses_eq : s.misses = distances.countP fun d => d.bind s.rule.bin? = none
  count_eq : ∀ bin, s.count bin = distances.countP fun d => d.bind s.rule.bin? = some bin

theorem counts_nil (id : Nat) (rule : BinRule) : Counts { id, rule } [] :=
  ⟨rfl, rfl, fun _ => rfl⟩

/-- Whatever the distance, one more reference is counted under the same id and rule. -/
theorem keeps_record (s : Stats) (d : Option Nat) : (s.record d).id = s.id ∧
    (s.record d).rule = s.rule ∧ (s.record d).accesses = s.accesses + 1 := by
  unfold record
  dsimp only
  split <;> exact ⟨rfl, rfl, rfl⟩

theorem misses_record (s : Stats) (d : Option Nat) :
    (s.record d).misses = s.misses + if d.bind s.rule.bin? = none then 1 else 0 := by
  unfold record
  dsimp only
  cases d.bind s.rule.bin? <;> rfl

theorem count_record (s : Stats) (d : Option Nat) (bin : Nat) :
    (s.record d).count bin = s.count bin + if d.bind s.rule.bin? = some bin then 1 else 0 := by
  unfold record count
  dsimp only
  cases d.bind s.rule.bin? with
  | none => simp
  | some b =>
      dsimp only
      rw [alter, get?_insert]
      by_cases hbin : bin = b
      · subst hbin
        simp
      · simp [hbin, Ne.symm hbin]

theorem Counts.record {s : Stats} {distances : List (Option Nat)} (h : s.Counts distances)
    (d : Option Nat) : (s.record d).Counts (distances ++ [d]) := by
  obtain ⟨-, hrule, haccesses⟩ := keeps_record s d
  refine ⟨?_, ?_, fun bin => ?_⟩
  · rw [haccesses, h.accesses_eq, List.length_append, List.length_singleton]
  · rw [hrule, misses_record, h.misses_eq, List.countP_append, List.countP_singleton]
    simp only [decide_eq_true_eq]
  · rw [hrule, count_record, h.count_eq, List.countP_append, List.countP_singleton]
    simp only [decide_eq_true_eq]

end Stats

namespace Log

/-- The distances that were recorded for an id. -/
def distancesOf (id : Nat) (rs : List Record) : List (Option Nat) :=
  (rs.filter fun r => r.1 = id).map Prod.snd

/-- The log has statistics for the ids of the given records, and they count their distances. -/
structure Tells (l : Log) (rs : List Record) : Prop where
  none_iff : ∀ id, l.stats? id = none ↔ ∀ r ∈ rs, r.1 ≠ id
  stats : ∀ id s, l.stats? id = some s →
    s.id = id ∧ s.rule = l.rule ∧ s.Counts (distancesOf id rs)

theorem stats?_record (l : Log) (id j : Nat) (d : Option Nat) : (l.record id d).stats? j =
    if j = id then some (((l.stats? id).getD { id, rule := l.rule }).record d)
    else l.stats? j :=
  get?_insert ..

theorem tells_nil (rule : BinRule) : Tells { rule } [] :=
  ⟨fun _ => by simp [stats?, get?_empty], fun _ _ h => by cases h⟩

theorem distancesOf_append (id : Nat) (rs : List Record) (r : Record) :
    distancesOf id (rs ++ [r]) = distancesOf id rs ++ if r.1 = id then [r.2] else [] := by
  unfold distancesOf
  rw [List.filter_append, List.map_append, List.filter_singleton]
  split <;> simp_all

/-- The statistics to which a reference with the given id is added. -/
theorem Tells.getD {l : Log} {rs : List Record} (h : l.Tells rs) (id : Nat) :
    ((l.stats? id).getD { id, rule := l.rule }).id = id ∧
      ((l.stats? id).getD { id, rule := l.rule }).rule = l.rule ∧
      ((l.stats? id).getD { id, rule := l.rule }).Counts (distancesOf id rs) := by
  cases hs : l.stats? id with
  | some s => exact h.stats id s hs
  | none =>
      have hnil : distancesOf id rs = [] := by
        simpa [distancesOf, List.filter_eq_nil_iff] using (h.none_iff id).mp hs
      rw [hnil]
      exact ⟨rfl, rfl, Stats.counts_nil id l.rule⟩

theorem Tells.record {l : Log} {rs : List Record} (h : l.Tells rs) (id : Nat)
    (d : Option Nat) : (l.record id d).Tells (rs ++ [(id, d)]) := by
  refine ⟨fun j => ?_, fun j s hs => ?_⟩
  · rw [stats?_record, List.forall_mem_append, List.forall_mem_singleton]
    split
    · rename_i hj
      simp [hj]
    · rename_i hj
      rw [h.none_iff]
      simp [Ne.symm hj]
  · rw [stats?_record] at hs
    rw [distancesOf_append]
    split at hs
    · rename_i hj
      subst hj
      obtain ⟨hid, hrule, hcounts⟩ := h.getD j
      cases hs
      obtain ⟨hid', hrule', -⟩ :=
        Stats.keeps_record ((l.stats? j).getD { id := j, rule := l.rule }) d
      exact ⟨hid'.trans hid, hrule'.trans hrule, by simpa using hcounts.record d⟩
    · rename_i hj
      have hrule : (l.record id d).rule = l.rule := rfl
      simpa [Ne.symm hj, hrule] using h.stats j s hs

end Log

end BinTrace.Reuse
