import BinTrace.Proofs.KeyMap
import BinTrace.Proofs.Reuse.Approximate
import BinTrace.Reuse.Analyzer

/-!
The numbers in a log add up: the accesses of an id are its references, and each of them is a miss or
is counted in a bin. Every analyzer records each reference once.
-/

namespace BinTrace.Reuse

variable {l : Log}

/-- Every reference is a miss or in a bin. -/
def Stats.Balanced (s : Stats) : Prop := s.accesses = s.misses + s.bins.values.sum

theorem Stats.Balanced.record {s : Stats} (h : s.Balanced) (d : Option Nat) :
    (s.record d).Balanced := by
  unfold Balanced at h
  unfold Stats.record Balanced
  dsimp only
  split
  · dsimp only
    rw [KeyMap.sum_values_alter]
    omega
  · dsimp only
    omega

namespace Log

/-- How many references of an id are counted. -/
def accesses (l : Log) (id : Nat) : Nat := ((l.stats? id).map Stats.accesses).getD 0

/-- The log counts references with the given ids. -/
structure Balances (l : Log) (ids : List Nat) : Prop where
  accesses_eq : ∀ id, l.accesses id = ids.count id
  balanced : ∀ id s, l.stats? id = some s → s.Balanced

theorem balances_new (rule : BinRule) : Balances { rule } [] :=
  ⟨fun _ => rfl, fun _ _ h => by cases h⟩

theorem accesses_record (l : Log) (id other : Nat) (d : Option Nat) :
    (l.record id d).accesses other = l.accesses other + if id = other then 1 else 0 := by
  rw [accesses, stats?_record, accesses]
  by_cases h : other = id
  · subst h
    rw [if_pos rfl, if_pos rfl, Option.map_some, Option.getD_some, (Stats.keeps_record _ d).2.2]
    cases l.stats? other <;> rfl
  · rw [if_neg h, if_neg (Ne.symm h)]
    rfl

theorem Balances.record {ids : List Nat} (h : l.Balances ids) (id : Nat) (d : Option Nat) :
    (l.record id d).Balances (ids ++ [id]) := by
  refine ⟨fun other => ?_, fun other s hs => ?_⟩
  · rw [accesses_record, h.accesses_eq, List.count_append, List.count_singleton]
    simp
  · rw [stats?_record] at hs
    split at hs
    · cases hs
      refine Stats.Balanced.record ?_ d
      cases hold : l.stats? id with
      | none => rfl
      | some old => exact h.balanced id old hold
    · exact h.balanced other s hs

end Log

namespace Spatial

theorem keeps_evict (s : Spatial) : s.evict.capacity = s.capacity ∧ s.evict.log = s.log := by
  unfold evict
  split
  · exact ⟨rfl, rfl⟩
  · split <;> exact ⟨rfl, rfl⟩

/-- What is recorded of a reference is the distance that it gets. -/
theorem log_process (s : Spatial) (id address : Nat) :
    (s.process id address).2.log = s.log.record id (s.process id address).1 := by
  unfold process
  dsimp only
  split
  · exact (keeps_evict _).2
  · rfl

end Spatial

namespace Analyzer

/-- A reference is recorded once, with the distance that it gets. -/
theorem log_process (a : Analyzer) (id address : Nat) :
    (a.process id address).2.log = a.log.record id (a.process id address).1 := by
  cases a with
  | exact e => exact e.log_process id address
  | approximate a => exact a.log_process id address
  | spatial s => exact s.log_process id address

theorem log_skip (a : Analyzer) (amount : Nat) : (a.skip amount).log = a.log := by
  cases a <;> rfl

end Analyzer

end BinTrace.Reuse
