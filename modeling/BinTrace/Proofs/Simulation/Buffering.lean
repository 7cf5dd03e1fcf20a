import BinTrace.Proofs.Simulation.Steps
import BinTrace.Simulation.Report

/-!
What the capacity of the buffer decides. Two contexts with buffers of different capacity measure the
same exactly if, whenever a visit takes a block past the limit, as many references wait in one
buffer as in the other.
-/

namespace BinTrace.Simulation.Context

/-- The contexts are the same, the capacities of their buffers apart. -/
def Agrees (c d : Context) : Prop :=
  { c with config := { c.config with bufferCapacity := 0 } } =
    { d with config := { d.config with bufferCapacity := 0 } }

/-- Whenever a visit takes a block past the limit, as many references wait in one context as in the
other. -/
def InStep (c d : Context) : List Event → Prop
  | [] => True
  | e :: rest =>
    (∀ block, e = .visit block → c.saturates block = true → c.buffer.size = d.buffer.size) ∧
      InStep (c.step e) (d.step e) rest

/-- The references have arrived since `x`, and some of them have been simulated. -/
def lagging (x : Context) (arrived : List Reference) (capacity simulated : Nat) : Context :=
  ((arrived.take simulated).foldl simulate x).buffering capacity (arrived.drop simulated)

variable {c d x : Context} {arrived : List Reference} {m n k l block : Nat}

/-! What has been recorded at a visit past the limit stays. -/

theorem saturatedAt_foldl_simulate (c : Context) (rs : List Reference) (block : Nat) :
    ((rs.foldl simulate c).counters block).saturatedAt = (c.counters block).saturatedAt := by
  induction rs generalizing c with
  | nil => rfl
  | cons r rest ih =>
      rw [List.foldl_cons, ih, counters_simulate]
      split
      · rename_i h
        rw [h]
        rfl
      · rfl

theorem saturatedAt_step {t : Nat} (h : (c.counters block).saturatedAt = some t) (e : Event) :
    ((c.step e).counters block).saturatedAt = some t := by
  cases e with
  | visit other =>
      rw [step, counters_visit]
      split
      · rename_i heq
        rw [heq] at h
        simp [visited, h]
      · exact h
  | record r =>
      rw [step, ← buffering_self c, record_buffering]
      split
      · exact (saturatedAt_foldl_simulate c _ block).trans h
      · exact h
  | drain =>
      rw [step, ← buffering_self c, drain_buffering]
      exact (saturatedAt_foldl_simulate c _ block).trans h

theorem saturatedAt_run {t : Nat} (h : (c.counters block).saturatedAt = some t)
    (events : List Event) : ((c.run events).counters block).saturatedAt = some t := by
  induction events generalizing c with
  | nil => exact h
  | cons e rest ih => exact ih (saturatedAt_step h e)

theorem saturatedAt_visit (h : c.saturates block = true) :
    ((c.visit block).counters block).saturatedAt = some c.total := by
  obtain ⟨hnone, hexceeds⟩ := Bool.and_eq_true_iff.mp h
  rw [counters_visit, if_pos rfl, visited, if_pos hexceeds, Option.isNone_iff_eq_none.mp hnone]
  rfl

/-! A context that lags behind. -/

theorem saturates_foldl_simulate (c : Context) (rs : List Reference) (block : Nat) :
    (rs.foldl simulate c).saturates block = c.saturates block := by
  induction rs generalizing c with
  | nil => rfl
  | cons r rest ih => rw [List.foldl_cons, ih, saturates_simulate]

theorem total_foldl_simulate (c : Context) (rs : List Reference) :
    (rs.foldl simulate c).total = c.total + rs.length := by
  induction rs generalizing c with
  | nil => rfl
  | cons r rest ih =>
      rw [List.foldl_cons, ih, total_simulate, List.length_cons]
      omega

theorem foldl_simulate_visit (h : c.saturates block = false) (rs : List Reference) :
    rs.foldl simulate (c.visit block) = (rs.foldl simulate c).visit block := by
  induction rs generalizing c with
  | nil => rfl
  | cons r rest ih =>
      rw [List.foldl_cons, List.foldl_cons, simulate_visit h, ih]
      rwa [saturates_simulate]

theorem size_buffer_lagging : (x.lagging arrived m k).buffer.size = arrived.length - k := by
  simp [lagging, buffering]

theorem saturates_lagging : (x.lagging arrived m k).saturates block = x.saturates block :=
  saturates_foldl_simulate x _ block

theorem total_lagging (hk : k ≤ arrived.length) : (x.lagging arrived m k).total = x.total + k := by
  refine (total_foldl_simulate x _).trans ?_
  rw [List.length_take, Nat.min_eq_left hk]

theorem step_drain_lagging :
    (x.lagging arrived m k).step .drain = x.lagging arrived m arrived.length := by
  rw [step, lagging, drain_buffering, ← List.foldl_append, List.take_append_drop, lagging,
    List.take_length, List.drop_length]

theorem step_record_lagging (hk : k ≤ arrived.length) (r : Reference) :
    ∃ k' ≤ (arrived ++ [r]).length,
      (x.lagging arrived m k).step (.record r) = x.lagging (arrived ++ [r]) m k' := by
  rw [step, lagging, record_buffering]
  split
  · refine ⟨_, Nat.le_refl _, ?_⟩
    rw [← List.foldl_append, ← List.append_assoc, List.take_append_drop, lagging, List.take_length,
      List.drop_length]
  · refine ⟨k, by rw [List.length_append]; omega, ?_⟩
    rw [lagging, List.take_append_of_le_length hk, List.drop_append_of_le_length hk]

theorem step_visit_lagging (h : x.saturates block = false) :
    (x.lagging arrived m k).step (.visit block) = (x.visit block).lagging arrived m k := by
  rw [lagging, lagging, foldl_simulate_visit h]
  rfl

theorem visit_lagging : (x.lagging arrived m k).visit block =
    (((arrived.take k).foldl simulate x).visit block).lagging (arrived.drop k) m 0 := rfl

theorem Agrees.counters_eq (h : c.Agrees d) (block : Nat) :
    c.counters block = d.counters block := by
  have hblocks := congrArg Context.blocks h
  have hhierarchies := congrArg Context.hierarchies h
  dsimp only at hblocks hhierarchies
  rw [counters, counters, hblocks, hhierarchies]

theorem Agrees.report_eq (h : c.Agrees d) : c.report = d.report :=
  show report { c with config := { c.config with bufferCapacity := 0 } } =
    report { d with config := { d.config with bufferCapacity := 0 } } from congrArg report h

/-- When a visit takes a block past the limit, the position in the stream is recorded for good. -/
theorem saturatedAt_run_visit_lagging (hk : k ≤ arrived.length) (hs : x.saturates block = true)
    (events : List Event) :
    ((((x.lagging arrived m k).visit block).run events).counters block).saturatedAt =
      some (x.total + k) := by
  rw [← total_lagging (m := m) hk]
  exact saturatedAt_run (saturatedAt_visit (saturates_lagging.trans hs)) events

theorem agrees_lagging_iff (x : Context) (arrived : List Reference) (hk : k ≤ arrived.length)
    (hl : l ≤ arrived.length) (events : List Event) :
    ((x.lagging arrived m k).run (events ++ [.drain])).Agrees
        ((x.lagging arrived n l).run (events ++ [.drain])) ↔
      InStep (x.lagging arrived m k) (x.lagging arrived n l) events := by
  induction events generalizing x arrived k l with
  | nil =>
      refine iff_of_true ?_ trivial
      show ((x.lagging arrived m k).step .drain).Agrees ((x.lagging arrived n l).step .drain)
      rw [step_drain_lagging, step_drain_lagging]
      rfl
  | cons e rest ih =>
      rw [InStep, List.cons_append, run_cons, run_cons]
      cases e with
      | drain =>
          rw [step_drain_lagging, step_drain_lagging, ih _ _ (Nat.le_refl _) (Nat.le_refl _)]
          simp
      | record r =>
          obtain ⟨k', hk', hm⟩ := step_record_lagging (x := x) (m := m) hk r
          obtain ⟨l', hl', hn⟩ := step_record_lagging (x := x) (m := n) hl r
          rw [hm, hn, ih _ _ hk' hl']
          simp
      | visit block =>
          cases hs : x.saturates block with
          | false =>
              rw [step_visit_lagging hs, step_visit_lagging hs, ih _ _ hk hl]
              simp [saturates_lagging, hs]
          | true =>
              by_cases heq : k = l
              · -- Both have simulated the same references, and go on from where they are.
                subst heq
                rw [step, step, visit_lagging, visit_lagging, ih _ _ (Nat.zero_le _) (Nat.zero_le _)]
                simp [size_buffer_lagging]
              · refine iff_of_false (fun hagrees => heq ?_) fun hstep => heq ?_
                · have hsame := congrArg BlockCounters.saturatedAt (hagrees.counters_eq block)
                  rw [step, step, saturatedAt_run_visit_lagging hk hs,
                    saturatedAt_run_visit_lagging hl hs, Option.some.injEq] at hsame
                  omega
                · have hsize := hstep.1 block rfl (saturates_lagging.trans hs)
                  rw [size_buffer_lagging, size_buffer_lagging] at hsize
                  omega

theorem agrees_new_iff (stream announced m n : Nat) (config : Config)
    (hierarchies : List Cache.Hierarchy) (events : List Event) :
    ((new stream { config with bufferCapacity := m } hierarchies announced).run
        (events ++ [.drain])).Agrees
      ((new stream { config with bufferCapacity := n } hierarchies announced).run
        (events ++ [.drain])) ↔
      InStep (new stream { config with bufferCapacity := m } hierarchies announced)
        (new stream { config with bufferCapacity := n } hierarchies announced) events :=
  agrees_lagging_iff (m := m) (n := n)
    (new stream { config with bufferCapacity := m } hierarchies announced) [] (Nat.le_refl 0)
    (Nat.le_refl 0) events

/-- Two capacities of the buffer give the same measurements exactly if every visit that takes a
block past the limit finds as many references in one buffer as in the other. -/
theorem agrees_iff_inStep (stream announced m n : Nat) (config : Config)
    (hierarchies : List Cache.Hierarchy) (events : List Event) :
    let c := new stream { config with bufferCapacity := m } hierarchies announced
    let d := new stream { config with bufferCapacity := n } hierarchies announced
    ((c.run (events ++ [.drain])).Agrees (d.run (events ++ [.drain])) ↔ InStep c d events) ∧
      (InStep c d events →
        (c.run (events ++ [.drain])).report = (d.run (events ++ [.drain])).report) := by
  intro c d
  have hiff : (c.run (events ++ [.drain])).Agrees (d.run (events ++ [.drain])) ↔
      InStep c d events := agrees_new_iff stream announced m n config hierarchies events
  exact ⟨hiff, fun h => (hiff.mpr h).report_eq⟩

theorem config_foldl_simulate (c : Context) (rs : List Reference) :
    (rs.foldl simulate c).config = c.config := by
  induction rs generalizing c with
  | nil => rfl
  | cons r rest ih => rw [List.foldl_cons, ih, config_simulate]

theorem config_step (c : Context) (e : Event) : (c.step e).config = c.config := by
  cases e with
  | visit block => rfl
  | record r =>
      rw [step, ← buffering_self c, record_buffering, buffering_self]
      split
      · rw [buffering, config_foldl_simulate]
      · rfl
  | drain =>
      rw [step, ← buffering_self c, drain_buffering, buffering_self, buffering,
        config_foldl_simulate]

theorem inStep_of_unlimited (h : c.config.sampling.accessLimit = 0) (d : Context)
    (events : List Event) : InStep c d events := by
  induction events generalizing c d with
  | nil => trivial
  | cons e rest ih =>
      refine ⟨fun block _ hs => ?_, ih (by rwa [config_step]) _⟩
      simp [saturates, Sampling.exceedsLimit, h] at hs

/-- Without a limit the capacity of the buffer makes no difference. -/
theorem report_eq_of_unlimited {config : Config} (h : config.sampling.accessLimit = 0)
    (stream announced m n : Nat) (hierarchies : List Cache.Hierarchy) (events : List Event) :
    ((new stream { config with bufferCapacity := m } hierarchies announced).run
        (events ++ [.drain])).report =
      ((new stream { config with bufferCapacity := n } hierarchies announced).run
        (events ++ [.drain])).report := by
  refine ((agrees_new_iff stream announced m n config hierarchies events).mpr ?_).report_eq
  exact inStep_of_unlimited (c := new stream { config with bufferCapacity := m } hierarchies
    announced) h _ events

/-! A block that makes a reference, and is visited twice when it may be visited once. If the
reference waits until after the second visit, it is left out. -/

namespace LateReference

def config : Config := { sampling := { accessLimit := 1 } }

def events : List Event := [.record ⟨0, 0⟩, .visit 0, .visit 0]

/-- The context at the end if the buffer has the given capacity. -/
def finish (capacity : Nat) : Context :=
  (new 0 { config with bufferCapacity := capacity } [] 1).run (events ++ [.drain])

end LateReference

theorem report_ne_lateReference :
    ((LateReference.finish 1).sampled = 1 ∧
      ((LateReference.finish 1).counters 0).saturatedAt = some 1) ∧
    ((LateReference.finish 2).sampled = 0 ∧
      ((LateReference.finish 2).counters 0).saturatedAt = some 0) ∧
    (LateReference.finish 1).report ≠ (LateReference.finish 2).report := by
  have hone : (LateReference.finish 1).sampled = 1 := by decide
  have htwo : (LateReference.finish 2).sampled = 0 := by decide
  refine ⟨⟨hone, by decide⟩, ⟨htwo, by decide⟩, fun h => ?_⟩
  have hsampled : (LateReference.finish 1).sampled = (LateReference.finish 2).sampled :=
    congrArg Report.sampled h
  rw [hone, htwo] at hsampled
  exact absurd hsampled (by decide)

end BinTrace.Simulation.Context
