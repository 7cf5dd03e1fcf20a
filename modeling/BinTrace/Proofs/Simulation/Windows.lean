import BinTrace.Proofs.Reuse.Windows
import BinTrace.Proofs.Simulation.Totals

/-!
What sampling does to the measurements. The references that it leaves out cut the others into
windows. The analyzers measure each window as a stream of its own, although they forget what came
before it only when its first reference is simulated. The hierarchies take no notice of the cuts.
-/

namespace BinTrace.Simulation

/-- What an analyzer is told of a reference. -/
def Reference.event (r : Reference) : Reuse.Event := .reference r.block r.address

/-- How often a block is visited. -/
def Effect.visits (block : Nat) (effects : List Effect) : Nat :=
  effects.countP fun
    | .visit other => other = block
    | .reference _ => false

theorem Effect.visits_append_visit (block other : Nat) (before : List Effect) :
    visits other (before ++ [.visit block]) =
      visits other before + if other = block then 1 else 0 := by
  rw [visits, List.countP_append, List.countP_singleton]
  simp [visits, eq_comm]

namespace Sampling

/-- Given what came before, a reference is simulated if it comes while the sampling is on and its
block has not been visited more often than the limit allows. -/
def takes (s : Sampling) (before : List Effect) (r : Reference) : Bool :=
  s.samples (Effect.references before).length && !s.exceedsLimit (Effect.visits r.block before)

/-- What becomes of the references among some effects: each is simulated, or there is none for one
that is left out. -/
def outcomes (s : Sampling) (before : List Effect) : List Effect → List (Option Reference)
  | [] => []
  | .visit block :: rest => s.outcomes (before ++ [.visit block]) rest
  | .reference r :: rest =>
    (if s.takes before r then some r else none) :: s.outcomes (before ++ [.reference r]) rest

/-- Once the limit is exceeded it stays so. -/
theorem exceedsLimit_succ (s : Sampling) (n : Nat) :
    (s.exceedsLimit n || s.exceedsLimit (n + 1)) = s.exceedsLimit (n + 1) := by
  rw [Bool.eq_iff_iff]
  simp only [exceedsLimit, Bool.or_eq_true, Bool.and_eq_true, decide_eq_true_eq]
  omega

end Sampling

/-- The maximal runs of references between those that are left out. -/
def windows (outcomes : List (Option Reference)) : List (List Reference) :=
  ((outcomes.splitOnP Option.isNone).map List.reduceOption).filter fun w => !w.isEmpty

/-- What an analyzer is told if it hears of every reference at once. -/
def told : Option Reference → Reuse.Event
  | some r => r.event
  | none => .skip 1

section Windows

open Reuse (Analyzer Log)

variable {a : Analyzer}

/-- The records of a stream that is cut, where some references come before its first part. -/
theorem records_cut (ha : a.Fresh) {outcomes first : List (Option Reference)}
    {others : List (List (Option Reference))}
    (hsplit : outcomes.splitOnP Option.isNone = first :: others) (run : List Reference) :
    a.records (run.map Reference.event ++ outcomes.map told) =
      ((run ++ first.reduceOption) :: others.map List.reduceOption).flatMap
        fun w => a.records (w.map Reference.event) := by
  induction outcomes generalizing first others run with
  | nil =>
      obtain ⟨rfl, rfl⟩ := List.cons_eq_cons.mp hsplit
      simp
  | cons outcome rest ih =>
      obtain ⟨next, after, hrest⟩ :=
        List.exists_cons_of_ne_nil (List.splitOnP_ne_nil Option.isNone rest)
      rw [List.splitOnP_cons_eq_if_modifyHead, hrest] at hsplit
      cases outcome with
      | none =>
          obtain ⟨rfl, rfl⟩ := List.cons_eq_cons.mp hsplit
          have hafter := ih hrest []
          rw [List.map_nil, List.nil_append, List.nil_append] at hafter
          rw [List.map_cons, told, ha.records_skip, hafter]
          simp
      | some r =>
          obtain ⟨rfl, rfl⟩ := List.cons_eq_cons.mp hsplit
          simpa [told] using ih hrest (run ++ [r])

theorem records_windows (ha : a.Fresh) (outcomes : List (Option Reference)) :
    a.records (outcomes.map told) =
      ((windows outcomes).map fun w => a.records (w.map Reference.event)).flatten := by
  -- nothing is recorded between references that are left out one right after another
  have hempty (ws : List (List Reference)) :
      (ws.flatMap fun w => a.records (w.map Reference.event)) =
        (ws.filter fun w => !w.isEmpty).flatMap fun w => a.records (w.map Reference.event) := by
    induction ws with
    | nil => rfl
    | cons w rest ih => cases w <;> simp [ih, Analyzer.records]
  obtain ⟨first, others, hsplit⟩ :=
    List.exists_cons_of_ne_nil (List.splitOnP_ne_nil Option.isNone outcomes)
  rw [← List.flatMap_def, windows, hsplit, ← hempty]
  exact records_cut ha hsplit []

/-- An analyzer that hears of every cut sums up what new ones measure of each window. -/
theorem sumOf_windows (ha : a.Fresh) (outcomes : List (Option Reference)) :
    (a.run (outcomes.map told)).log.SumOf
      ((windows outcomes).map fun w => (a.run (w.map Reference.event)).log) := by
  have hsum := Log.sumOf_ofRecords a.log.rule
    ((windows outcomes).map fun w => a.records (w.map Reference.event))
  rw [← records_windows ha, List.map_map] at hsum
  simp only [ha.log_run]
  exact hsum

end Windows

namespace Context

variable {c start : Context} {before : List Effect} {outcomes : List (Option Reference)}

/-- What a context makes of a stream, given what becomes of its references: if its analyzers caught
up, they would be as if they had heard of every reference at once. -/
structure Follows (c start : Context) (before : List Effect) (outcomes : List (Option Reference)) :
    Prop where
  config_eq : c.config = start.config
  total_eq : c.total = (Effect.references before).length
  visits_eq : ∀ block, (c.counters block).visits = Effect.visits block before
  saturated_eq : ∀ block, (c.counters block).saturatedAt.isSome =
    start.config.sampling.exceedsLimit (Effect.visits block before)
  reuse_eq : c.reuse.map c.caughtUp = start.reuse.map fun a => a.run (outcomes.map told)
  spatial_eq : c.spatial.map c.caughtUp = start.spatial.map fun a => a.run (outcomes.map told)
  hierarchies_eq : c.hierarchies =
    start.hierarchies.map fun h => h.run (outcomes.reduceOption.map Reference.address)

theorem Follows.admits_eq (h : c.Follows start before outcomes) (r : Reference) :
    c.admits r = start.config.sampling.takes before r := by
  rw [admits, ← Option.not_isSome, h.saturated_eq, h.config_eq, h.total_eq, Sampling.takes,
    Bool.and_comm]

theorem Follows.visit (h : c.Follows start before outcomes) (block : Nat) :
    (c.visit block).Follows start (before ++ [.visit block]) outcomes where
  config_eq := h.config_eq
  total_eq := h.total_eq.trans (by simp [Effect.references])
  visits_eq other := by
    rw [counters_visit, Effect.visits_append_visit]
    split
    · rename_i heq
      subst heq
      simpa [visited] using h.visits_eq other
    · simpa using h.visits_eq other
  saturated_eq other := by
    rw [counters_visit, Effect.visits_append_visit]
    split
    · rename_i heq
      subst heq
      have hor : (c.visited (c.counters other)).saturatedAt.isSome =
          ((c.counters other).saturatedAt.isSome ||
            c.config.sampling.exceedsLimit ((c.counters other).visits + 1)) := by
        rw [visited, Option.isSome_or]
        split <;> simp_all
      rw [hor, h.saturated_eq, h.visits_eq, h.config_eq, Sampling.exceedsLimit_succ]
    · simpa using h.saturated_eq other
  reuse_eq := h.reuse_eq
  spatial_eq := h.spatial_eq
  hierarchies_eq := h.hierarchies_eq

/-- References that are left out one after another are left out together. -/
theorem skip_caughtUp (c : Context) (a : Reuse.Analyzer) :
    (c.caughtUp a).skip 1 = a.skip (c.skipped + 1) := by
  unfold caughtUp
  split
  · rename_i h
    rw [h]
  · exact a.skip_skip c.skipped 1

/-- If the analyzers caught up after each reference, they would have been told of it. -/
theorem caughtUp_simulate (c : Context) (r : Reference) :
    let outcome := if c.admits r then some r else none
    ((c.simulate r).reuse.map (c.simulate r).caughtUp =
        (c.reuse.map c.caughtUp).map fun a => a.step (told outcome)) ∧
      ((c.simulate r).spatial.map (c.simulate r).caughtUp =
        (c.spatial.map c.caughtUp).map fun a => a.step (told outcome)) ∧
      (c.simulate r).hierarchies =
        c.hierarchies.map fun h => h.run (outcome.toList.map Reference.address) := by
  intro outcome
  cases hadmits : c.admits r with
  | false =>
      have houtcome : outcome = none := if_neg (by simp [hadmits])
      have hcaughtUp : (c.simulate r).caughtUp = fun a => (c.caughtUp a).skip 1 := by
        funext a
        rw [simulate_of_not_admits hadmits, skip_caughtUp]
        rfl
      rw [houtcome, hcaughtUp, simulate_of_not_admits hadmits, Option.map_map, Option.map_map]
      exact ⟨rfl, rfl, (List.map_id _).symm⟩
  | true =>
      have houtcome : outcome = some r := if_pos hadmits
      have hcaughtUp : (c.simulate r).caughtUp = id := by
        rw [simulate_of_admits hadmits]
        rfl
      rw [houtcome, hcaughtUp, simulate_of_admits hadmits, Option.map_id, Option.map_map,
        Option.map_map]
      exact ⟨rfl, rfl, rfl⟩

theorem Follows.simulate (h : c.Follows start before outcomes) (r : Reference) :
    (c.simulate r).Follows start (before ++ [.reference r])
      (outcomes ++ [if start.config.sampling.takes before r then some r else none]) := by
  have hvisits (block : Nat) :
      Effect.visits block (before ++ [.reference r]) = Effect.visits block before := by
    simp [Effect.visits]
  have hkept (block : Nat) : ((c.simulate r).counters block).visits = (c.counters block).visits ∧
      ((c.simulate r).counters block).saturatedAt = (c.counters block).saturatedAt := by
    rw [counters_simulate]
    split
    · rename_i heq
      rw [heq]
      exact ⟨rfl, rfl⟩
    · exact ⟨rfl, rfl⟩
  obtain ⟨hreuse, hspatial, hhierarchies⟩ := c.caughtUp_simulate r
  rw [h.admits_eq, h.reuse_eq, Option.map_map] at hreuse
  rw [h.admits_eq, h.spatial_eq, Option.map_map] at hspatial
  rw [h.admits_eq, h.hierarchies_eq, List.map_map] at hhierarchies
  refine ⟨(c.config_simulate r).trans h.config_eq, ?_, fun block => ?_, fun block => ?_, ?_, ?_, ?_⟩
  · rw [total_simulate, h.total_eq]
    simp [Effect.references]
  · rw [hvisits, (hkept block).1, h.visits_eq]
  · rw [hvisits, (hkept block).2, h.saturated_eq]
  · simpa [Function.comp_def, Reuse.Analyzer.run_concat] using hreuse
  · simpa [Function.comp_def, Reuse.Analyzer.run_concat] using hspatial
  · simpa [Function.comp_def, Cache.Hierarchy.run, List.reduceOption_append,
      List.reduceOption_singleton] using hhierarchies

theorem Follows.foldl_apply (h : c.Follows start before outcomes) (effects : List Effect) :
    (effects.foldl apply c).Follows start (before ++ effects)
      (outcomes ++ start.config.sampling.outcomes before effects) := by
  induction effects generalizing c before outcomes with
  | nil => simpa [Sampling.outcomes] using h
  | cons e rest ih =>
      cases e with
      | visit block =>
          have hrest := ih (h.visit block)
          rw [List.append_assoc] at hrest
          exact hrest
      | reference r =>
          have hrest := ih (h.simulate r)
          rw [List.append_assoc, List.append_assoc] at hrest
          exact hrest

/-- An analyzer that measures, and that would have heard of every reference at once if it caught up,
sums up the windows. -/
theorem sumOf_of_caughtUp {a? : Option Reuse.Analyzer} {measures : Bool} {fresh : Reuse.Analyzer}
    (h : a?.map c.caughtUp =
      (if measures then some fresh else none).map fun a => a.run (outcomes.map told)) :
    a?.isSome = measures ∧ (fresh.Fresh → ∀ a, a? = some a →
      a.log.SumOf ((windows outcomes).map fun w => (fresh.run (w.map Reference.event)).log)) := by
  refine ⟨?_, fun hfresh a ha => ?_⟩
  · have hsome := congrArg Option.isSome h
    rw [Option.isSome_map, Option.isSome_map] at hsome
    cases measures <;> exact hsome
  · rw [ha] at h
    cases measures with
    | false => cases h
    | true =>
        have heq : c.caughtUp a = fresh.run (outcomes.map told) := Option.some.inj h
        rw [← c.log_caughtUp, heq]
        exact sumOf_windows hfresh outcomes

section

variable (stream announced : Nat) (config : Config) (hierarchies : List Cache.Hierarchy)

theorem follows_new : (new stream config hierarchies announced).Follows
    (new stream config hierarchies announced) [] [] := by
  refine ⟨rfl, rfl, fun _ => rfl, fun block => ?_, ?_, ?_, (List.map_id _).symm⟩
  · show false = _
    simp [Effect.visits, Sampling.exceedsLimit]
  · rfl
  · rfl

/-- The statistics of each analyzer that measures are, id by id, the sums of those that a new one
has after each window, and the hierarchies have processed what was simulated without a break. -/
structure MeasuresWindows (c start : Context) (outcomes : List (Option Reference)) : Prop where
  reuse_isSome : c.reuse.isSome = start.config.measuresReuse
  reuse : start.config.errorRate = none → ∀ a, c.reuse = some a →
    a.log.SumOf ((windows outcomes).map fun w =>
      ((reuseAnalyzer start.config).run (w.map Reference.event)).log)
  spatial_isSome : c.spatial.isSome = start.config.measuresSpatial
  spatial : ∀ a, c.spatial = some a →
    a.log.SumOf ((windows outcomes).map fun w =>
      ((spatialAnalyzer start.config).run (w.map Reference.event)).log)
  hierarchies : c.hierarchies =
    start.hierarchies.map fun h => h.run (outcomes.reduceOption.map Reference.address)

/-- Whatever is sampled, at the end of a stream of visits and references the exact and the spatial
analyzers have measured each run of references between those that were left out, because the
sampling was off or their block had exceeded the limit, as if it had been a stream of its own. -/
theorem measuresWindows_of_effects (effects : List Effect) :
    let start := new stream config hierarchies announced
    (effects.foldl apply start).MeasuresWindows start (config.sampling.outcomes [] effects) := by
  intro start
  have hdone := (follows_new stream announced config hierarchies).foldl_apply effects
  rw [List.nil_append, List.nil_append] at hdone
  obtain ⟨hreuse, hreuseSum⟩ := sumOf_of_caughtUp hdone.reuse_eq
  obtain ⟨hspatial, hspatialSum⟩ := sumOf_of_caughtUp hdone.spatial_eq
  refine ⟨hreuse, fun hexact => hreuseSum ?_, hspatial,
    hspatialSum (Reuse.Analyzer.fresh_spatial ..), hdone.hierarchies_eq⟩
  have hnone : config.errorRate = none := hexact
  rw [reuseAnalyzer, hnone]
  exact Reuse.Analyzer.fresh_exact ..

/-! The second window ends before a reference in an off phase, the first one before a reference of a
block that has been visited too often. -/

example :
    let sampling : Sampling := { accessLimit := 1, on := 4, off := 1 }
    windows (sampling.outcomes []
      [.visit 0, .reference ⟨0, 0x40⟩, .reference ⟨7, 0x80⟩, .visit 0, .reference ⟨0, 0x40⟩,
        .reference ⟨7, 0x40⟩, .reference ⟨7, 0x80⟩, .reference ⟨7, 0x40⟩]) =
      [[⟨0, 0x40⟩, ⟨7, 0x80⟩], [⟨7, 0x40⟩], [⟨7, 0x40⟩]] := by
  decide

end

end Context

end BinTrace.Simulation
