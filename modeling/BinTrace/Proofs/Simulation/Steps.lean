import BinTrace.Proofs.Cache.Victims
import BinTrace.Proofs.KeyMap
import BinTrace.Simulation.Context

/-!
What a visit and a reference do to a context, and how the events of a stream come down to them: a
buffer only delays references, and so it chooses between which visits each of them is simulated.
-/

namespace BinTrace

namespace Cache.Hierarchy

theorem length_levels_process (h : Hierarchy) (a : Nat) :
    (h.process a).2.levels.length = h.levels.length := by
  rw [levels, List.length_append, inclusive_process, length_lookUp, victims_process, levels,
    List.length_append]
  split
  · rw [length_lookUpVictims]
  · rfl

theorem totals_process (h : Hierarchy) (a : Nat) :
    (h.process a).2.totals = Counts.record h.totals (h.process a).1 := by
  unfold process
  rcases lookUp a h.inclusive with ⟨_ | n, inclusive⟩ <;> rfl

end Cache.Hierarchy

namespace Simulation

/-- What happens to a stream. -/
inductive Event
  | visit (block : Nat)
  | record (r : Reference)
  | drain

/-- The references that are recorded. -/
def Event.recorded (events : List Event) : List Reference :=
  events.filterMap fun
    | .record r => some r
    | _ => none

/-- What takes effect on the measurements. -/
inductive Effect
  | visit (block : Nat)
  | reference (r : Reference)

namespace Effect

def references (effects : List Effect) : List Reference :=
  effects.filterMap fun
    | .reference r => some r
    | _ => none

/-- Events in the order in which they take effect, with a buffer of the given capacity in which
references wait. -/
def schedule (capacity : Nat) (waiting : List Reference) : List Event → List Effect
  | [] => []
  | .visit block :: rest => .visit block :: schedule capacity waiting rest
  | .record r :: rest =>
    if max 1 capacity ≤ waiting.length + 1 then
      (waiting ++ [r]).map reference ++ schedule capacity [] rest
    else schedule capacity (waiting ++ [r]) rest
  | .drain :: rest => waiting.map reference ++ schedule capacity [] rest

theorem references_append (effects others : List Effect) :
    references (effects ++ others) = references effects ++ references others :=
  List.filterMap_append ..

theorem references_map (rs : List Reference) : references (rs.map reference) = rs := by
  induction rs with
  | nil => rfl
  | cons r rest ih => exact congrArg (r :: ·) ih

/-- In the end every reference has taken effect, in the order in which they were recorded. -/
theorem references_schedule (capacity : Nat) (waiting : List Reference) (events : List Event) :
    references (schedule capacity waiting (events ++ [.drain])) =
      waiting ++ Event.recorded events := by
  induction events generalizing waiting with
  | nil => simpa [schedule, Event.recorded] using references_map waiting
  | cons e rest ih =>
      cases e with
      | visit block => exact ih waiting
      | drain =>
          rw [List.cons_append, schedule, references_append, references_map, ih]
          rfl
      | record r =>
          have hrest : waiting ++ Event.recorded (.record r :: rest) =
              waiting ++ [r] ++ Event.recorded rest := by simp [Event.recorded]
          rw [List.cons_append, schedule, hrest]
          split
          · rw [references_append, references_map, ih, List.nil_append]
          · rw [ih]

end Effect

namespace Context

variable {c : Context} {r : Reference} {block other : Nat}

def step (c : Context) : Event → Context
  | .visit block => c.visit block
  | .record r => c.record r
  | .drain => c.drain

def run (c : Context) (events : List Event) : Context := events.foldl step c

theorem run_cons (c : Context) (e : Event) (rest : List Event) :
    c.run (e :: rest) = (c.step e).run rest := rfl

/-- The reference is simulated, and not only counted. -/
def admits (c : Context) (r : Reference) : Bool :=
  (c.counters r.block).saturatedAt.isNone && c.config.sampling.samples c.total

/-- A visit takes the block past the limit. -/
def saturates (c : Context) (block : Nat) : Bool :=
  (c.counters block).saturatedAt.isNone &&
    c.config.sampling.exceedsLimit ((c.counters block).visits + 1)

/-! Counters of blocks. -/

theorem counters_modifyBlock (c : Context) (block other : Nat) (f : BlockCounters → BlockCounters) :
    (c.modifyBlock block f).counters other =
      if other = block then f (c.counters block) else c.counters other := by
  rw [counters, modifyBlock, KeyMap.get?_insert]
  split
  · rfl
  · rfl

/-- The levels of which a reference ends in each hierarchy. -/
def hits (c : Context) (r : Reference) : List (Option Nat) :=
  c.hierarchies.map fun h => (h.process r.address).1

/-- What a reference adds to the counters of its block. -/
def referred (c : Context) (r : Reference) (b : BlockCounters) : BlockCounters :=
  { b with
    accesses := b.accesses + 1
    levels := if c.admits r then List.zipWith Cache.Counts.record b.levels (c.hits r) else b.levels }

/-- What a visit adds to the counters of its block. -/
def visited (c : Context) (b : BlockCounters) : BlockCounters :=
  { b with
    visits := b.visits + 1
    saturatedAt := b.saturatedAt.or
      (if c.config.sampling.exceedsLimit (b.visits + 1) then some c.total else none) }

/-- An analyzer once it has forgotten what came before references that were left out. -/
def caughtUp (c : Context) (a : Reuse.Analyzer) : Reuse.Analyzer :=
  if c.skipped = 0 then a else a.skip c.skipped

/-- What a reference does, the counters of its block apart. -/
def advance (c : Context) (r : Reference) : Context :=
  if c.admits r then
    { c with
      total := c.total + 1
      sampled := c.sampled + 1
      skipped := 0
      hierarchies := c.hierarchies.map fun h => (h.process r.address).2
      reuse := c.reuse.map fun a => ((c.caughtUp a).process r.block r.address).2
      spatial := c.spatial.map fun a => ((c.caughtUp a).process r.block r.address).2 }
  else { c with total := c.total + 1, skipped := c.skipped + 1 }

theorem visit_eq (c : Context) (block : Nat) : c.visit block =
    { c with blocks := c.blocks.insert block (c.visited (c.counters block)) } := rfl

theorem catchUp_eq (c : Context) : c.catchUp =
    { c with reuse := c.reuse.map c.caughtUp, spatial := c.spatial.map c.caughtUp, skipped := 0 } := by
  unfold catchUp caughtUp
  split
  · rename_i h
    simp only [Option.map_id_fun', id]
    rw [← h]
  · rfl

theorem simulate_eq (c : Context) (r : Reference) : c.simulate r =
    { c.advance r with blocks := c.blocks.insert r.block (c.referred r (c.counters r.block)) } := by
  unfold simulate advance referred hits
  rw [show ((c.counters r.block).saturatedAt.isNone && c.config.sampling.samples c.total) =
    c.admits r from rfl]
  cases c.admits r with
  | false => rfl
  | true =>
      simp only [if_true, catchUp_eq, observe, modifyBlock, counters, KeyMap.insert_insert,
        KeyMap.get?_insert, Option.getD_some, List.map_map, Option.map_map]
      rfl

theorem counters_visit (c : Context) (block other : Nat) : (c.visit block).counters other =
    if other = block then c.visited (c.counters block) else c.counters other :=
  c.counters_modifyBlock block other c.visited

theorem config_simulate (c : Context) (r : Reference) : (c.simulate r).config = c.config := by
  rw [simulate_eq, advance]
  split <;> rfl

theorem total_simulate (c : Context) (r : Reference) : (c.simulate r).total = c.total + 1 := by
  rw [simulate_eq, advance]
  split <;> rfl

/-- A block that has not occurred has the same counters whatever its hierarchies have seen. -/
theorem fresh_advance (c : Context) (r : Reference) :
    BlockCounters.fresh (c.advance r).hierarchies = .fresh c.hierarchies := by
  unfold advance
  split
  · simp only [BlockCounters.fresh, List.map_map, List.map_const', BlockCounters.mk.injEq, true_and]
    refine List.map_congr_left fun h _ => ?_
    simp only [Function.comp_apply, Cache.Hierarchy.length_levels_process]
  · rfl

theorem counters_simulate (c : Context) (r : Reference) (other : Nat) :
    (c.simulate r).counters other =
      if other = r.block then c.referred r (c.counters r.block) else c.counters other := by
  have hfresh : BlockCounters.fresh (c.simulate r).hierarchies = .fresh c.hierarchies := by
    rw [simulate_eq]
    exact c.fresh_advance r
  rw [counters, hfresh, simulate_eq, KeyMap.get?_insert]
  split <;> rfl

/-- References do not take blocks past the limit. -/
theorem saturates_simulate (c : Context) (r : Reference) (block : Nat) :
    (c.simulate r).saturates block = c.saturates block := by
  rw [saturates, saturates, counters_simulate, config_simulate]
  split
  · rename_i h
    rw [h]
    rfl
  · rfl

theorem visited_of_not_saturates (h : c.saturates block = false) : c.visited (c.counters block) =
    { c.counters block with visits := (c.counters block).visits + 1 } := by
  unfold saturates at h
  have hsame : (c.counters block).saturatedAt.or
      (if c.config.sampling.exceedsLimit ((c.counters block).visits + 1) then some c.total
        else none) = (c.counters block).saturatedAt := by
    cases hs : (c.counters block).saturatedAt with
    | some t => rfl
    | none =>
        rw [hs, Option.isNone_none, Bool.true_and] at h
        rw [h]
        rfl
  rw [visited, hsame]

theorem admits_visit (h : c.saturates block = false) (r : Reference) :
    (c.visit block).admits r = c.admits r := by
  rw [admits, admits, counters_visit, visited_of_not_saturates h]
  split
  · rename_i heq
    rw [heq]
    rfl
  · rfl

/-- A visit that does not take its block past the limit may as well come after a reference. -/
theorem simulate_visit (h : c.saturates block = false) (r : Reference) :
    (c.visit block).simulate r = (c.simulate r).visit block := by
  have hadmits := admits_visit h r
  have hadvance : (c.visit block).advance r =
      { c.advance r with blocks := (c.visit block).blocks } := by
    rw [advance, advance, hadmits]
    split <;> rfl
  have hreferred (b : BlockCounters) : (c.visit block).referred r b = c.referred r b := by
    rw [referred, referred, hadmits]
    rfl
  have hvisited := visited_of_not_saturates ((c.saturates_simulate r block).trans h)
  rw [simulate_eq, hadvance, hreferred, counters_visit, visit_eq, visit_eq, hvisited,
    visited_of_not_saturates h, counters_simulate, simulate_eq]
  by_cases heq : block = r.block
  · subst heq
    simp only [if_true, KeyMap.insert_insert]
    rfl
  · simp only [heq, Ne.symm heq, if_false, KeyMap.insert_comm _ heq]

/-! The buffer. -/

/-- The context with another capacity of its buffer and other references in it. -/
def buffering (c : Context) (capacity : Nat) (waiting : List Reference) : Context :=
  { c with
    config := { c.config with bufferCapacity := capacity }
    buffer := waiting.toArray }

variable {capacity : Nat} {waiting : List Reference}

theorem buffering_self (c : Context) :
    c.buffering c.config.bufferCapacity c.buffer.toList = c := rfl

theorem simulate_buffering (c : Context) (r : Reference) :
    (c.buffering capacity waiting).simulate r = (c.simulate r).buffering capacity waiting := by
  have hadmits : (c.buffering capacity waiting).admits r = c.admits r := rfl
  rw [simulate_eq, simulate_eq, advance, advance, referred, referred, hadmits]
  cases c.admits r <;> rfl

theorem foldl_simulate_buffering (c : Context) (rs : List Reference) :
    rs.foldl simulate (c.buffering capacity waiting) =
      (rs.foldl simulate c).buffering capacity waiting := by
  induction rs generalizing c with
  | nil => rfl
  | cons r rest ih => rw [List.foldl_cons, List.foldl_cons, simulate_buffering, ih]

theorem drain_buffering (c : Context) : (c.buffering capacity waiting).drain =
    (waiting.foldl simulate c).buffering capacity [] := by
  rw [← foldl_simulate_buffering, drain, buffering, List.foldl_toArray]
  rfl

theorem record_buffering (c : Context) (r : Reference) : (c.buffering capacity waiting).record r =
    if max 1 capacity ≤ waiting.length + 1 then
      ((waiting ++ [r]).foldl simulate c).buffering capacity []
    else c.buffering capacity (waiting ++ [r]) := by
  have hpush : { c.buffering capacity waiting with
      buffer := (c.buffering capacity waiting).buffer.push r } =
        c.buffering capacity (waiting ++ [r]) := by
    simp [buffering]
  rw [record, hpush, drain_buffering]
  simp [buffering]

/-! What takes effect, in its order. -/

def apply (c : Context) : Effect → Context
  | .visit block => c.visit block
  | .reference r => c.simulate r

theorem foldl_apply_references (c : Context) (rs : List Reference) :
    (rs.map Effect.reference).foldl apply c = rs.foldl simulate c :=
  List.foldl_map ..

/-- A run does what takes effect of it. -/
theorem run_buffering (c : Context) (events : List Event) :
    (c.buffering capacity waiting).run (events ++ [.drain]) =
      ((Effect.schedule capacity waiting (events ++ [.drain])).foldl apply c).buffering
        capacity [] := by
  induction events generalizing c waiting with
  | nil =>
      rw [List.nil_append, Effect.schedule, Effect.schedule, List.append_nil, foldl_apply_references]
      exact c.drain_buffering
  | cons e rest ih =>
      rw [List.cons_append, run_cons]
      cases e with
      | visit block => exact ih (c.visit block)
      | drain =>
          rw [step, drain_buffering, ih, Effect.schedule, List.foldl_append, foldl_apply_references]
      | record r =>
          rw [step, record_buffering, Effect.schedule]
          split
          · rw [ih, ← foldl_apply_references, ← List.foldl_append]
          · rw [ih]

end Context

end Simulation

end BinTrace
