import BinTrace.Proofs.Reuse.Totals
import BinTrace.Proofs.Simulation.Steps

/-!
What is counted adds up. Every reference is counted once in the stream and once at its block, and
every reference that is simulated comes to the first level of each hierarchy, to each further level
if the level before has missed, and once to each analyzer.
-/

namespace BinTrace

open Cache (Counts Hierarchy)

namespace Cache

namespace Counts

/-- What a reference adds at the level with `n` levels before it, given where it ended. -/
def reached (c : Counts) (n : Nat) (hit : Option Nat) : Counts where
  hits := c.hits + if hit = some n then 1 else 0
  misses := c.misses + if Hierarchy.Reaches (n + 1) hit then 1 else 0

theorem length_record (cs : List Counts) (hit : Option Nat) :
    (record cs hit).length = cs.length := by
  fun_induction record cs hit <;> simp_all

theorem getElem?_record (cs : List Counts) (hit : Option Nat) (n : Nat) :
    (record cs hit)[n]? = cs[n]?.map fun c => c.reached n hit := by
  fun_induction record cs hit generalizing n with
  | case1 => rfl
  | case2 c rest ih =>
      cases n with
      | zero => simp [reached, Hierarchy.Reaches]
      | succ n =>
          rw [List.getElem?_cons_succ, List.getElem?_cons_succ, ih]
          simp [reached, Hierarchy.Reaches]
  | case3 c rest =>
      cases n with
      | zero => simp [reached, Hierarchy.Reaches]
      | succ n =>
          rw [List.getElem?_cons_succ, List.getElem?_cons_succ]
          cases rest[n]? with
          | none => rfl
          | some d => simp [reached, Hierarchy.Reaches]
  | case4 c rest k ih =>
      cases n with
      | zero => simp [reached, Hierarchy.Reaches]
      | succ n =>
          rw [List.getElem?_cons_succ, List.getElem?_cons_succ, ih]
          simp [reached, Hierarchy.Reaches]

/-- A reference that comes to a level ends there or goes on. -/
theorem accesses_reached (c : Counts) (n : Nat) (hit : Option Nat) :
    (c.reached n hit).accesses = c.accesses + if Hierarchy.Reaches n hit then 1 else 0 := by
  have hcases : Hierarchy.Reaches n hit ↔ hit = some n ∨ Hierarchy.Reaches (n + 1) hit := by
    cases hit with
    | none => simp [Hierarchy.Reaches]
    | some k =>
        simp only [Hierarchy.Reaches, Option.some.injEq, forall_eq']
        omega
  have hnot : hit = some n → ¬Hierarchy.Reaches (n + 1) hit := fun h hr =>
    absurd (hr n h) (by omega)
  simp only [accesses, reached]
  by_cases hend : hit = some n
  · rw [if_pos hend, if_neg (hnot hend), if_pos (hcases.mpr (.inl hend))]
    omega
  · simp only [hcases, hend, if_false, false_or]
    omega

end Counts

/-- As many references came to each level as missed in the level before. -/
structure Hierarchy.Cascade (h : Hierarchy) (references : Nat) : Prop where
  levels_ne : h.levels ≠ []
  length_eq : h.totals.length = h.levels.length
  first {t : Counts} : h.totals[0]? = some t → t.hits + t.misses = references
  next {n : Nat} {t u : Counts} : h.totals[n]? = some t → h.totals[n + 1]? = some u →
    u.hits + u.misses = t.misses

theorem Hierarchy.Cascade.process {h : Hierarchy} {references : Nat} (hh : h.Cascade references)
    (a : Nat) : (h.process a).2.Cascade (references + 1) := by
  have hlength := h.length_levels_process a
  have htotals := h.totals_process a
  refine ⟨fun hnil => hh.levels_ne ?_, ?_, fun {t} ht => ?_, fun {n t u} ht hu => ?_⟩
  · rw [hnil] at hlength
    exact List.length_eq_zero_iff.mp hlength.symm
  · rw [htotals, Counts.length_record, hlength, hh.length_eq]
  · rw [htotals, Counts.getElem?_record] at ht
    obtain ⟨before, hbefore, rfl⟩ := Option.map_eq_some_iff.mp ht
    have hreaches : Hierarchy.Reaches 0 (h.process a).1 := fun j _ => Nat.zero_le j
    have haccesses := before.accesses_reached 0 (h.process a).1
    rw [if_pos hreaches] at haccesses
    exact haccesses.trans (congrArg (· + 1) (hh.first hbefore))
  · rw [htotals, Counts.getElem?_record] at ht hu
    obtain ⟨before, hbefore, rfl⟩ := Option.map_eq_some_iff.mp ht
    obtain ⟨behind, hbehind, rfl⟩ := Option.map_eq_some_iff.mp hu
    refine (behind.accesses_reached (n + 1) (h.process a).1).trans ?_
    rw [Counts.reached, ← hh.next hbefore hbehind]
    rfl

/-- A hierarchy of levels that have counted nothing. -/
structure Hierarchy.Untouched (h : Hierarchy) : Prop where
  levels_ne : h.levels ≠ []
  totals_eq : h.totals = h.levels.map fun _ => {}

theorem Hierarchy.Untouched.withSeed {h : Hierarchy} (hh : h.Untouched) (seed : Nat) :
    (h.withSeed seed).Untouched := by
  have hlevels : (h.withSeed seed).levels = h.levels.map fun l => l.withSeed seed :=
    (List.map_append ..).symm
  have htotals : (h.withSeed seed).totals = h.totals := rfl
  refine ⟨?_, ?_⟩
  · rw [hlevels, ne_eq, List.map_eq_nil_iff]
    exact hh.levels_ne
  · rw [hlevels, htotals, hh.totals_eq, List.map_map]
    rfl

theorem Hierarchy.Untouched.eq_of_mem {h : Hierarchy} (hh : h.Untouched) {n : Nat} {t : Counts}
    (ht : h.totals[n]? = some t) : t = {} := by
  rw [hh.totals_eq, List.getElem?_map] at ht
  obtain ⟨_, _, rfl⟩ := Option.map_eq_some_iff.mp ht
  rfl

theorem Hierarchy.Untouched.cascade {h : Hierarchy} (hh : h.Untouched) : h.Cascade 0 where
  levels_ne := hh.levels_ne
  length_eq := by rw [hh.totals_eq, List.length_map]
  first ht := by
    rw [hh.eq_of_mem ht]
    rfl
  next ht hu := by
    rw [hh.eq_of_mem ht, hh.eq_of_mem hu]
    rfl

theorem Description.untouched_of_ofLine {line : List Char} {number : Nat} {h : Hierarchy}
    (hh : ofLine line number = .ok (some h)) : h.Untouched := by
  refine ⟨(accepted_of_ofLine hh).levels_ne, ?_⟩
  obtain ⟨⟨ws, hdescribed⟩, -⟩ := hierarchy_of_ofLine hh
  obtain ⟨sysid, ls, -, rfl⟩ := exists_new_of_hierarchy hdescribed
  rw [levels_new]
  rfl

end Cache

namespace Simulation

namespace BlockCounters

/-- The hits that a block has at a level of a hierarchy. -/
def hitsAt (k n : Nat) (b : BlockCounters) : Nat := ((b.levels.getD k []).getD n {}).hits

def missesAt (k n : Nat) (b : BlockCounters) : Nat := ((b.levels.getD k []).getD n {}).misses

end BlockCounters

namespace Context

/-- Adds up a number over all blocks that have counters. -/
def sumOver (c : Context) (f : BlockCounters → Nat) : Nat := (c.ids.map fun id => f (c.counters id)).sum

/-- Those references of a run that are simulated. -/
def simulated (c : Context) : List Effect → List Reference
  | [] => []
  | .visit block :: rest => (c.visit block).simulated rest
  | .reference r :: rest =>
    if c.admits r then r :: (c.simulate r).simulated rest else (c.simulate r).simulated rest

/-- What was counted of references of which some were simulated. -/
structure Conserves (c : Context) (recorded simulated : List Reference) : Prop where
  total_eq : c.total = recorded.length
  sampled_eq : c.sampled = simulated.length
  nodup_ids : c.ids.Nodup
  mem_ids {r : Reference} : r ∈ recorded → r.block ∈ c.ids
  sum_accesses : c.sumOver BlockCounters.accesses = c.total
  cascade {h : Cache.Hierarchy} : h ∈ c.hierarchies → h.Cascade c.sampled
  /-- A block has counters for the levels of all hierarchies. -/
  shape (id : Nat) : (c.counters id).levels.map List.length =
    c.hierarchies.map fun h => h.totals.length
  sum_levels {k n : Nat} {h : Cache.Hierarchy} {t : Cache.Counts} :
    c.hierarchies[k]? = some h → h.totals[n]? = some t →
      c.sumOver (BlockCounters.hitsAt k n) = t.hits ∧
        c.sumOver (BlockCounters.missesAt k n) = t.misses
  balances {a : Reuse.Analyzer} : c.reuse = some a ∨ c.spatial = some a →
    a.log.Balances (simulated.map Reference.block)

variable {c c' : Context} {r : Reference} {block id k n : Nat} {f : BlockCounters → Nat}
  {recorded observed : List Reference}

/-! Sums over all blocks. -/

theorem mem_ids_iff : id ∈ c.ids ↔ id < c.announced ∨ (c.blocks.get? id).isSome = true := by
  simp only [ids, unannounced, List.mem_append, List.mem_range, List.mem_filter, KeyMap.mem_keys,
    decide_eq_true_eq]
  by_cases hlt : id < c.announced
  · simp [hlt]
  · simp [hlt, Nat.not_lt.mp hlt]

theorem ids_nodup (c : Context) : c.ids.Nodup := by
  refine List.nodup_append.mpr ⟨List.nodup_range, c.blocks.nodup_keys.filter _, fun i hi j hj => ?_⟩
  have hlt : i < c.announced := List.mem_range.mp hi
  have hle := of_decide_eq_true (List.mem_filter.mp hj).2
  omega

/-- What the counters of one block change in a sum. -/
theorem sumOver_of_counters (hids : ∀ id, id ∈ c'.ids ↔ id = block ∨ id ∈ c.ids)
    (hsame : ∀ id, id ≠ block → c'.counters id = c.counters id)
    (hnew : block ∉ c.ids → f (c.counters block) = 0) :
    c'.sumOver f + f (c.counters block) = c.sumOver f + f (c'.counters block) := by
  have hset : c'.ids.toFinset = insert block c.ids.toFinset := by
    ext id
    simp [hids]
  have hrest : ∑ id ∈ c.ids.toFinset.erase block, f (c'.counters id) =
      ∑ id ∈ c.ids.toFinset.erase block, f (c.counters id) :=
    Finset.sum_congr rfl fun id hid => by rw [hsame id (Finset.ne_of_mem_erase hid)]
  have hafter : c'.sumOver f = f (c'.counters block) +
      ∑ id ∈ c.ids.toFinset.erase block, f (c.counters id) := by
    rw [sumOver, ← List.sum_toFinset _ c'.ids_nodup, hset,
      ← Finset.add_sum_erase _ _ (Finset.mem_insert_self _ _), Finset.erase_insert_eq_erase, hrest]
  have hbefore : c.sumOver f = f (c.counters block) +
      ∑ id ∈ c.ids.toFinset.erase block, f (c.counters id) := by
    rw [sumOver, ← List.sum_toFinset _ c.ids_nodup]
    by_cases hmem : block ∈ c.ids
    · exact (Finset.add_sum_erase _ _ (List.mem_toFinset.mpr hmem)).symm
    · rw [hnew hmem, Finset.erase_eq_of_notMem (by simpa using hmem), Nat.zero_add]
  omega

theorem counters_of_notMem_ids (h : block ∉ c.ids) : c.counters block = .fresh c.hierarchies := by
  rw [mem_ids_iff, not_or, Bool.not_eq_true, Option.isSome_eq_false_iff,
    Option.isNone_iff_eq_none] at h
  rw [counters, h.2]
  rfl

theorem mem_ids_visit : id ∈ (c.visit block).ids ↔ id = block ∨ id ∈ c.ids := by
  rw [mem_ids_iff, mem_ids_iff, visit_eq, KeyMap.get?_insert]
  split <;> simp_all

theorem mem_ids_simulate : id ∈ (c.simulate r).ids ↔ id = r.block ∨ id ∈ c.ids := by
  have hannounced : (c.advance r).announced = c.announced := by
    rw [advance]
    split <;> rfl
  rw [mem_ids_iff, mem_ids_iff, simulate_eq, KeyMap.get?_insert, hannounced]
  split <;> simp_all

theorem sumOver_visit (hfresh : ∀ hs, f (.fresh hs) = 0) (hvisited : ∀ b, f (c.visited b) = f b)
    (block : Nat) : (c.visit block).sumOver f = c.sumOver f := by
  have hsum : (c.visit block).sumOver f + f (c.counters block) =
      c.sumOver f + f ((c.visit block).counters block) :=
    sumOver_of_counters (fun id => mem_ids_visit)
      (fun id hid => by rw [counters_visit, if_neg hid])
      fun hnew => by rw [counters_of_notMem_ids hnew, hfresh]
  rw [counters_visit, if_pos rfl, hvisited] at hsum
  omega

theorem sumOver_simulate (hfresh : ∀ hs, f (.fresh hs) = 0) (r : Reference) :
    (c.simulate r).sumOver f + f (c.counters r.block) =
      c.sumOver f + f (c.referred r (c.counters r.block)) := by
  have hsum : (c.simulate r).sumOver f + f (c.counters r.block) =
      c.sumOver f + f ((c.simulate r).counters r.block) :=
    sumOver_of_counters (fun id => mem_ids_simulate)
      (fun id hid => by rw [counters_simulate, if_neg hid])
      fun hnew => by rw [counters_of_notMem_ids hnew, hfresh]
  rwa [counters_simulate, if_pos rfl] at hsum

theorem accesses_fresh (hs : List Cache.Hierarchy) :
    BlockCounters.accesses (.fresh hs) = 0 := rfl

theorem levelAt_fresh (hs : List Cache.Hierarchy) (k n : Nat) :
    ((BlockCounters.fresh hs).levels.getD k []).getD n {} = {} := by
  simp only [BlockCounters.fresh, List.getD_eq_getElem?_getD, List.getElem?_map]
  cases hs[k]? with
  | none => rfl
  | some h =>
      rw [Option.map_some, Option.getD_some, List.getElem?_map]
      cases h.levels[n]? <;> rfl

/-! What a visit and a reference keep. -/

theorem Conserves.visit (h : c.Conserves recorded observed) (block : Nat) :
    (c.visit block).Conserves recorded observed where
  total_eq := h.total_eq
  sampled_eq := h.sampled_eq
  nodup_ids := ids_nodup _
  mem_ids hr := mem_ids_visit.mpr (.inr (h.mem_ids hr))
  sum_accesses := (sumOver_visit accesses_fresh (fun _ => rfl) block).trans h.sum_accesses
  cascade hh := h.cascade hh
  shape id := by
    rw [counters_visit]
    split
    · exact h.shape block
    · exact h.shape id
  sum_levels {k n _ _} hh ht := by
    obtain ⟨hhits, hmisses⟩ := h.sum_levels hh ht
    refine ⟨?_, ?_⟩
    · rw [← hhits]
      exact sumOver_visit (fun hs => congrArg Cache.Counts.hits (levelAt_fresh hs k n))
        (fun _ => rfl) block
    · rw [← hmisses]
      exact sumOver_visit (fun hs => congrArg Cache.Counts.misses (levelAt_fresh hs k n))
        (fun _ => rfl) block
  balances ha := h.balances ha

theorem simulate_of_admits (h : c.admits r = true) : c.simulate r =
    { c with
      blocks := c.blocks.insert r.block (c.referred r (c.counters r.block))
      total := c.total + 1
      sampled := c.sampled + 1
      skipped := 0
      hierarchies := c.hierarchies.map fun h => (h.process r.address).2
      reuse := c.reuse.map fun a => ((c.caughtUp a).process r.block r.address).2
      spatial := c.spatial.map fun a => ((c.caughtUp a).process r.block r.address).2 } := by
  rw [simulate_eq, advance, if_pos h]

theorem simulate_of_not_admits (h : c.admits r = false) : c.simulate r =
    { c with
      blocks := c.blocks.insert r.block (c.referred r (c.counters r.block))
      total := c.total + 1
      skipped := c.skipped + 1 } := by
  rw [simulate_eq, advance, if_neg (by simp [h])]

theorem sum_accesses_simulate (c : Context) (r : Reference) :
    (c.simulate r).sumOver BlockCounters.accesses = c.sumOver BlockCounters.accesses + 1 := by
  have hsum := c.sumOver_simulate accesses_fresh r
  have hreferred : (c.referred r (c.counters r.block)).accesses =
      (c.counters r.block).accesses + 1 := rfl
  omega

theorem map_length_referred {b : BlockCounters} (hlength : b.levels.length = c.hierarchies.length) :
    (c.referred r b).levels.map List.length = b.levels.map List.length := by
  rw [referred]
  split
  · refine List.ext_getElem ?_ fun k _ _ => ?_
    · simp [hits, hlength]
    · simp [Cache.Counts.length_record]
  · rfl

/-- What a reference that is simulated adds at a level. -/
theorem levelAt_referred (hadmits : c.admits r = true) {h : Cache.Hierarchy}
    (hh : c.hierarchies[k]? = some h) {b : BlockCounters}
    (hshape : b.levels.map List.length = c.hierarchies.map fun h => h.totals.length)
    (hn : n < h.totals.length) : ((c.referred r b).levels.getD k []).getD n {} =
      ((b.levels.getD k []).getD n {}).reached n (h.process r.address).1 := by
  have hk : (b.levels.map List.length)[k]? = (c.hierarchies.map fun h => h.totals.length)[k]? := by
    rw [hshape]
  rw [List.getElem?_map, List.getElem?_map, hh, Option.map_some] at hk
  obtain ⟨cs, hcs, hlength⟩ := Option.map_eq_some_iff.mp hk
  have hhits : (c.hits r)[k]? = some (h.process r.address).1 := by
    rw [hits, List.getElem?_map, hh, Option.map_some]
  have hcount : cs[n]? = some cs[n] := List.getElem?_eq_getElem (by omega)
  simp only [referred, hadmits, if_true, List.getD_eq_getElem?_getD, List.getElem?_zipWith, hcs,
    hhits, Option.getD_some, Cache.Counts.getElem?_record, hcount, Option.map_some]

theorem levels_referred (hadmits : c.admits r = false) (b : BlockCounters) :
    (c.referred r b).levels = b.levels := by
  rw [referred, if_neg (by simp [hadmits])]

theorem Conserves.cascade_simulate (h : c.Conserves recorded observed) (r : Reference)
    {g : Cache.Hierarchy} (hg : g ∈ (c.simulate r).hierarchies) :
    g.Cascade (c.simulate r).sampled := by
  cases hadmits : c.admits r with
  | false =>
      rw [simulate_of_not_admits hadmits] at hg ⊢
      exact h.cascade hg
  | true =>
      rw [simulate_of_admits hadmits] at hg ⊢
      obtain ⟨before, hbefore, rfl⟩ := List.mem_map.mp hg
      exact (h.cascade hbefore).process r.address

theorem Conserves.shape_simulate (h : c.Conserves recorded observed) (r : Reference) (id : Nat) :
    ((c.simulate r).counters id).levels.map List.length =
      (c.simulate r).hierarchies.map fun h => h.totals.length := by
  have hkept : ((c.simulate r).hierarchies.map fun h => h.totals.length) =
      c.hierarchies.map fun h => h.totals.length := by
    cases hadmits : c.admits r with
    | false => rw [simulate_of_not_admits hadmits]
    | true =>
        rw [simulate_of_admits hadmits, List.map_map]
        refine List.map_congr_left fun h _ => ?_
        rw [Function.comp_apply, Cache.Hierarchy.totals_process, Cache.Counts.length_record]
  have hlength (id : Nat) : (c.counters id).levels.length = c.hierarchies.length := by
    simpa using congrArg List.length (h.shape id)
  rw [counters_simulate, hkept]
  split
  · rw [map_length_referred (hlength r.block), h.shape]
  · exact h.shape id

theorem Conserves.sum_levels_simulate (h : c.Conserves recorded observed) (r : Reference)
    {g : Cache.Hierarchy} {t : Cache.Counts} (hg : (c.simulate r).hierarchies[k]? = some g)
    (ht : g.totals[n]? = some t) :
    (c.simulate r).sumOver (BlockCounters.hitsAt k n) = t.hits ∧
      (c.simulate r).sumOver (BlockCounters.missesAt k n) = t.misses := by
  have hhits := c.sumOver_simulate (f := BlockCounters.hitsAt k n)
    (fun hs => congrArg Cache.Counts.hits (levelAt_fresh hs k n)) r
  have hmisses := c.sumOver_simulate (f := BlockCounters.missesAt k n)
    (fun hs => congrArg Cache.Counts.misses (levelAt_fresh hs k n)) r
  simp only [BlockCounters.hitsAt, BlockCounters.missesAt] at hhits hmisses ⊢
  cases hadmits : c.admits r with
  | false =>
      rw [simulate_of_not_admits hadmits] at hg
      obtain ⟨hhits', hmisses'⟩ := h.sum_levels hg ht
      rw [levels_referred hadmits] at hhits hmisses
      omega
  | true =>
      rw [simulate_of_admits hadmits, List.getElem?_map] at hg
      obtain ⟨before, hbefore, rfl⟩ := Option.map_eq_some_iff.mp hg
      rw [Cache.Hierarchy.totals_process, Cache.Counts.getElem?_record] at ht
      obtain ⟨u, hu, rfl⟩ := Option.map_eq_some_iff.mp ht
      obtain ⟨hhits', hmisses'⟩ := h.sum_levels hbefore hu
      rw [levelAt_referred hadmits hbefore (h.shape r.block) (List.getElem?_eq_some_iff.mp hu).1]
        at hhits hmisses
      simp only [Cache.Counts.reached] at hhits hmisses ⊢
      omega

theorem log_caughtUp (c : Context) (a : Reuse.Analyzer) : (c.caughtUp a).log = a.log := by
  rw [caughtUp]
  split
  · rfl
  · exact a.log_skip c.skipped

theorem Conserves.balances_simulate (h : c.Conserves recorded observed) (r : Reference)
    {a : Reuse.Analyzer} (ha : (c.simulate r).reuse = some a ∨ (c.simulate r).spatial = some a) :
    a.log.Balances ((observed ++ if c.admits r then [r] else []).map Reference.block) := by
  cases hadmits : c.admits r with
  | false =>
      rw [simulate_of_not_admits hadmits] at ha
      simpa using h.balances ha
  | true =>
      rw [simulate_of_admits hadmits, Option.map_eq_some_iff, Option.map_eq_some_iff] at ha
      obtain ⟨before, hbefore, rfl⟩ : ∃ before, (c.reuse = some before ∨ c.spatial = some before) ∧
          ((c.caughtUp before).process r.block r.address).2 = a := by
        rcases ha with ⟨before, hbefore, heq⟩ | ⟨before, hbefore, heq⟩
        · exact ⟨before, .inl hbefore, heq⟩
        · exact ⟨before, .inr hbefore, heq⟩
      rw [Reuse.Analyzer.log_process, log_caughtUp]
      simpa using (h.balances hbefore).record r.block _

theorem Conserves.simulate (h : c.Conserves recorded observed) (r : Reference) :
    (c.simulate r).Conserves (recorded ++ [r]) (observed ++ if c.admits r then [r] else []) where
  total_eq := by rw [total_simulate, h.total_eq, List.length_append, List.length_singleton]
  sampled_eq := by
    cases hadmits : c.admits r with
    | false =>
        rw [simulate_of_not_admits hadmits]
        simpa using h.sampled_eq
    | true =>
        rw [simulate_of_admits hadmits]
        simpa using h.sampled_eq
  nodup_ids := ids_nodup _
  mem_ids {s} hs := by
    rw [mem_ids_simulate]
    rcases List.mem_append.mp hs with hs | hs
    · exact .inr (h.mem_ids hs)
    · exact .inl (congrArg Reference.block (List.mem_singleton.mp hs))
  sum_accesses := by rw [sum_accesses_simulate, h.sum_accesses, total_simulate]
  cascade := h.cascade_simulate r
  shape := h.shape_simulate r
  sum_levels := h.sum_levels_simulate r
  balances := h.balances_simulate r

theorem Conserves.foldl_apply (h : c.Conserves recorded observed) (effects : List Effect) :
    (effects.foldl apply c).Conserves (recorded ++ Effect.references effects)
      (observed ++ c.simulated effects) := by
  induction effects generalizing c recorded observed with
  | nil => simpa [Effect.references, simulated] using h
  | cons e rest ih =>
      cases e with
      | visit block => exact ih (h.visit block)
      | reference r =>
          have hrest := ih (h.simulate r)
          rw [List.append_assoc, List.append_assoc] at hrest
          rw [simulated]
          split
          · rename_i hadmits
            rwa [if_pos hadmits] at hrest
          · rename_i hadmits
            rwa [if_neg hadmits] at hrest

theorem Conserves.buffering (h : c.Conserves recorded observed) (capacity : Nat)
    (waiting : List Reference) : (c.buffering capacity waiting).Conserves recorded observed :=
  ⟨h.total_eq, h.sampled_eq, h.nodup_ids, h.mem_ids, h.sum_accesses, h.cascade, h.shape,
    h.sum_levels, h.balances⟩

/-! Nothing is counted at the beginning. -/

section

variable {stream announced : Nat} {config : Config} {hierarchies : List Cache.Hierarchy}

theorem untouched_new (hh : ∀ h ∈ hierarchies, h.Untouched) :
    ∀ h ∈ (new stream config hierarchies announced).hierarchies, h.Untouched := by
  unfold new
  cases config.seed with
  | none => exact hh
  | some seed => exact List.forall_mem_map.mpr fun h hmem => (hh h hmem).withSeed seed

theorem sumOver_new (hfresh : ∀ hs, f (.fresh hs) = 0) :
    (new stream config hierarchies announced).sumOver f = 0 := by
  refine List.sum_eq_zero fun n hn => ?_
  obtain ⟨id, -, rfl⟩ := List.mem_map.mp hn
  exact hfresh _

theorem conserves_new (hh : ∀ h ∈ hierarchies, h.Untouched) :
    (new stream config hierarchies announced).Conserves [] [] where
  total_eq := rfl
  sampled_eq := rfl
  nodup_ids := ids_nodup _
  mem_ids hr := absurd hr List.not_mem_nil
  sum_accesses := sumOver_new accesses_fresh
  cascade hmem := (untouched_new hh _ hmem).cascade
  shape id := by
    refine (List.map_map ..).trans (List.map_congr_left fun h hmem => ?_)
    rw [(untouched_new hh h hmem).totals_eq]
    rfl
  sum_levels {k n _ _} hmem ht := by
    rw [(untouched_new hh _ (List.mem_of_getElem? hmem)).eq_of_mem ht]
    exact ⟨sumOver_new fun hs => congrArg Cache.Counts.hits (levelAt_fresh hs k n),
      sumOver_new fun hs => congrArg Cache.Counts.misses (levelAt_fresh hs k n)⟩
  balances {a} ha := by
    have hlog : ∃ rule, a.log = { rule } := by
      rcases ha with ha | ha
      · obtain ⟨-, ha⟩ := Option.ite_none_right_eq_some.mp ha
        rw [← Option.some.inj ha, reuseAnalyzer]
        split <;> exact ⟨_, rfl⟩
      · obtain ⟨-, ha⟩ := Option.ite_none_right_eq_some.mp ha
        rw [← Option.some.inj ha]
        exact ⟨_, rfl⟩
    obtain ⟨rule, hrule⟩ := hlog
    rw [hrule]
    exact Reuse.Log.balances_new rule

end

/-- When all that was recorded has gone through, the counters of the stream, of its blocks, of the
hierarchies and of the analyzers tell of the same references. -/
theorem conserves_run (stream announced : Nat) (config : Config)
    {hierarchies : List Cache.Hierarchy}
    (hh : ∀ h ∈ hierarchies, ∃ line number, Cache.Description.ofLine line number = .ok (some h))
    (events : List Event) :
    let c := new stream config hierarchies announced
    (c.run (events ++ [.drain])).Conserves (Event.recorded events)
      (c.simulated (Effect.schedule config.bufferCapacity [] (events ++ [.drain]))) := by
  intro c
  have hnew : c.Conserves [] [] := conserves_new fun h hmem => by
    obtain ⟨line, number, hline⟩ := hh h hmem
    exact Cache.Description.untouched_of_ofLine hline
  have hrun : (c.buffering config.bufferCapacity []).run (events ++ [.drain]) = _ :=
    c.run_buffering events
  have hdone := (hnew.foldl_apply
    (Effect.schedule config.bufferCapacity [] (events ++ [.drain]))).buffering
      config.bufferCapacity []
  rw [← hrun, Effect.references_schedule] at hdone
  exact hdone

/-! A stream with references of a block that was announced and of one that was not, when every
second reference is simulated. -/

namespace EverySecond

def config : Config :=
  { sampling := { on := 1, off := 1 }, measuresReuse := true, measuresSpatial := true
    bufferCapacity := 2 }

def events : List Event :=
  [.visit 0, .record ⟨0, 0x40⟩, .record ⟨7, 0x80⟩, .visit 7, .record ⟨7, 0x40⟩, .drain,
    .record ⟨0, 0x40⟩]

def start : Context := new 0 config [Cache.Description.fourLevels] 2

def simulated : List Reference :=
  start.simulated (Effect.schedule config.bufferCapacity [] (events ++ [.drain]))

end EverySecond

theorem conserves_everySecond :
    (EverySecond.start.run (EverySecond.events ++ [.drain])).Conserves
      (Event.recorded EverySecond.events) EverySecond.simulated :=
  conserves_run 0 2 EverySecond.config
    (List.forall_mem_singleton.mpr ⟨_, _, Cache.Description.ofLine_fourLevels⟩) EverySecond.events

example : EverySecond.simulated = [⟨0, 0x40⟩, ⟨7, 0x40⟩] := by decide +kernel

end Context

end Simulation

end BinTrace
