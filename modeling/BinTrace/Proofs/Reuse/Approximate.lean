import BinTrace.Proofs.Reuse.Exact
import BinTrace.Proofs.Reuse.Scale
import BinTrace.Width

/-!
Approximate reuse distances beside exact ones. Whatever the two analyzers are told, and whenever the
scale is compacted, it counts the times of the last references that the exact window holds. So both
take the same references for cold, and a distance is off by no more than half of what the rule
allows a node that has so much behind it.
-/

namespace BinTrace.Reuse

open WeightTree

namespace Approximate

variable {t : WeightTree Unit} {older newer : List ScaleNode} {n : ScaleNode}

/-! ### Taking a time out of the scale -/

/-- Weight is added to a node, as long as the whole scale stays below the greatest weight. -/
theorem adjust_add (ht : t.Valid) (heq : t.entries = older ++ n :: newer) (w : Nat)
    (hw : w + n.weight ≤ maxWeight) :
    (t.adjust n.key w).2.entries = older ++ { n with weight := w + n.weight } :: newer ∧
      (t.adjust n.key w).2.Valid := by
  obtain ⟨-, hentries, hvalid⟩ := adjust_at ht heq w
  have hweight : min maxWeight ((n.weight : Int) + w).toNat = w + n.weight := by omega
  rw [hweight] at hentries
  exact ⟨hentries, hvalid⟩

theorem mergePrevious_spec (rule : ScaleRule) (ht : t.Valid) (heq : t.entries = older ++ n :: newer)
    (hsum : weightOf t.entries ≤ maxWeight) :
    let t' := mergePrevious t n.key n.weight (rule.maxSize (weightOf newer))
    t'.Valid ∧ Relation.ReflTransGen rule.Merge t.entries t'.entries ∧
      ∃ older' n', t'.entries = older' ++ n' :: newer ∧ n'.key = n.key := by
  have hinc := ht.increasing
  rw [heq] at hinc
  have hprevious : t.predecessor? n.key = older.getLast?.map WeightEntry.key := by
    rw [predecessor?_eq ht.increasing, heq, hinc.at_entry.1]
  unfold mergePrevious
  rw [hprevious]
  cases older using List.reverseRecOn with
  | nil => exact ⟨ht, .refl, _, n, heq, rfl⟩
  | append_singleton front m =>
      rw [List.append_assoc, List.singleton_append] at heq
      rw [List.getLast?_concat, Option.map_some]
      dsimp only
      rw [weight?_at ht heq, Option.getD_some]
      split
      · rename_i hfits
        obtain ⟨-, hentries, hvalid⟩ := remove_at ht heq
        have hle : m.weight + n.weight ≤ maxWeight := by
          rw [heq, weightOf_append, weightOf_cons, weightOf_cons] at hsum
          omega
        obtain ⟨hentries', hvalid'⟩ := adjust_add hvalid hentries m.weight hle
        refine ⟨hvalid', ?_, front, _, hentries', rfl⟩
        rw [heq, hentries']
        exact .single (.intro hfits)
      · exact ⟨ht, .refl, front ++ [m], n, by simpa using heq, rfl⟩

theorem mergeNext_spec (rule : ScaleRule) (ht : t.Valid) (heq : t.entries = older ++ n :: newer)
    (hsum : weightOf t.entries ≤ maxWeight) :
    let t' := mergeNext rule t n.key (weightOf newer)
    t'.Valid ∧ Relation.ReflTransGen rule.Merge t.entries t'.entries := by
  have hinc := ht.increasing
  rw [heq] at hinc
  have hnext : t.successor? n.key = newer.head?.map WeightEntry.key := by
    rw [successor?_eq ht.increasing, heq, hinc.at_entry.2.2]
  unfold mergeNext
  rw [hnext]
  cases newer with
  | nil => exact ⟨ht, .refl⟩
  | cons m newer =>
      have hm : t.entries = (older ++ [n]) ++ m :: newer := by simpa using heq
      rw [List.head?_cons, Option.map_some, weight?_at ht heq]
      dsimp only
      rw [weight?_at ht hm, Option.getD_some, Option.getD_some, weightOf_cons,
        Nat.add_sub_cancel_left]
      split
      · rename_i hfits
        obtain ⟨-, hentries, hvalid⟩ := remove_at ht heq
        have hle : n.weight + m.weight ≤ maxWeight := by
          rw [heq, weightOf_append, weightOf_cons, weightOf_cons] at hsum
          omega
        obtain ⟨hentries', hvalid'⟩ := adjust_add hvalid hentries n.weight hle
        refine ⟨hvalid', ?_⟩
        rw [heq, hentries']
        rw [Nat.add_comm] at hfits
        exact .single (.intro hfits)
      · exact ⟨ht, .refl⟩

/-- The least node from a time on. -/
theorem ceiling?_at (ht : t.Valid) (heq : t.entries = older ++ n :: newer) {time : Nat}
    (hlt : ∀ m ∈ older, m.key < time) (hle : time ≤ n.key) : t.ceiling? time = some n.key := by
  have hfind : t.entries.find? (fun m => time ≤ m.key) = some n := by
    refine List.find?_eq_some_iff_append.mpr ⟨by simpa using hle, older, newer, heq, fun m hm => ?_⟩
    simpa using hlt m hm
  rw [ceiling?_eq ht.increasing, hfind, Option.map_some]

/-- A node stands for the times after the node before it, up to its own. -/
theorem ceiling?_eq_iff (ht : t.Valid) (heq : t.entries = older ++ n :: newer) (time : Nat) :
    t.ceiling? time = some n.key ↔ (∀ m ∈ older, m.key < time) ∧ time ≤ n.key := by
  refine ⟨fun h => ?_, fun h => ceiling?_at ht heq h.1 h.2⟩
  rw [ceiling?_eq ht.increasing] at h
  obtain ⟨m, hm, hkey⟩ := Option.map_eq_some_iff.mp h
  obtain ⟨hle, older', newer', heq', hlt⟩ := List.find?_eq_some_iff_append.mp hm
  have hsame : older' = older := by
    have h₁ := (heq' ▸ ht.increasing).at_entry.1
    have h₂ := (heq ▸ ht.increasing).at_entry.1
    rw [← heq'] at h₁
    rw [← heq, ← hkey] at h₂
    exact h₁.symm.trans h₂
  rw [hsame] at hlt
  exact ⟨fun p hp => by simpa using hlt p hp, by simpa [← hkey] using hle⟩

/-- The node that stands for a time loses one of its weight; if that was all then it is left out,
and otherwise it may be merged with its neighbours. -/
theorem takeOut_spec (rule : ScaleRule) (ht : t.Valid) (heq : t.entries = older ++ n :: newer)
    {time : Nat} (hlt : ∀ m ∈ older, m.key < time) (hle : time ≤ n.key) (hpos : 1 ≤ n.weight)
    (hsum : weightOf t.entries ≤ maxWeight + 1) :
    (takeOut rule t time).1 = some (n.weight / 2 + weightOf newer) ∧
      (takeOut rule t time).2.Valid ∧
      (n.weight = 1 ∧ (takeOut rule t time).2.entries = older ++ newer ∨
        Relation.ReflTransGen rule.Merge (older ++ { n with weight := n.weight - 1 } :: newer)
          (takeOut rule t time).2.entries) := by
  have hinc := ht.increasing
  rw [heq] at hinc
  have habove : t.weightAbove n.key = weightOf newer := by
    rw [weightAbove_eq ht, heq, hinc.at_entry.2.2]
  have hsum' : n.weight - 1 + (weightOf older + weightOf newer) ≤ maxWeight := by
    rw [heq, weightOf_append, weightOf_cons] at hsum
    omega
  have hless : min maxWeight ((n.weight : Int) + -1).toNat = n.weight - 1 := by omega
  obtain ⟨hremaining, hentries, hvalid⟩ := adjust_at ht heq (-1)
  rw [hless] at hremaining hentries
  unfold takeOut
  rw [ceiling?_at ht heq hlt hle]
  dsimp only
  rw [habove, weight?_at ht heq, Option.getD_some]
  rcases hadjust : t.adjust n.key (-1) with ⟨remaining?, t'⟩
  rw [hadjust] at hremaining hentries hvalid
  dsimp only at hremaining hentries hvalid ⊢
  rw [hremaining, Option.getD_some]
  split
  · rename_i hzero
    obtain ⟨-, hgone, hvalid'⟩ := remove_at hvalid hentries
    exact ⟨rfl, hvalid', .inl ⟨by omega, hgone⟩⟩
  · split
    · exact ⟨rfl, hvalid, .inr (hentries ▸ .refl)⟩
    · have hweight : weightOf t'.entries ≤ maxWeight := by
        rw [hentries, weightOf_append, weightOf_cons]
        dsimp only
        omega
      obtain ⟨hvalid₁, hmerges₁, older', n', hentries₁, hkey⟩ :=
        mergePrevious_spec rule hvalid hentries hweight
      -- merging keeps the weight, so the second merge stays below the greatest weight as well
      rw [← weightOf_merges hmerges₁] at hweight
      obtain ⟨hvalid₂, hmerges₂⟩ := mergeNext_spec rule hvalid₁ hentries₁ hweight
      rw [hkey] at hvalid₂ hmerges₂
      exact ⟨rfl, hvalid₂, .inr (hentries ▸ hmerges₁.trans hmerges₂)⟩

/-! ### Compaction -/

/-- Nodes that are inserted one after the other in the order of their times are all there. -/
theorem foldl_insert_spec {es : List ScaleNode} (ht : t.Valid) (h : Increasing (t.entries ++ es)) :
    let u := es.foldl (fun (t : WeightTree Unit) e => t.insert e.key () e.weight) t
    u.entries = t.entries ++ es ∧ u.Valid := by
  induction es generalizing t with
  | nil => exact ⟨by simp, ht⟩
  | cons e rest ih =>
      obtain ⟨-, -, hlt, -⟩ := increasing_append_cons.mp h
      obtain ⟨hentries, hvalid⟩ := insert_last ht hlt () e.weight
      have happend : (t.insert e.key () e.weight).entries ++ rest = t.entries ++ e :: rest := by
        rw [hentries, List.append_assoc, List.singleton_append]
      have hspec := ih hvalid (happend ▸ h)
      rwa [happend] at hspec

theorem compact_spec {a : Approximate} (hr : a.rule.Sound) {extra : Nat} {times : List Nat}
    (h : Scales a.rule extra times a.scale.entries) :
    a.compact.scale.Valid ∧
      Relation.ReflTransGen a.rule.Merge a.scale.entries a.compact.scale.entries := by
  have hmerges := merges_merged a.rule a.scale
  have hinc : Increasing ((leaf : WeightTree Unit).entries ++ merged a.rule a.scale) :=
    (h.merges hr hmerges).increasing
  obtain ⟨hentries, hvalid⟩ := foldl_insert_spec .leaf hinc
  refine ⟨hvalid, ?_⟩
  rw [show a.compact.scale.entries = merged a.rule a.scale from hentries]
  exact hmerges

/-- What a reference makes of an analyzer, before any compaction, when the time of the last
reference to its address has been taken out of the scale. -/
structure Referred (a a' : Approximate) (id address : Nat) (distance : Option Nat)
    (scale : WeightTree Unit) : Prop where
  rule_eq : a'.rule = a.rule
  time_eq : a'.time = a.time + 1
  lastAccess_eq : a'.lastAccess = a.lastAccess.insert address a.time
  scale_eq : a'.scale = scale.insert a.time () 1
  log_eq : a'.log = a.log.record id distance

theorem process_of_some {a : Approximate} {address last : Nat} {distance : Option Nat}
    {scale : WeightTree Unit} (hlast : a.lastAccess.get? address = some last)
    (htake : takeOut a.rule a.scale last = (distance, scale)) (id : Nat) :
    (a.process id address).1 = distance ∧ ∃ a', Referred a a' id address distance scale ∧
      ((a.process id address).2 = a' ∨ (a.process id address).2 = a'.compact) := by
  unfold process
  rw [hlast]
  dsimp only
  rw [htake]
  refine ⟨rfl, { a with
    lastAccess := a.lastAccess.insert address a.time
    scale := scale.insert a.time () 1
    time := a.time + 1
    log := a.log.record id distance }, ⟨rfl, rfl, rfl, rfl, rfl⟩, ?_⟩
  split
  · exact .inr rfl
  · exact .inl rfl

theorem process_of_none {a : Approximate} {address : Nat} (hnone : a.lastAccess.get? address = none)
    (id : Nat) : (a.process id address).1 = none ∧
      ∃ a', Referred a a' id address none a.scale ∧
        ((a.process id address).2 = a' ∨ (a.process id address).2 = a'.compact) := by
  unfold process
  rw [hnone]
  dsimp only
  refine ⟨rfl, { a with
    lastAccess := a.lastAccess.insert address a.time
    distinct := a.distinct + 1
    scale := a.scale.insert a.time () 1
    time := a.time + 1
    log := a.log.record id none }, ⟨rfl, rfl, rfl, rfl, rfl⟩, ?_⟩
  split
  · exact .inr rfl
  · exact .inl rfl

/-- What is recorded of a reference is the distance that it gets. -/
theorem log_process (a : Approximate) (id address : Nat) :
    (a.process id address).2.log = a.log.record id (a.process id address).1 := by
  cases hlast : a.lastAccess.get? address with
  | none =>
      obtain ⟨hd, a', href, hafter⟩ := process_of_none hlast id
      rw [hd, ← href.log_eq]
      rcases hafter with h | h
      · rw [h]
      · rw [h]
        rfl
  | some last =>
      obtain ⟨hd, a', href, hafter⟩ := process_of_some hlast rfl id
      rw [hd, ← href.log_eq]
      rcases hafter with h | h
      · rw [h]
      · rw [h]
        rfl

end Approximate

/-! ### Both analyzers side by side -/

/-- An exact analyzer without a limit and an approximate one that are told the same. The test for
too many nodes may have any outcome, so the approximate one may be compacted at any time. -/
inductive Lockstep (rule : ScaleRule) : Exact → Approximate → Prop
  | start (individual individual' : Nat) :
      Lockstep rule (.new 0 individual) (.new rule individual')
  | reference {e : Exact} {a : Approximate} (id : Nat) {address : Nat}
      (haddress : address < addressSpace) (h : Lockstep rule e a) :
      Lockstep rule (e.process id address).2 (a.process id address).2
  | skip {e : Exact} {a : Approximate} (amount : Nat) (h : Lockstep rule e a) :
      Lockstep rule (e.skip amount) (a.skip amount)
  | compact {e : Exact} {a : Approximate} (h : Lockstep rule e a) : Lockstep rule e a.compact

/-- When the addresses of the window were referenced, the latest time at the end. -/
def Exact.times (e : Exact) : List Nat := e.order.entries.map WeightEntry.key

/-- The scale counts the times of the window, and the window is the same for both. -/
structure InStep (rule : ScaleRule) (e : Exact) (a : Approximate) : Prop where
  synced : e.Synced []
  capacity_eq : e.capacity = 0
  address_lt : ∀ b ∈ e.active, b < addressSpace
  rule_eq : a.rule = rule
  lastAccess_eq : a.lastAccess = e.window
  time_eq : a.time = e.sequence
  valid : a.scale.Valid
  key_lt : ∀ n ∈ a.scale.entries, n.key < a.time
  scales : Scales rule 0 e.times a.scale.entries

/-- An approximate distance, or none, beside an exact one. -/
structure Close (rule : ScaleRule) (exact approximate : Option Nat) : Prop where
  cold_iff : approximate = none ↔ exact = none
  near : ∀ x ∈ approximate, ∀ d ∈ exact, ((x : Int) - d).natAbs ≤ rule.maxSize d / 2
  eq : ∀ x ∈ approximate, ∀ d ∈ exact, rule.maxSize d = 1 → x = d

variable {rule : ScaleRule} {e : Exact} {a : Approximate}

/-- There are no more addresses than the greatest weight and one. -/
theorem InStep.weightOf_le (h : InStep rule e a) : weightOf a.scale.entries ≤ maxWeight + 1 := by
  have hcard : e.active.toFinset ⊆ Finset.range addressSpace := fun b hb =>
    Finset.mem_range.mpr (h.address_lt b (List.mem_toFinset.mp hb))
  have hle := Finset.card_le_card hcard
  rw [List.toFinset_card_of_nodup h.synced.nodup, Finset.card_range, Exact.active,
    List.length_map] at hle
  rw [h.scales.total, Exact.times, List.length_map]
  exact hle

theorem InStep.compact (hr : rule.Sound) (h : InStep rule e a) : InStep rule e a.compact := by
  obtain ⟨hs, hc, haddress, rfl, hlast, htime, hvalid, hkey, hscales⟩ := h
  obtain ⟨hvalid', hmerges⟩ := Approximate.compact_spec hr hscales
  refine ⟨hs, hc, haddress, rfl, hlast, htime, hvalid', fun n hn => ?_, hscales.merges hr hmerges⟩
  obtain ⟨m, hm, hmn⟩ := exists_key_of_merges hmerges n hn
  exact hmn ▸ hkey m hm

/-- The time of an address of the window is taken out of the scale, and its distance comes close to
the number of addresses behind it. -/
theorem InStep.takeOut (hr : rule.Sound) (h : InStep rule e a) {before after : List Nat}
    {last : Nat} (htimes : e.times = before ++ last :: after) :
    ∃ x scale, Approximate.takeOut a.rule a.scale last = (some x, scale) ∧ scale.Valid ∧
      (∀ n ∈ scale.entries, n.key < a.time) ∧ Scales rule 1 (before ++ after) scale.entries ∧
      ((x : Int) - after.length).natAbs ≤ rule.maxSize after.length / 2 := by
  have hscales := h.scales
  rw [htimes] at hscales
  obtain ⟨older, n, newer, heq, hlt, hle⟩ := hscales.exists_node (t := last) (by simp)
  rw [heq] at hscales
  have hsorted : (before ++ last :: after).Pairwise (· < ·) := by
    rw [← htimes, Exact.times]
    exact List.pairwise_map.mpr h.synced.valid.increasing
  obtain ⟨hpos, hnear⟩ := hscales.near hr hsorted hlt hle
  obtain ⟨hdistance, hvalid, hentries⟩ :=
    Approximate.takeOut_spec a.rule h.valid heq hlt hle hpos h.weightOf_le
  -- the older nodes have one less behind them until the next time comes in
  have hless := hscales.takeOut hr hlt hle hpos
  have hkeys : ∀ m ∈ older ++ { n with weight := n.weight - 1 } :: newer, m.key < a.time := by
    intro m hm
    rcases List.mem_append.mp hm with hm | hm
    · exact h.key_lt m (by simp [heq, hm])
    · rcases List.mem_cons.mp hm with rfl | hm
      · exact h.key_lt n (by simp [heq])
      · exact h.key_lt m (by simp [heq, hm])
  refine ⟨_, _, Prod.ext hdistance rfl, hvalid, fun m hm => ?_, ?_, hnear⟩
  · rcases hentries with ⟨-, hgone⟩ | hmerges
    · rw [hgone] at hm
      exact hkeys m
        (List.mem_append.mpr ((List.mem_append.mp hm).imp_right (List.mem_cons_of_mem _)))
    · obtain ⟨q, hq, hqm⟩ := exists_key_of_merges hmerges m hm
      exact hqm ▸ hkeys q hq
  · rcases hentries with ⟨hone, hgone⟩ | hmerges
    · rw [hgone]
      exact hless.drop (by simp [hone])
    · rw [h.rule_eq] at hmerges ⊢
      exact hless.merges hr hmerges

/-- The next time goes into the scale and into the window. -/
theorem InStep.add (hr : rule.Sound) (h : InStep rule e a) {e' : Exact} {a' : Approximate}
    {id address : Nat} {distance : Option Nat} {rest : List (WeightEntry Nat)}
    {scale : WeightTree Unit}
    (haddress : address < addressSpace) (href : Exact.Referred e e' id address distance)
    (hentries : e'.order.entries = rest ++ [⟨e.sequence, address, 1⟩])
    (hrest : ∀ n ∈ rest, n ∈ e.order.entries) (hvalid : scale.Valid)
    (hkeys : ∀ n ∈ scale.entries, n.key < a.time)
    (hscales : Scales rule 1 (rest.map WeightEntry.key) scale.entries)
    {approximate : Option Nat} (href' : Approximate.Referred a a' id address approximate scale) :
    InStep rule e' a' := by
  obtain ⟨hrule, htime, hlast, hscale, -⟩ := href'
  obtain ⟨hscaled, hvalid'⟩ := insert_last hvalid hkeys () 1
  have htimes : e'.times = rest.map WeightEntry.key ++ [a.time] := by
    rw [Exact.times, hentries, List.map_append, h.time_eq]
    rfl
  refine ⟨href.synced, href.capacity_eq.trans h.capacity_eq, fun b hb => ?_,
    hrule.trans h.rule_eq, ?_, ?_, hscale ▸ hvalid', fun n hn => ?_, ?_⟩
  · rw [Exact.active, hentries, List.map_append, List.mem_append] at hb
    rcases hb with hb | hb
    · obtain ⟨n, hn, rfl⟩ := List.mem_map.mp hb
      exact h.address_lt _ (List.mem_map.mpr ⟨n, hrest n hn, rfl⟩)
    · obtain rfl := List.mem_singleton.mp hb
      exact haddress
  · rw [hlast, href.window_eq, h.lastAccess_eq, h.time_eq]
  · rw [htime, href.sequence_eq, h.time_eq]
  · rw [hscale, hscaled, List.mem_append, List.mem_singleton] at hn
    rw [htime]
    rcases hn with hn | rfl
    · exact Nat.lt_succ_of_lt (hkeys n hn)
    · exact Nat.lt_succ_self _
  · rw [htimes, hscale, hscaled]
    refine hscales.concat hr hkeys fun s hs => ?_
    obtain ⟨n, hn, rfl⟩ := List.mem_map.mp hs
    rw [h.time_eq]
    exact h.synced.key_lt n (hrest n hn)

/-- One reference, for both analyzers. -/
theorem InStep.process (hr : rule.Sound) (h : InStep rule e a) (id address : Nat) :
    Close rule (e.process id address).1 (a.process id address).1 ∧
      (address < addressSpace → InStep rule (e.process id address).2 (a.process id address).2) := by
  -- compaction afterwards keeps the two in step
  have hcompact : ∀ {e' : Exact} {a' a'' : Approximate}, InStep rule e' a' →
      a'' = a' ∨ a'' = a'.compact → InStep rule e' a'' := by
    rintro e' a' a'' hstep (rfl | rfl)
    · exact hstep
    · exact hstep.compact hr
  by_cases hmem : address ∈ e.active
  · obtain ⟨left, last, right, hsplit⟩ := h.synced.exists_split hmem
    have hlast := h.synced.get?_of_split hsplit
    obtain ⟨hd, href, hentries⟩ := h.synced.process_of_mem hsplit id
    have htimes : e.times = left.map WeightEntry.key ++ last :: right.map WeightEntry.key := by
      rw [Exact.times, hsplit, List.map_append, List.map_cons]
    obtain ⟨x, scale, htake, hvalid, hkeys, hscales, hnear⟩ := h.takeOut hr htimes
    rw [List.length_map] at hnear
    rw [← List.map_append] at hscales
    rw [← h.lastAccess_eq] at hlast
    obtain ⟨hx, a', href', hcompacted⟩ := Approximate.process_of_some hlast htake id
    rw [hd, hx]
    refine ⟨⟨by simp, ?_, ?_⟩, fun haddress => hcompact ?_ hcompacted⟩
    · intro x' hx' d hd'
      obtain rfl := Option.some.inj hx'
      obtain rfl := Option.some.inj hd'
      exact hnear
    · intro x' hx' d hd' hone
      obtain rfl := Option.some.inj hx'
      obtain rfl := Option.some.inj hd'
      rw [hone] at hnear
      omega
    · refine h.add hr haddress href hentries (fun n hn => ?_) hvalid hkeys hscales href'
      rw [hsplit]
      exact ((List.sublist_cons_self _ right).append_left left).subset hn
  · obtain ⟨hd, href, hentries⟩ := h.synced.process_of_notMem hmem id
    rw [Exact.evict_of_unbounded h.capacity_eq] at href hentries
    have hnone := h.synced.get?_of_notMem hmem
    rw [← h.lastAccess_eq] at hnone
    obtain ⟨hx, a', href', hcompacted⟩ := Approximate.process_of_none hnone id
    rw [hd, hx]
    refine ⟨⟨by simp, by simp, by simp⟩, fun haddress => hcompact ?_ hcompacted⟩
    exact h.add hr haddress href hentries (fun n hn => hn) h.valid h.key_lt
      (h.scales.of_le hr (Nat.zero_le 1)) href'

theorem inStep_of_empty (hs : e.Synced []) (hc : e.capacity = 0) (ho : e.order = .leaf)
    (hscale : a.scale = .leaf) (hlast : a.lastAccess = e.window) (htime : a.time = e.sequence) :
    InStep a.rule e a := by
  have hnone : a.scale.entries = [] := by rw [hscale]; rfl
  have horder : e.order.entries = [] := by rw [ho]; rfl
  refine ⟨hs, hc, ?_, rfl, hlast, htime, hscale ▸ .leaf, by simp [hnone], ?_⟩
  · simp [Exact.active, horder]
  · rw [hnone, Exact.times, horder]
    exact ⟨.nil, rfl, by simp, by simp⟩

/-- Whatever is done to both, they stay in step. -/
theorem Lockstep.inStep (hr : rule.Sound) (h : Lockstep rule e a) : InStep rule e a := by
  induction h with
  | start individual individual' =>
      exact inStep_of_empty (e := Exact.new 0 individual) (a := Approximate.new rule individual')
        (Exact.tracks_of_empty rfl rfl).synced rfl rfl rfl rfl rfl
  | @reference e a id address haddress _ ih => exact (ih.process hr id address).2 haddress
  | @skip e a amount _ ih =>
      have hsame : (a.skip amount).rule = rule := ih.rule_eq
      have htime : (a.skip amount).time = (e.skip amount).sequence :=
        congrArg (· + amount) ih.time_eq
      have hempty := inStep_of_empty (Exact.tracks_of_empty (e := e.skip amount) rfl rfl).synced
        ih.capacity_eq rfl (a := a.skip amount) rfl rfl htime
      rwa [hsame] at hempty
  | compact _ ih => exact ih.compact hr

/-- For every rule that allows each node some weight, and no less with more behind it, and whatever
is done to both analyzers: every reference is cold for both or for neither, and its approximate
distance differs from the exact one by at most half of what the rule allows. All times that are
remembered lie under a node of the scale, whose weight is the number of times that lie under it, and
is within what the rule allows it for the weight of the nodes after it. -/
theorem Lockstep.close_distances (hone : ∀ n, 1 ≤ rule.maxSize n) (hmono : Monotone rule.maxSize)
    (h : Lockstep rule e a) :
    (∀ id address, Close rule (e.process id address).1 (a.process id address).1 ∧
      (e.process id address).2.log = e.log.record id (e.process id address).1 ∧
      (a.process id address).2.log = a.log.record id (a.process id address).1) ∧
      (∀ address last, a.lastAccess.get? address = some last →
        ∃ k, a.scale.ceiling? last = some k) ∧
      ∀ n ∈ a.scale.entries,
        n.weight = a.lastAccess.entries.countP (fun r => a.scale.ceiling? r.2 = some n.key) ∧
        n.weight ≤ rule.maxSize (a.scale.weightAbove n.key) := by
  have hr : rule.Sound := ⟨hone, hmono⟩
  have hstep := h.inStep hr
  refine ⟨fun id address => ⟨(hstep.process hr id address).1, e.log_process id address,
    a.log_process id address⟩, fun address last hlast => ?_, fun n hn => ⟨?_, ?_⟩⟩
  · rw [hstep.lastAccess_eq, hstep.synced.get?_iff address (by simp)] at hlast
    have htime : last ∈ e.times := List.mem_map.mpr ⟨_, hlast, rfl⟩
    obtain ⟨older, n, newer, heq, hlt, hle⟩ := hstep.scales.exists_node htime
    exact ⟨n.key, Approximate.ceiling?_at hstep.valid heq hlt hle⟩
  · obtain ⟨older, newer, heq⟩ := List.append_of_mem hn
    have hscales := hstep.scales
    rw [heq] at hscales
    have hperm := hstep.synced.entries_perm
    rw [hstep.lastAccess_eq, hperm.countP_eq, hscales.weight_eq, Exact.times, List.countP_map,
      List.countP_map]
    refine List.countP_congr fun m _ => ?_
    simp [Approximate.ceiling?_eq_iff hstep.valid heq]
  · have hbounded := hstep.scales.bounded n hn
    rwa [← weightAbove_eq hstep.valid] at hbounded

/-! Six addresses under a rule that allows a node half of the weight behind it. Once the scale has
been compacted, the oldest two share a node. -/

namespace SixAddresses

def halves : ScaleRule :=
  { maxSize := fun after => max 1 (after / 2), isCrowded := fun _ _ => false }

def exact : Exact := (List.range 6).foldl (fun e b => (e.process 0 b).2) (Exact.new 0 32)

def approximate : Approximate :=
  Approximate.compact
    ((List.range 6).foldl (fun a b => (a.process 0 b).2) (Approximate.new halves 32))

theorem one_le (n : Nat) : 1 ≤ halves.maxSize n := Nat.le_max_left 1 (n / 2)

theorem mono : Monotone halves.maxSize := fun _ _ h =>
  max_le_max (Nat.le_refl 1) (Nat.div_le_div_right h)

theorem lockstep_foldl {addresses : List Nat} (haddress : ∀ b ∈ addresses, b < addressSpace)
    (h : Lockstep halves e a) : Lockstep halves (addresses.foldl (fun e b => (e.process 0 b).2) e)
      (addresses.foldl (fun a b => (a.process 0 b).2) a) := by
  induction addresses generalizing e a with
  | nil => exact h
  | cons b rest ih =>
      obtain ⟨hb, hrest⟩ := List.forall_mem_cons.mp haddress
      exact ih hrest (h.reference 0 hb)

theorem lockstep : Lockstep halves exact approximate := by
  refine .compact (lockstep_foldl (fun b hb => ?_) (.start 32 32))
  exact Nat.lt_trans (List.mem_range.mp hb) (by decide)

end SixAddresses

/-- The second address has a distance of four, and is taken for one behind five others. -/
theorem Lockstep.close_sixAddresses : Lockstep SixAddresses.halves SixAddresses.exact
      SixAddresses.approximate ∧
    (SixAddresses.exact.process 0 1).1 = some 4 ∧
    (SixAddresses.approximate.process 0 1).1 = some 5 ∧
    Close SixAddresses.halves (some 4) (some 5) := by
  have hclose := (Lockstep.close_distances SixAddresses.one_le SixAddresses.mono
    SixAddresses.lockstep).1 0 1
  have hexact : (SixAddresses.exact.process 0 1).1 = some 4 := by cbv
  have happroximate : (SixAddresses.approximate.process 0 1).1 = some 5 := by cbv
  rw [hexact, happroximate] at hclose
  exact ⟨SixAddresses.lockstep, hexact, happroximate, hclose.1⟩

end BinTrace.Reuse
