import Mathlib
import BinTrace.Proofs.Reuse.Totals

/-!
Rows of a histogram. They increase with their bins, each distance lies in the row of its bin, and
together with the misses they count all references. The ranges of two rows have a distance in
common in two cases only: a limit of single bins that is no power of two lies inside of the range of
the first shared bin, and the last bin begins with the greatest power of two, which is a bin itself.
-/

namespace BinTrace.Reuse

namespace BinRule

variable {r : BinRule} {a b n : Nat}

/-- The range of bin `b` takes in the bin `a` in front of it. -/
def Blurs (r : BinRule) (a b : Nat) : Prop :=
  r.individual ≠ 0 ∧ r.individual < b ∧
    ((b / 2 < a ∧ a ≤ r.individual) ∨ (a = 2 ^ 63 ∧ b = lastBin))

/-- A distance has a bin of its own, or one that ends with the next power of two, or the last. -/
theorem bin?_cases (h : r.bin? n = some b) :
    ((r.individual = 0 ∨ n ≤ r.individual) ∧ b = n) ∨
      (r.individual ≠ 0 ∧ r.individual < n ∧
        ((∃ j < 63, b = 2 ^ (j + 1) ∧ 2 ^ j < n ∧ n ≤ 2 ^ (j + 1)) ∨ (2 ^ 63 < n ∧ b = lastBin))) := by
  unfold bin? at h
  split at h
  · cases h
  · split at h
    · rename_i hshared
      refine .inr ⟨hshared.1, hshared.2, ?_⟩
      obtain rfl := Option.some.inj h
      unfold powerBin
      split
      · rename_i hlast
        exact .inr ⟨hlast, rfl⟩
      · rename_i hle
        have hne : n - 1 ≠ 0 := by omega
        have hself := Nat.log2_self_le hne
        have hlt : n - 1 < 2 ^ ((n - 1).log2 + 1) := Nat.lt_log2_self
        refine .inl ⟨(n - 1).log2, (Nat.log2_lt hne).mpr (by omega), rfl, by omega, by omega⟩
    · rename_i hown
      exact .inl ⟨by omega, (Option.some.inj h).symm⟩

theorem mem_range (h : r.bin? n = some b) (hn : n < 2 ^ 64) : r.lowerBound b ≤ n ∧ n ≤ b := by
  unfold lowerBound
  obtain ⟨hown, rfl⟩ | ⟨hne, hlt, ⟨j, -, rfl, hlow, hhigh⟩ | ⟨hlow, rfl⟩⟩ := bin?_cases h
  · rw [if_pos hown]
    omega
  · rw [if_neg (by omega)]
    have := Nat.pow_succ (n := 2) (m := j)
    omega
  · unfold lastBin
    rw [if_neg (by omega)]
    omega

theorem two_pow_le {j : Nat} (h : j < 63) : (2 : Nat) ^ (j + 1) ≤ 2 ^ 63 :=
  Nat.pow_le_pow_right Nat.two_pos h

theorem lowerBound_lastBin (h : r.individual ≠ 0) (hlt : r.individual < lastBin) :
    r.lowerBound lastBin = 2 ^ 63 := by
  unfold lowerBound
  rw [if_neg (by omega)]
  rfl

/-- A bin that others share ends with a power of two, or it is the last. -/
theorem shared_bin (h : r.bin? n = some b) (hne : r.individual ≠ 0) (hlt : r.individual < b) :
    (∃ j < 63, b = 2 ^ (j + 1)) ∨ b = lastBin := by
  obtain ⟨hown, rfl⟩ | ⟨-, -, ⟨j, hj, rfl, -⟩ | ⟨-, rfl⟩⟩ := bin?_cases h
  · omega
  · exact .inl ⟨j, hj, rfl⟩
  · exact .inr rfl

theorem lt_of_blurs (h : r.Blurs a b) : a < b := by
  obtain ⟨-, hlt, ⟨-, hsingle⟩ | ⟨rfl, rfl⟩⟩ := h
  · omega
  · unfold lastBin
    omega

/-- The limit of single bins and the greatest power of two are the only bins that a range behind
them can reach back to. -/
theorem lowerBound_le_iff {m : Nat} (ha : r.bin? m = some a) (hb : r.bin? n = some b)
    (hlt : a < b) : r.lowerBound b ≤ a ↔ r.Blurs a b := by
  unfold lowerBound Blurs
  by_cases hown : r.individual = 0 ∨ b ≤ r.individual
  · rw [if_pos hown]
    omega
  rw [not_or, Nat.not_le] at hown
  rw [if_neg (by omega)]
  by_cases hsingle : a ≤ r.individual
  · have hnot : ¬ (a = 2 ^ 63 ∧ b = lastBin) ∨ b / 2 < a := by
      unfold lastBin
      omega
    omega
  -- Both bins are shared: only the last one does not begin behind the bin in front of it.
  obtain ⟨i, hi, rfl⟩ | rfl := shared_bin ha hown.1 (by omega)
  · obtain ⟨j, hj, rfl⟩ | rfl := shared_bin hb hown.1 hown.2
    · have hij : i + 1 < j + 1 := (Nat.pow_lt_pow_iff_right Nat.one_lt_two).mp hlt
      have hexp : i + 1 ≤ j := Nat.le_of_lt_succ hij
      have hpow : (2 : Nat) ^ (i + 1) ≤ 2 ^ j := Nat.pow_le_pow_right Nat.two_pos hexp
      have hhalf : (2 : Nat) ^ (j + 1) / 2 = 2 ^ j := by omega
      have hne : 2 ^ (j + 1) ≠ lastBin := by
        have hdouble := Nat.pow_succ (n := 2) (m := j)
        unfold lastBin
        omega
      omega
    · have hhalf : lastBin / 2 + 1 = 2 ^ 63 := rfl
      have hpow := two_pow_le hi
      omega
  · obtain ⟨j, hj, rfl⟩ | rfl := shared_bin hb hown.1 hown.2
    · have hpow := two_pow_le hj
      unfold lastBin at hlt
      omega
    · omega

/-- A distance lies in the range of its own bin, and perhaps in that of a bin which takes in the
end of its own. -/
theorem mem_range_iff {m : Nat} (hn : r.bin? n = some a) (hb : r.bin? m = some b)
    (hlt : n < 2 ^ 64) :
    (r.lowerBound b ≤ n ∧ n ≤ b) ↔ b = a ∨ (n = a ∧ r.Blurs n b) := by
  have hrange := mem_range hn hlt
  refine ⟨fun ⟨hlow, hhigh⟩ => ?_, ?_⟩
  · obtain hba | rfl | hab := Nat.lt_trichotomy b a
    · obtain ⟨-, -, hcase⟩ := (lowerBound_le_iff hb hn hba).mp (by omega)
      obtain ⟨-, rfl⟩ | ⟨-, hgt, ⟨j, hj, rfl, -⟩ | ⟨hlast, -⟩⟩ := bin?_cases hn
      · omega
      · have hpow := two_pow_le hj
        omega
      · omega
    · exact .inl rfl
    · have hblurs := (lowerBound_le_iff hn hb hab).mp (by omega)
      obtain rfl : n = a := by
        obtain ⟨-, rfl⟩ | ⟨-, hgt, -⟩ := bin?_cases hn
        · rfl
        · obtain ⟨hne, hlt, hsingle | ⟨rfl, rfl⟩⟩ := hblurs
          · omega
          · have hlower := lowerBound_lastBin hne hlt
            omega
      exact .inr ⟨rfl, hblurs⟩
  · rintro (rfl | ⟨rfl, hblurs⟩)
    · exact hrange
    · have hlt := lt_of_blurs hblurs
      exact ⟨(lowerBound_le_iff hn hb hlt).mpr hblurs, Nat.le_of_lt hlt⟩

/-- Single bins up to a power of two are all in front of the range of the first shared bin. -/
theorem not_blurs (hrule : r.individual = 0 ∨ ∃ k, r.individual = 2 ^ k) (hb : r.bin? n = some b)
    (hne : b ≠ lastBin) : ¬ r.Blurs a b := by
  rintro ⟨hind, hlt, ⟨hhalf, hsingle⟩ | ⟨-, hlast⟩⟩
  · obtain ⟨k, hk⟩ := hrule.resolve_left hind
    obtain ⟨j, -, rfl⟩ | hlast := shared_bin hb hind hlt
    · rw [hk] at hlt
      have hkj : k < j + 1 := (Nat.pow_lt_pow_iff_right Nat.one_lt_two).mp hlt
      have hexp : k ≤ j := Nat.le_of_lt_succ hkj
      have hpow : (2 : Nat) ^ k ≤ 2 ^ j := Nat.pow_le_pow_right Nat.two_pos hexp
      omega
    · exact hne hlast
  · exact hne hlast

theorem bin?_le (h : r.bin? n = some b) (hn : n ≤ 2 ^ 63) : b ≤ 2 ^ 63 := by
  obtain ⟨-, rfl⟩ | ⟨-, -, ⟨j, hj, rfl, -⟩ | ⟨hlast, -⟩⟩ := bin?_cases h
  · exact hn
  · exact two_pow_le hj
  · omega

end BinRule

namespace Stats

variable {s : Stats} {distances : List (Option Nat)}

/-- A row is a bin that is not empty, with its range. -/
theorem mem_histogram {row : BinRow} : row ∈ s.histogram ↔
    row.lower = s.rule.lowerBound row.upper ∧ row.count = s.count row.upper ∧ 0 < row.count := by
  unfold histogram count
  simp only [List.mem_map, List.mem_filter, decide_eq_true_eq, Prod.exists, KeyMap.mem_entries_iff]
  constructor
  · rintro ⟨bin, count, ⟨hget, hpos⟩, rfl⟩
    exact ⟨rfl, by simp [hget], hpos⟩
  · rintro ⟨hlower, hcount, hpos⟩
    obtain ⟨lower, upper, count⟩ := row
    dsimp only at hlower hcount hpos
    refine ⟨upper, count, ⟨?_, hpos⟩, by rw [hlower]⟩
    cases hget : s.bins.get? upper with
    | none =>
        rw [hget] at hcount
        exact absurd hcount (Nat.ne_of_gt hpos)
    | some value =>
        rw [hget] at hcount
        rw [hcount]
        rfl

/-- A bin has one row. -/
theorem upper_eq_iff {p q : BinRow} (hp : p ∈ s.histogram) (hq : q ∈ s.histogram) :
    p.upper = q.upper ↔ p = q := by
  obtain ⟨hlower, hcount, -⟩ := mem_histogram.mp hp
  obtain ⟨hlower', hcount', -⟩ := mem_histogram.mp hq
  refine ⟨fun heq => ?_, fun heq => by rw [heq]⟩
  obtain ⟨lower, upper, count⟩ := p
  obtain ⟨lower', upper', count'⟩ := q
  dsimp only at heq hlower hcount hlower' hcount'
  rw [heq] at hlower hcount
  rw [heq, hlower, hlower', hcount, hcount']

theorem histogram_increasing (s : Stats) :
    s.histogram.Pairwise fun p q => p.upper < q.upper :=
  List.pairwise_map.mpr (s.bins.sorted.filter _)

/-- The rows leave out only what counts for nothing. -/
theorem sum_histogram (s : Stats) :
    (s.histogram.map BinRow.count).sum = s.bins.values.sum := by
  unfold histogram KeyMap.values
  rw [List.map_map]
  induction s.bins.entries with
  | nil => rfl
  | cons e rest ih =>
      by_cases hpos : 0 < e.2
      · rw [List.filter_cons_of_pos (by simpa using hpos), List.map_cons, List.map_cons,
          List.sum_cons, List.sum_cons, ih]
        rfl
      · rw [List.filter_cons_of_neg (by simpa using hpos), List.map_cons, List.sum_cons, ih]
        omega

/-- What the rows of a histogram say of the distances that were recorded. -/
structure Tabulates (s : Stats) (distances : List (Option Nat)) : Prop where
  counts : s.Counts distances
  increasing : s.histogram.Pairwise fun p q => p.upper < q.upper
  count_eq : ∀ row ∈ s.histogram,
    row.count = distances.countP fun d => d.bind s.rule.bin? = some row.upper
  /-- A distance that is counted in a bin lies in the range of the row of this bin, and in no other
  range unless it is the end of its bin and blurred by a bin behind it. -/
  own_row : ∀ n b, some n ∈ distances → s.rule.bin? n = some b → ∃ row ∈ s.histogram,
    row.upper = b ∧ ∀ other ∈ s.histogram,
      (other.lower ≤ n ∧ n ≤ other.upper) ↔ other = row ∨ (n = b ∧ s.rule.Blurs n other.upper)
  /-- Two ranges are apart unless the second takes in the bin of the first. -/
  apart_iff : s.histogram.Pairwise fun p q =>
    p.upper < q.lower ↔ ¬ s.rule.Blurs p.upper q.upper
  apart : (s.rule.individual = 0 ∨ ∃ k, s.rule.individual = 2 ^ k) →
    (∀ n, some n ∈ distances → n ≤ 2 ^ 63) → s.histogram.Pairwise fun p q => p.upper < q.lower
  total : (s.histogram.map BinRow.count).sum + s.misses = s.accesses

/-- Behind a row there is a distance that was counted in it. -/
theorem Counts.of_row (h : s.Counts distances) {row : BinRow} (hrow : row ∈ s.histogram) :
    ∃ n, some n ∈ distances ∧ s.rule.bin? n = some row.upper := by
  obtain ⟨-, hcount, hpos⟩ := mem_histogram.mp hrow
  rw [hcount, h.count_eq, List.countP_pos_iff] at hpos
  obtain ⟨d, hd, hbin⟩ := hpos
  rw [decide_eq_true_eq, Option.bind_eq_some_iff] at hbin
  obtain ⟨n, rfl, hbin⟩ := hbin
  exact ⟨n, hd, hbin⟩

theorem Counts.row_of (h : s.Counts distances) {n b : Nat} (hn : some n ∈ distances)
    (hbin : s.rule.bin? n = some b) : ∃ row ∈ s.histogram, row.upper = b := by
  refine ⟨⟨s.rule.lowerBound b, b, s.count b⟩, mem_histogram.mpr ⟨rfl, rfl, ?_⟩, rfl⟩
  rw [h.count_eq, List.countP_pos_iff]
  exact ⟨some n, hn, by simpa using hbin⟩

theorem Counts.own_row (h : s.Counts distances) {n b : Nat} (hn : some n ∈ distances)
    (hlt : n < 2 ^ 64) (hbin : s.rule.bin? n = some b) : ∃ row ∈ s.histogram,
      row.upper = b ∧ ∀ other ∈ s.histogram,
        (other.lower ≤ n ∧ n ≤ other.upper) ↔
          other = row ∨ (n = b ∧ s.rule.Blurs n other.upper) := by
  obtain ⟨row, hrow, rfl⟩ := h.row_of hn hbin
  refine ⟨row, hrow, rfl, fun other hother => ?_⟩
  obtain ⟨m, -, hm⟩ := h.of_row hother
  rw [(mem_histogram.mp hother).1, ← upper_eq_iff hother hrow]
  exact BinRule.mem_range_iff hbin hm hlt

theorem Counts.apart_iff (h : s.Counts distances) : s.histogram.Pairwise fun p q =>
    p.upper < q.lower ↔ ¬ s.rule.Blurs p.upper q.upper := by
  refine List.Pairwise.imp_of_mem (fun {p q} hp hq hlt => ?_) s.histogram_increasing
  obtain ⟨m, -, hm⟩ := h.of_row hp
  obtain ⟨n, -, hn⟩ := h.of_row hq
  rw [(mem_histogram.mp hq).1, ← BinRule.lowerBound_le_iff hm hn hlt, Nat.not_le]

theorem Counts.tabulates (h : s.Counts distances) (hsum : s.Balanced)
    (hlt : ∀ n, some n ∈ distances → n < 2 ^ 64) : s.Tabulates distances := by
  refine ⟨h, s.histogram_increasing, fun row hrow => ?_, fun n b hn => h.own_row hn (hlt n hn),
    h.apart_iff, fun hrule hle => ?_, ?_⟩
  · rw [(mem_histogram.mp hrow).2.1, h.count_eq]
  · refine h.apart_iff.imp_of_mem fun {p q} _ hq hiff => hiff.mpr ?_
    obtain ⟨n, hn, hbin⟩ := h.of_row hq
    have hupper := BinRule.bin?_le hbin (hle n hn)
    refine BinRule.not_blurs hrule hbin ?_
    unfold lastBin
    omega
  · rw [sum_histogram]
    unfold Balanced at hsum
    omega

/-- What recording one distance preserves holds after all of them. -/
theorem counts_foldl (rule : BinRule) (id : Nat) (distances : List (Option Nat)) :
    (distances.foldl record { id, rule }).rule = rule ∧
      (distances.foldl record { id, rule }).Counts distances ∧
      (distances.foldl record { id, rule }).Balanced := by
  induction distances using List.reverseRecOn with
  | nil => exact ⟨rfl, counts_nil id rule, rfl⟩
  | append_singleton distances d ih =>
      obtain ⟨hrule, hcounts, hsum⟩ := ih
      rw [List.foldl_append]
      exact ⟨(keeps_record _ d).2.1.trans hrule, hcounts.record d, hsum.record d⟩

/-- Whatever the limits, the histogram of a stream of distances is a table of them, whose ranges
are apart except where a row blurs the one in front of it. -/
theorem tabulates_foldl (rule : BinRule) (id : Nat) (distances : List (Option Nat))
    (hlt : ∀ n, some n ∈ distances → n < 2 ^ 64) :
    (distances.foldl record { id, rule }).rule = rule ∧
      (distances.foldl record { id, rule }).Tabulates distances := by
  obtain ⟨hrule, hcounts, hsum⟩ := counts_foldl rule id distances
  exact ⟨hrule, hcounts.tabulates hsum hlt⟩

theorem tabulates_sharedBins :
    (∀ n : Nat, some n ∈ [some 3, none, some 9, some 1000, some 16] → n < 2 ^ 64) ∧
      ([some 3, none, some 9, some 1000, some 16].foldl record
        { id := 0, rule := ⟨4, 512⟩ }).Tabulates [some 3, none, some 9, some 1000, some 16] := by
  have hlt : ∀ n : Nat, some n ∈ [some 3, none, some 9, some 1000, some 16] → n < 2 ^ 64 := by
    simp
  exact ⟨hlt, (tabulates_foldl ⟨4, 512⟩ 0 _ hlt).2⟩

/-- With single bins up to 5 the row of the distances from 6 to 8 takes in the distance 5. -/
theorem exists_overlapping_rows :
    ([some 5, some 6].foldl record { id := 0, rule := ⟨5, 0⟩ }).histogram =
        [⟨5, 5, 1⟩, ⟨5, 8, 1⟩] ∧
      ¬ ([some 5, some 6].foldl record { id := 0, rule := ⟨5, 0⟩ }).histogram.Pairwise
        fun p q => p.upper < q.lower ∨ q.upper < p.lower := by
  decide

end Stats

end BinTrace.Reuse
