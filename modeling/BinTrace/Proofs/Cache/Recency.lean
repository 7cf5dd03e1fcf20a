import BinTrace.Proofs.Cache.Hierarchy
import BinTrace.Proofs.Cache.Ring
import BinTrace.Proofs.Reuse.Exact

/-!
A level that replaces the line that was not used for longest holds, in each of its sets, the lines
that a window of reuse distances of as many addresses holds: those that were referenced last, in the
order of their last reference. So its hits are the references with a distance in such a window.
-/

namespace BinTrace.Cache

open Reuse (resident resident_concat_of_mem resident_concat_of_notMem)

namespace LineSet

variable {s : LineSet} {ways way line : Nat} {isIndexed : Bool} {history empties used : List Nat}

/-- The used ways hold the lines that a history leaves in a window, in the same order, and are all
younger than the empty ones. -/
structure Recalls (s : LineSet) (ways : Nat) (isIndexed : Bool) (history empties used : List Nat) :
    Prop where
  consistent : s.Consistent isIndexed
  ring : s.Ring ways (empties ++ used)
  lines_eq : used.map s.lines.get? = (resident ways history).map some
  empty : ∀ w ∉ used, s.lines.get? w = none

theorem recalls_empty (hways : 0 < ways) (isIndexed : Bool) :
    empty.Recalls ways isIndexed [] (List.range ways) [] := by
  refine ⟨consistent_empty isIndexed, ?_, ?_, fun _ _ => KeyMap.get?_empty _⟩
  · rw [List.append_nil]
    exact ring_empty hways
  · simp [resident, Reuse.newest]

theorem Recalls.length_eq (h : s.Recalls ways isIndexed history empties used) :
    used.length = (resident ways history).length := by
  rw [← List.length_map (f := s.lines.get?), h.lines_eq, List.length_map]

/-- A line that is there is in the window. -/
theorem Recalls.mem_resident (h : s.Recalls ways isIndexed history empties used)
    (hline : s.lines.get? way = some line) : way ∈ used ∧ line ∈ resident ways history := by
  have hway : way ∈ used := by
    by_contra hnot
    rw [h.empty way hnot] at hline
    cases hline
  have hmem : some line ∈ used.map s.lines.get? := List.mem_map.mpr ⟨way, hway, hline⟩
  rw [h.lines_eq] at hmem
  exact ⟨hway, by simpa using hmem⟩

/-- A set finds exactly the lines of the window. -/
theorem Recalls.find?_isSome_iff (h : s.Recalls ways isIndexed history empties used) :
    (s.find? isIndexed line).isSome ↔ line ∈ resident ways history := by
  rw [Option.isSome_iff_exists]
  constructor
  · rintro ⟨way, hway⟩
    exact (h.mem_resident (h.consistent.find?_eq_some_iff.mp hway)).2
  · intro hmem
    have hline : some line ∈ used.map s.lines.get? := by
      rw [h.lines_eq]
      exact List.mem_map_of_mem hmem
    obtain ⟨way, -, hway⟩ := List.mem_map.mp hline
    exact ⟨way, h.consistent.find?_eq_some_iff.mpr hway⟩

/-- A line that is found moves to the end, in the ring and in the window. -/
theorem Recalls.hit (h : s.Recalls ways isIndexed history empties used)
    (hline : s.lines.get? way = some line) :
    ∃ used', (s.moveToEnd ways way).Recalls ways isIndexed (history ++ [line]) empties used' := by
  obtain ⟨u, v, rfl⟩ := List.append_of_mem (h.mem_resident hline).1
  have hnodup := h.ring.nodup
  rw [← List.append_assoc, List.nodup_middle, List.nodup_cons] at hnodup
  obtain ⟨x, y, hx, hy, hresident⟩ : ∃ x y, u.map s.lines.get? = x.map some ∧
      v.map s.lines.get? = y.map some ∧ resident ways history = x ++ line :: y := by
    have heq := h.lines_eq
    rw [List.map_append, List.map_cons, hline, eq_comm, List.map_eq_append_iff] at heq
    obtain ⟨x, z, hxz, hx, hz⟩ := heq
    obtain ⟨b, y, rfl, hb, hy⟩ := List.map_eq_cons_iff.mp hz
    obtain rfl := Option.some.inj hb
    exact ⟨x, y, hx.symm, hy.symm, hxz⟩
  have hsame := sameContents_moveToEnd s ways way
  have hway : way ∈ empties ++ (u ++ way :: v) := by simp
  have hring := h.ring.moveToEnd hway
  have herase : (empties ++ (u ++ way :: v)).erase way = empties ++ (u ++ v) := by
    rw [← List.append_assoc, List.erase_append_right _ fun hmem =>
      hnodup.1 (List.mem_append_left _ hmem), List.erase_cons_head, List.append_assoc]
  rw [herase, List.append_assoc] at hring
  refine ⟨u ++ v ++ [way], h.consistent.of_sameContents hsame, hring, ?_, fun w hw => ?_⟩
  · rw [hsame.lines_eq, resident_concat_of_mem hresident, List.map_append, List.map_append, hx, hy,
      List.map_append, List.map_append, List.map_singleton, hline]
    rfl
  · rw [hsame.lines_eq]
    refine h.empty w fun hmem => hw ?_
    simp only [List.mem_append, List.mem_cons, List.not_mem_nil, or_false] at hmem ⊢
    tauto

/-- A line that is not found takes the place of the oldest one, or of none as long as there are
empty ways. -/
theorem Recalls.miss (h : s.Recalls ways isIndexed history empties used)
    (hline : s.find? isIndexed line = none) :
    ∃ empties' used', ((s.store isIndexed (some line) s.recent).2.moveToEnd ways s.recent).Recalls
      ways isIndexed (history ++ [line]) empties' used' := by
  have hout : line ∉ resident ways history := by
    rw [← h.find?_isSome_iff, hline]
    exact Bool.false_ne_true
  have hnew := h.consistent.find?_eq_none_iff.mp hline
  obtain ⟨hrecent, hlinks⟩ := recency_store s isIndexed (some line) s.recent
  obtain ⟨t, ht⟩ : ∃ t, t = (s.store isIndexed (some line) s.recent).2 := ⟨_, rfl⟩
  rw [← ht] at hrecent hlinks ⊢
  have hget (w : Nat) : t.lines.get? w = if w = s.recent then some line else s.lines.get? w := by
    rw [ht, get?_store]
  have hconsistent : t.Consistent isIndexed := by
    rw [ht]
    exact h.consistent.store fun x hx w hw => absurd hw (Option.some.inj hx ▸ hnew w)
  have hsame := sameContents_moveToEnd t ways t.recent
  have hring := h.ring.of_eq hrecent hlinks
  have hnodup := hring.nodup
  obtain ⟨rest, hrest⟩ := List.head?_eq_some_iff.mp hring.head?_eq
  have hmoved := hring.moveToEnd (hrest ▸ List.mem_cons_self)
  rw [hrest, List.erase_cons_head] at hmoved
  rw [hrest, List.nodup_cons] at hnodup
  have hlast : t.lines.get? t.recent = some line := (hget _).trans (if_pos hrecent)
  have hkept (w : Nat) (hw : w ∈ rest) : t.lines.get? w = s.lines.get? w :=
    (hget w).trans (if_neg (hrecent ▸ ne_of_mem_of_not_mem hw hnodup.1))
  have hlength := h.length_eq
  rw [← hrecent]
  cases empties with
  | nil =>
      -- all ways are used, so the window is full
      obtain rfl : used = t.recent :: rest := hrest
      have hfull : ways = (resident ways history).length := by
        rw [← hlength, ← List.length_range (n := ways)]
        exact h.ring.perm.length_eq.symm
      refine ⟨[], rest ++ [t.recent], hconsistent.of_sameContents hsame, hmoved, ?_, fun w hw => ?_⟩
      · have hlines : rest.map s.lines.get? = (resident ways history).tail.map some := by
          rw [List.map_tail, ← h.lines_eq, List.map_cons, List.tail_cons]
        have hways : ways ≠ 0 := by
          rw [hfull, ← hlength]
          exact Nat.succ_ne_zero _
        rw [hsame.lines_eq, resident_concat_of_notMem hout, if_pos ⟨hways, hfull.le⟩,
          List.map_append, List.map_congr_left hkept, hlines, List.map_append, List.map_singleton,
          hlast]
        rfl
      · rw [List.mem_append, not_or, List.mem_singleton] at hw
        rw [hsame.lines_eq, hget, if_neg (hrecent ▸ hw.2)]
        exact h.empty w (by simpa using ⟨hw.2, hw.1⟩)
  | cons e es =>
      obtain ⟨rfl, rfl⟩ := List.cons.inj hrest
      have hroom : ¬(ways ≠ 0 ∧ ways ≤ (resident ways history).length) := by
        have htotal := h.ring.perm.length_eq
        rw [List.length_range, List.length_append, List.length_cons] at htotal
        omega
      refine ⟨es, used ++ [t.recent], hconsistent.of_sameContents hsame, ?_, ?_, fun w hw => ?_⟩
      · rwa [← List.append_assoc]
      · rw [hsame.lines_eq, resident_concat_of_notMem hout, if_neg hroom, List.map_append,
          List.map_congr_left fun w hw => hkept w (List.mem_append_right _ hw), h.lines_eq,
          List.map_append, List.map_singleton, hlast]
        rfl
      · rw [List.mem_append, not_or, List.mem_singleton] at hw
        rw [hsame.lines_eq, hget, if_neg (hrecent ▸ hw.2)]
        exact h.empty w hw.1

end LineSet

namespace Level

open LineSet

variable {l : Level} {a set way : Nat} {history : List Nat}

/-- Every set recalls those lines of a history that belong to it. -/
def Recalls (l : Level) (history : List Nat) : Prop :=
  ∀ set, ∃ empties used, (l.lineSet set).Recalls l.ways l.isIndexed
    (history.filter fun line => l.setOf line = set) empties used

theorem Fresh.recalls (h : l.Fresh) : l.Recalls [] := by
  intro set
  rw [h.lineSet_eq, List.filter_nil]
  exact ⟨_, _, recalls_empty h.ways_pos _⟩

/-- A level hits exactly the lines in the window of their set. -/
theorem Recalls.hits_iff (h : l.Recalls history) : l.Hits a ↔ l.lineOf a ∈
    Reuse.resident l.ways (history.filter fun line => l.setOf line = l.setOf (l.lineOf a)) := by
  obtain ⟨empties, used, hset⟩ := h (l.setOf (l.lineOf a))
  exact hset.find?_isSome_iff

/-- One more line in the history of a level changes the history of its set only. -/
theorem Recalls.step (h : l.Recalls history) {l' : Level} {line : Nat} (hshape : l.SameShape l')
    (hothers : ∀ k ≠ l.setOf line, l'.lineSet k = l.lineSet k)
    (hset : ∀ empties used, (l.lineSet (l.setOf line)).Recalls l.ways l.isIndexed
        (history.filter fun x => l.setOf x = l.setOf line) empties used →
      ∃ empties used, (l'.lineSet (l.setOf line)).Recalls l.ways l.isIndexed
        ((history.filter fun x => l.setOf x = l.setOf line) ++ [line]) empties used) :
    l'.Recalls (history ++ [line]) := by
  intro k
  obtain ⟨empties, used, hk⟩ := h k
  simp only [hshape.ways_eq, hshape.isIndexed_eq, hshape.setOf_eq, List.filter_append]
  by_cases hline : l.setOf line = k
  · subst hline
    rw [List.filter_cons_of_pos (by simp), List.filter_nil]
    exact hset empties used hk
  · rw [List.filter_cons_of_neg (by simpa using hline), List.filter_nil, List.append_nil,
      hothers k (Ne.symm hline)]
    exact ⟨empties, used, hk⟩

theorem Recalls.refer (h : l.Recalls history) (hpolicy : l.policy = .leastRecent) (a : Nat) :
    (l.refer a).Recalls (history ++ [l.lineOf a]) := by
  cases hsearch : (l.search (l.lineOf a)).2 with
  | some way =>
      have hmark (k : Nat) : (l.refer a).lineSet k = if k = l.setOf (l.lineOf a) then
          (l.lineSet (l.setOf (l.lineOf a))).moveToEnd l.ways way else l.lineSet k := by
        rw [refer_of_some hsearch, markUsed, lineSet_modifySet, hpolicy]
        rfl
      refine h.step (sameShape_refer l a) (fun k hk => (hmark k).trans (if_neg hk)) ?_
      intro empties used hset
      rw [hmark, if_pos rfl]
      obtain ⟨used', hused⟩ := hset.hit (hset.consistent.find?_eq_some_iff.mp hsearch)
      exact ⟨empties, used', hused⟩
  | none =>
      have hfill (k : Nat) : (l.refer a).lineSet k = if k = l.setOf (l.lineOf a) then
          ((l.lineSet (l.setOf (l.lineOf a))).store l.isIndexed (some (l.lineOf a))
            (l.lineSet (l.setOf (l.lineOf a))).recent).2.moveToEnd l.ways
            (l.lineSet (l.setOf (l.lineOf a))).recent else l.lineSet k := by
        rw [refer_of_none hsearch, fill, victimWay, hpolicy]
        refine (lineSet_modifySet ..).trans ?_
        rw [hpolicy]
        rfl
      refine h.step (sameShape_refer l a) (fun k hk => (hfill k).trans (if_neg hk)) ?_
      intro empties used hset
      rw [hfill, if_pos rfl]
      exact hset.miss hsearch

/-- A level recalls the lines of all references that it was given. -/
theorem Recalls.refer_all (h : l.Recalls history) (hpolicy : l.policy = .leastRecent)
    (as : List Nat) : (as.foldl Level.refer l).Recalls (history ++ as.map l.lineOf) := by
  induction as generalizing l history with
  | nil => rwa [List.map_nil, List.append_nil]
  | cons a as ih =>
      have hshape := sameShape_refer l a
      have hrun := ih (h.refer hpolicy a) (hshape.policy_eq.trans hpolicy)
      rwa [show (l.refer a).lineOf = l.lineOf from funext fun _ => hshape.lineOf_eq,
        List.append_assoc] at hrun

end Level

namespace Hierarchy

variable {h : Hierarchy} {l : Level} {i : Nat}

/-- In a hierarchy that a description gives, a reference that reaches an inclusive level with the
policy of least recent use hits there exactly if reuse distances in a window of as many addresses as
a set of the level has ways, over the lines of the earlier references that reached the level and
belong to the same set, do not count it as a miss. -/
theorem hit_iff_misses_eq {text : List Char} {number : Nat}
    (hd : Description.ofLine text number = .ok (some h)) (hl : h.inclusive[i]? = some l)
    (hpolicy : l.policy = .leastRecent) (words : Nat → Random.WordStream) (as : List Nat) (x : Nat)
    (hreach : Reaches i (((h.withWords words).run as).process x).1) (individual id : Nat) :
    let lines := ((reaching i (h.withWords words) as).map l.lineOf).filter fun line =>
      l.setOf line = l.setOf (l.lineOf x)
    let e := (Reuse.Exact.new l.ways individual).run (lines.map (.reference id))
    (((h.withWords words).run as).process x).1 = some i ↔
      (e.process id (l.lineOf x)).2.misses id = e.misses id := by
  intro lines e
  have hfresh := (Description.accepted_of_ofLine hd).fresh l
    (List.mem_append_left _ (List.mem_of_getElem? hl))
  let start := l.withWords (words l.number)
  let l' := (reaching i (h.withWords words) as).foldl Level.refer start
  have hl' : ((h.withWords words).run as).inclusive[i]? = some l' :=
    inclusive_run (by rw [withWords, List.getElem?_map, hl, Option.map_some]) as
  have hshape : start.SameShape l' := Level.sameShape_foldl_refer _ _
  have hrecalls : l'.Recalls ([] ++ (reaching i (h.withWords words) as).map l.lineOf) :=
    (hfresh.withWords (words l.number)).recalls.refer_all hpolicy _
  have hi : i < ((h.withWords words).run as).inclusive.length :=
    (List.getElem?_eq_some_iff.mp hl').1
  have hhit : (((h.withWords words).run as).process x).1 = some i ↔ l'.Hits x := by
    rw [(reaches_process hi).2, lookUp_eq_some_iff hl', ← (reaches_process hi).1]
    exact and_iff_right hreach
  have hwindow : l'.Hits x ↔ l.lineOf x ∈ Reuse.resident l.ways lines := by
    rw [hrecalls.hits_iff, List.nil_append]
    simp only [hshape.setOf_eq, hshape.lineOf_eq, hshape.ways_eq]
    exact .rfl
  have hmisses : (e.process id (l.lineOf x)).2.misses id =
      e.misses id + if l.lineOf x ∈ Reuse.resident l.ways lines then 0 else 1 := by
    rw [Reuse.Exact.misses_process, Reuse.history_references]
  rw [hhit, hwindow, hmisses]
  split
  · exact iff_of_true ‹_› rfl
  · exact iff_of_false ‹_› (Nat.succ_ne_self _)

/-- A line that was used before another one is still in a set of two ways. -/
theorem hit_iff_misses_eq_fourLevels :
    let h := Description.fourLevels.withWords fun number => Level.seeded number 0
    let e := (Reuse.Exact.new 2 0).run ([0, 1].map (.reference 7))
    ((h.run [0, 64]).process 0).1 = some 1 ↔ (e.process 7 0).2.misses 7 = e.misses 7 :=
  hit_iff_misses_eq Description.ofLine_fourLevels (i := 1) rfl rfl _ [0, 64] 0
    (by decide +kernel) 0 7

end Hierarchy

end BinTrace.Cache
