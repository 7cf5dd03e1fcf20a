import BinTrace.Cache.Level

/-!
What a set of ways holds. Storing changes one way, using a way changes none, and what the index says
of a line is true. If no line is stored that is in another way, then a line is in one way at most,
and the index and the scan over the ways find the same.
-/

namespace BinTrace.Cache

namespace LineSet

open KeyMap

variable {s t : LineSet} {isIndexed : Bool} {line? : Option Nat} {line way w : Nat}

/-- Where a set looks a line up. -/
def find? (s : LineSet) (isIndexed : Bool) (line : Nat) : Option Nat :=
  if isIndexed then s.index.get? line else s.scan? line

/-- The lines and the index of two sets are the same. -/
structure SameContents (s t : LineSet) : Prop where
  lines_eq : t.lines = s.lines
  index_eq : t.index = s.index

theorem SameContents.find?_eq (h : s.SameContents t) (isIndexed : Bool) (line : Nat) :
    t.find? isIndexed line = s.find? isIndexed line := by
  rw [find?, find?, scan?, scan?, h.lines_eq, h.index_eq]

theorem sameContents_moveToEnd (s : LineSet) (ways way : Nat) :
    s.SameContents (s.moveToEnd ways way) := by
  unfold moveToEnd
  dsimp only
  split <;> exact ⟨rfl, rfl⟩

/-- Using a way changes no line. -/
theorem sameContents_markUsed (s : LineSet) (policy : Policy) (ways way : Nat) :
    s.SameContents (s.markUsed policy ways way) := by
  cases policy
  case leastRecent => exact sameContents_moveToEnd s ways way
  all_goals exact ⟨rfl, rfl⟩

theorem store_fst (s : LineSet) (isIndexed : Bool) (line? : Option Nat) (way : Nat) :
    (s.store isIndexed line? way).1 = s.lines.get? way := by
  cases isIndexed <;> rfl

theorem get?_store (s : LineSet) (isIndexed : Bool) (line? : Option Nat) (way w : Nat) :
    (s.store isIndexed line? way).2.lines.get? w = if w = way then line? else s.lines.get? w := by
  cases line? with
  | none => cases isIndexed <;> exact get?_erase ..
  | some line => cases isIndexed <;> exact get?_insert ..

/-- What storing does to an index. -/
theorem get?_index_store (s : LineSet) (line? : Option Nat) (way line : Nat) :
    (s.store true line? way).2.index.get? line =
      if line? = some line then some way
      else if s.lines.get? way = some line then none else s.index.get? line := by
  unfold store
  dsimp only
  cases line? <;> cases s.lines.get? way <;>
    simp only [↓reduceIte, get?_insert, get?_erase, Option.some.injEq, reduceCtorEq, eq_comm]

/-- The recency of the ways is not touched. -/
theorem recency_store (s : LineSet) (isIndexed : Bool) (line? : Option Nat) (way : Nat) :
    (s.store isIndexed line? way).2.recent = s.recent ∧
      (s.store isIndexed line? way).2.links = s.links := by
  cases isIndexed <;> exact ⟨rfl, rfl⟩

theorem scan?_eq_some (h : s.scan? line = some w) : s.lines.get? w = some line := by
  obtain ⟨⟨v, x⟩, hfind, rfl⟩ := Option.map_eq_some_iff.mp h
  obtain rfl : x = line := by simpa using List.find?_some hfind
  exact (mem_entries_iff _ _ _).mp (List.mem_of_find?_eq_some hfind)

theorem exists_scan? (h : s.lines.get? w = some line) : ∃ v, s.scan? line = some v := by
  have hsome : (s.lines.entries.find? fun e => e.2 = line).isSome := by
    rw [List.find?_isSome]
    exact ⟨_, (mem_entries_iff _ _ _).mpr h, by simp⟩
  obtain ⟨e, he⟩ := Option.isSome_iff_exists.mp hsome
  exact ⟨e.1, by rw [scan?, he]; rfl⟩

/-- The index leads to no other line than the one that was looked up. -/
def Faithful (s : LineSet) (isIndexed : Bool) : Prop :=
  isIndexed → ∀ line w, s.index.get? line = some w → s.lines.get? w = some line

theorem faithful_empty (isIndexed : Bool) : empty.Faithful isIndexed :=
  fun _ _ _ h => by cases h

theorem Faithful.of_sameContents (h : s.Faithful isIndexed) (hst : s.SameContents t) :
    t.Faithful isIndexed := by
  rw [Faithful, hst.lines_eq, hst.index_eq]
  exact h

/-- Whatever is stored, the line that gives way leaves the index. -/
theorem Faithful.store (h : s.Faithful isIndexed) (line? : Option Nat) (way : Nat) :
    (s.store isIndexed line? way).2.Faithful isIndexed := by
  rintro rfl line w hw
  rw [get?_index_store] at hw
  rw [get?_store]
  split at hw
  · rename_i hline
    obtain rfl : way = w := Option.some.inj hw
    rw [if_pos rfl, hline]
  · split at hw
    · cases hw
    · rename_i hold
      have hkept := h rfl line w hw
      have hne : w ≠ way := fun heq => hold (heq ▸ hkept)
      rw [if_neg hne, hkept]

/-- What is found is there. -/
theorem Faithful.get?_of_find? (h : s.Faithful isIndexed)
    (hfind : s.find? isIndexed line = some w) : s.lines.get? w = some line := by
  cases isIndexed with
  | true => exact h rfl line w hfind
  | false => exact scan?_eq_some hfind

/-- A line that has just been stored is found. -/
theorem exists_find?_store (s : LineSet) (isIndexed : Bool) (line way : Nat) :
    ∃ v, (s.store isIndexed (some line) way).2.find? isIndexed line = some v := by
  cases isIndexed with
  | true => exact ⟨way, (get?_index_store s _ way line).trans (if_pos rfl)⟩
  | false => exact exists_scan? (w := way) ((get?_store s false _ way way).trans (if_pos rfl))

/-- Each line is in one way, and the index tells of each line which. -/
structure Consistent (s : LineSet) (isIndexed : Bool) : Prop where
  faithful : s.Faithful isIndexed
  unique : ∀ {v w line}, s.lines.get? v = some line → s.lines.get? w = some line → v = w
  indexed : isIndexed → ∀ {w line}, s.lines.get? w = some line → s.index.get? line = some w

theorem consistent_empty (isIndexed : Bool) : empty.Consistent isIndexed :=
  ⟨faithful_empty isIndexed, fun hv => (by cases hv), fun _ _ _ hw => (by cases hw)⟩

theorem Consistent.of_sameContents (h : s.Consistent isIndexed) (hst : s.SameContents t) :
    t.Consistent isIndexed := by
  refine ⟨h.faithful.of_sameContents hst, ?_, ?_⟩
  · rw [hst.lines_eq]
    exact h.unique
  · rw [hst.lines_eq, hst.index_eq]
    exact h.indexed

/-- A line is stored that is in no other way. -/
theorem Consistent.store (h : s.Consistent isIndexed)
    (hnew : ∀ line, line? = some line → ∀ w, s.lines.get? w = some line → w = way) :
    (s.store isIndexed line? way).2.Consistent isIndexed := by
  refine ⟨h.faithful.store line? way, fun {v w line} hv hw => ?_, ?_⟩
  · rw [get?_store] at hv hw
    split at hv <;> split at hw
    · rename_i hv' hw'
      rw [hv', hw']
    · exact absurd (hnew line hv w hw) ‹_›
    · exact absurd (hnew line hw v hv) ‹_›
    · exact h.unique hv hw
  · rintro rfl w line hw
    rw [get?_store] at hw
    rw [get?_index_store]
    split at hw
    · rename_i hway
      rw [if_pos hw, hway]
    · rename_i hway
      have hline : line? ≠ some line := fun heq => hway (hnew line heq w hw)
      have hold : s.lines.get? way ≠ some line := fun heq => hway (h.unique hw heq)
      rw [if_neg hline, if_neg hold, h.indexed rfl hw]

/-- A line is found exactly where it is. -/
theorem Consistent.find?_eq_some_iff (h : s.Consistent isIndexed) :
    s.find? isIndexed line = some w ↔ s.lines.get? w = some line := by
  refine ⟨h.faithful.get?_of_find?, fun hw => ?_⟩
  cases isIndexed with
  | true => exact h.indexed rfl hw
  | false =>
      obtain ⟨v, hv⟩ := exists_scan? hw
      rw [find?, if_neg Bool.false_ne_true, hv, h.unique (scan?_eq_some hv) hw]

theorem Consistent.find?_eq_none_iff (h : s.Consistent isIndexed) :
    s.find? isIndexed line = none ↔ ∀ w, s.lines.get? w ≠ some line := by
  rw [Option.eq_none_iff_forall_ne_some]
  exact forall_congr' fun w => not_congr h.find?_eq_some_iff

end LineSet

end BinTrace.Cache
