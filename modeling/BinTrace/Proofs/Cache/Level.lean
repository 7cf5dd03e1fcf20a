import BinTrace.Proofs.Cache.Contents

/-!
What a level holds. Filling a level is replacing the line of some way of the right set, whichever
way the policy chooses, and all that is said here of the lines in a level holds for every such
choice.
-/

namespace BinTrace.Cache

namespace Level

open LineSet

variable {l l' m : Level} {line? old? : Option Nat} {line set way k w x : Nat}

/-- A level whose lines, recency and random words may differ, but nothing else. -/
structure SameShape (l l' : Level) : Prop where
  number_eq : l'.number = l.number
  size_eq : l'.size = l.size
  ways_eq : l'.ways = l.ways
  lineSize_eq : l'.lineSize = l.lineSize
  policy_eq : l'.policy = l.policy
  kind_eq : l'.kind = l.kind

theorem SameShape.refl (l : Level) : l.SameShape l := ⟨rfl, rfl, rfl, rfl, rfl, rfl⟩

theorem SameShape.trans (h : l.SameShape l') (h' : l'.SameShape m) : l.SameShape m :=
  ⟨h'.number_eq.trans h.number_eq, h'.size_eq.trans h.size_eq, h'.ways_eq.trans h.ways_eq,
    h'.lineSize_eq.trans h.lineSize_eq, h'.policy_eq.trans h.policy_eq, h'.kind_eq.trans h.kind_eq⟩

theorem SameShape.setCount_eq (h : l.SameShape l') : l'.setCount = l.setCount := by
  rw [setCount, setCount, h.size_eq, h.lineSize_eq, h.ways_eq]

theorem SameShape.setOf_eq (h : l.SameShape l') : l'.setOf line = l.setOf line := by
  rw [setOf, setOf, h.setCount_eq]

theorem SameShape.lineOf_eq (h : l.SameShape l') : l'.lineOf x = l.lineOf x := by
  rw [lineOf, lineOf, lineBits, lineBits, h.lineSize_eq]

theorem SameShape.isIndexed_eq (h : l.SameShape l') : l'.isIndexed = l.isIndexed := by
  rw [isIndexed, isIndexed, h.ways_eq]

/-- The level with other random words. -/
def withWords (l : Level) (words : Random.WordStream) : Level := { l with words }

theorem sameShape_withWords (l : Level) (words : Random.WordStream) :
    l.SameShape (l.withWords words) := ⟨rfl, rfl, rfl, rfl, rfl, rfl⟩

theorem sameShape_markUsed (l : Level) (set way : Nat) : l.SameShape (l.markUsed set way) :=
  ⟨rfl, rfl, rfl, rfl, rfl, rfl⟩

theorem sameShape_replace (l : Level) (line? : Option Nat) (set way : Nat) :
    l.SameShape (l.replace line? set way).2 := ⟨rfl, rfl, rfl, rfl, rfl, rfl⟩

/-- The policy chooses a way, and may take random words to do so. -/
theorem victimWay_snd (l : Level) (set : Nat) :
    ∃ words, (l.victimWay set).2 = l.withWords words := by
  unfold victimWay
  split <;> exact ⟨_, rfl⟩

theorem fill_eq (l : Level) (line : Nat) : ∃ words way,
    l.fill line = (l.withWords words).replace (some line) (l.setOf line) way := by
  obtain ⟨words, hwords⟩ := victimWay_snd l (l.setOf line)
  exact ⟨words, _, by rw [← hwords]; rfl⟩

theorem sameShape_fill (l : Level) (line : Nat) : l.SameShape (l.fill line).2 := by
  obtain ⟨words, way, heq⟩ := fill_eq l line
  rw [heq]
  exact (sameShape_withWords l words).trans (sameShape_replace ..)

theorem lineSet_modifySet (l : Level) (set : Nat) (s : LineSet) (k : Nat) :
    (l.modifySet set s).lineSet k = if k = set then s else l.lineSet k := by
  rw [lineSet, modifySet, KeyMap.get?_insert, lineSet]
  split <;> rfl

theorem lineSet_markUsed (l : Level) (set way k : Nat) :
    (l.lineSet k).SameContents ((l.markUsed set way).lineSet k) := by
  rw [markUsed, lineSet_modifySet]
  split
  · rename_i hk
    subst hk
    exact sameContents_markUsed ..
  · exact ⟨rfl, rfl⟩

/-- A set after a line was put into it. -/
theorem lineSet_replace (l : Level) (line? : Option Nat) (set way : Nat) :
    ((l.lineSet set).store l.isIndexed line? way).2.SameContents
        ((l.replace line? set way).2.lineSet set) ∧
      ∀ k ≠ set, (l.replace line? set way).2.lineSet k = l.lineSet k := by
  simp only [replace, lineSet_modifySet, if_true]
  refine ⟨?_, fun k hk => if_neg hk⟩
  split
  · exact sameContents_markUsed ..
  · exact ⟨rfl, rfl⟩

/-- The line in a way. -/
def at? (l : Level) (set way : Nat) : Option Nat := (l.lineSet set).lines.get? way

theorem replace_fst (l : Level) (line? : Option Nat) (set way : Nat) :
    (l.replace line? set way).1 = l.at? set way :=
  store_fst ..

theorem at?_replace (l : Level) (line? : Option Nat) (set way k w : Nat) :
    (l.replace line? set way).2.at? k w = if k = set ∧ w = way then line? else l.at? k w := by
  obtain ⟨hset, hothers⟩ := lineSet_replace l line? set way
  by_cases hk : k = set
  · subst hk
    rw [at?, hset.lines_eq, get?_store]
    simp [at?]
  · rw [if_neg fun h => hk h.1, at?, hothers k hk, at?]

theorem search_eq (l : Level) (line : Nat) :
    l.search line = (l.setOf line, (l.lineSet (l.setOf line)).find? l.isIndexed line) := rfl

theorem search_of_snd {way? : Option Nat} (h : (l.search line).2 = way?) :
    l.search line = (l.setOf line, way?) :=
  Prod.ext rfl h

/-- The line is in some way. -/
def Holds (l : Level) (line : Nat) : Prop := ∃ set way, l.at? set way = some line

/-- What the index of a set says is true, in all sets. -/
def Faithful (l : Level) : Prop := ∀ set, (l.lineSet set).Faithful l.isIndexed

theorem Faithful.replace (h : l.Faithful) (line? : Option Nat) (set way : Nat) :
    (l.replace line? set way).2.Faithful := by
  intro k
  obtain ⟨hset, hothers⟩ := lineSet_replace l line? set way
  by_cases hk : k = set
  · subst hk
    exact ((h k).store line? way).of_sameContents hset
  · rw [hothers k hk]
    exact h k

theorem Faithful.fill (h : l.Faithful) (line : Nat) : (l.fill line).2.Faithful := by
  obtain ⟨words, way, heq⟩ := fill_eq l line
  rw [heq]
  exact Faithful.replace (l := l.withWords words) h _ _ _

/-- A level with the same lines in the same ways. -/
structure SameLines (l l' : Level) : Prop where
  shape : l.SameShape l'
  contents : ∀ set, (l.lineSet set).SameContents (l'.lineSet set)

theorem SameLines.refl (l : Level) : l.SameLines l := ⟨.refl l, fun _ => ⟨rfl, rfl⟩⟩

theorem sameLines_markUsed (l : Level) (set way : Nat) : l.SameLines (l.markUsed set way) :=
  ⟨sameShape_markUsed l set way, lineSet_markUsed l set way⟩

theorem SameLines.at?_eq (h : l.SameLines l') : l'.at? set way = l.at? set way := by
  rw [at?, (h.contents set).lines_eq, at?]

theorem SameLines.holds_iff (h : l.SameLines l') : l'.Holds line ↔ l.Holds line := by
  simp only [Holds, h.at?_eq]

theorem SameLines.faithful (h : l.SameLines l') (hl : l.Faithful) : l'.Faithful := by
  intro set
  rw [h.shape.isIndexed_eq]
  exact (hl set).of_sameContents (h.contents set)

/-- A line that is found is there. -/
theorem Faithful.holds_of_search (h : l.Faithful) (hfound : (l.search line).2 = some way) :
    l.at? (l.setOf line) way = some line :=
  (h (l.setOf line)).get?_of_find? hfound

/-- Filling a level puts the line in, and another one out if the way was not empty. -/
theorem holds_of_holds_fill (h : (l.fill line).2.Holds x) : x = line ∨ l.Holds x := by
  obtain ⟨words, way, heq⟩ := fill_eq l line
  obtain ⟨k, w, hx⟩ := h
  rw [heq, at?_replace] at hx
  split at hx
  · exact .inl (Option.some.inj hx).symm
  · exact .inr ⟨k, w, hx⟩

theorem holds_of_fill_fst (h : (l.fill line).1 = some x) : l.Holds x := by
  obtain ⟨words, way, heq⟩ := fill_eq l line
  rw [heq, replace_fst] at h
  exact ⟨_, _, h⟩

/-- A line that a level was filled with is found in it. -/
theorem exists_search_fill (l : Level) (line : Nat) :
    ∃ way, ((l.fill line).2.search line).2 = some way := by
  obtain ⟨words, way, heq⟩ := fill_eq l line
  obtain ⟨v, hv⟩ := exists_find?_store (l.lineSet (l.setOf line)) l.isIndexed line way
  refine ⟨v, ?_⟩
  rw [heq, search_eq]
  exact ((lineSet_replace (l.withWords words) (some line) (l.setOf line) way).1.find?_eq
    _ _).trans hv

/-- Every line is in its own set, there in one way only, and found where it is. -/
structure Tidy (l : Level) : Prop where
  placed : ∀ {set way line}, l.at? set way = some line → l.setOf line = set
  consistent : ∀ set, (l.lineSet set).Consistent l.isIndexed

theorem Tidy.faithful (h : l.Tidy) : l.Faithful := fun set => (h.consistent set).faithful

theorem SameLines.tidy (h : l.SameLines l') (hl : l.Tidy) : l'.Tidy := by
  refine ⟨fun {set way line} hline => ?_, fun set => ?_⟩
  · rw [h.at?_eq] at hline
    rw [h.shape.setOf_eq]
    exact hl.placed hline
  · rw [h.shape.isIndexed_eq]
    exact (hl.consistent set).of_sameContents (h.contents set)

/-- A line is put into its set that is in no other way. -/
theorem Tidy.replace (h : l.Tidy) (hset : ∀ x, line? = some x → l.setOf x = set)
    (hnew : ∀ x, line? = some x → ∀ w, l.at? set w = some x → w = way) :
    (l.replace line? set way).2.Tidy := by
  obtain ⟨hthere, hothers⟩ := lineSet_replace l line? set way
  refine ⟨fun {k w x} hx => ?_, fun k => ?_⟩
  · rw [at?_replace] at hx
    split at hx
    · rename_i hkw
      rw [hkw.1]
      exact hset x hx
    · exact h.placed hx
  · by_cases hk : k = set
    · subst hk
      exact ((h.consistent k).store hnew).of_sameContents hthere
    · rw [hothers k hk]
      exact h.consistent k

theorem Tidy.search_eq_some_iff (h : l.Tidy) :
    (l.search line).2 = some way ↔ l.at? (l.setOf line) way = some line :=
  (h.consistent (l.setOf line)).find?_eq_some_iff

theorem Tidy.search_eq_none_iff (h : l.Tidy) : (l.search line).2 = none ↔ ¬l.Holds line := by
  refine (h.consistent (l.setOf line)).find?_eq_none_iff.trans ⟨?_, ?_⟩
  · rintro hnone ⟨set, way, hway⟩
    exact hnone way (h.placed hway ▸ hway)
  · exact fun hnot w hw => hnot ⟨_, w, hw⟩

/-- A line, or nothing, is put into a way of a level that does not hold it: the level holds it then,
and has lost what was there. -/
theorem Tidy.holds_replace (h : l.Tidy) :
    (l.replace line? set way).2.Holds x ↔ line? = some x ∨ l.Holds x ∧ l.at? set way ≠ some x := by
  constructor
  · rintro ⟨k, w, hx⟩
    rw [at?_replace] at hx
    split at hx
    · exact .inl hx
    · rename_i hkw
      refine .inr ⟨⟨k, w, hx⟩, fun hold => hkw ?_⟩
      -- the line would be in two ways
      have hk : k = set := (h.placed hx).symm.trans (h.placed hold)
      subst hk
      exact ⟨rfl, (h.consistent _).unique hx hold⟩
  · rintro (hx | ⟨⟨k, w, hx⟩, hold⟩)
    · exact ⟨set, way, (at?_replace ..).trans ((if_pos ⟨rfl, rfl⟩).trans hx)⟩
    · refine ⟨k, w, (at?_replace ..).trans ((if_neg ?_).trans hx)⟩
      rintro ⟨rfl, rfl⟩
      exact hold hx

/-- A level is filled with a line that it does not hold: it holds that line then, and has lost the
one that is returned. -/
theorem Tidy.fill (h : l.Tidy) (hline : ¬l.Holds line) :
    (l.fill line).2.Tidy ∧
      (∀ x, (l.fill line).2.Holds x ↔ x = line ∨ l.Holds x ∧ (l.fill line).1 ≠ some x) ∧
      (∀ x, (l.fill line).1 = some x → l.Holds x ∧ l.setOf x = l.setOf line) := by
  obtain ⟨words, way, heq⟩ := fill_eq l line
  have htidy : (l.withWords words).Tidy := ⟨h.placed, h.consistent⟩
  rw [heq, replace_fst]
  refine ⟨htidy.replace (fun x hx => ?_) fun x hx w hw => ?_, fun x => ?_, fun x hx => ?_⟩
  · rw [← Option.some.inj hx]
    rfl
  · exact absurd ⟨_, w, hw⟩ (Option.some.inj hx ▸ hline)
  · rw [htidy.holds_replace, Option.some.injEq, eq_comm]
    exact .rfl
  · exact ⟨⟨_, _, hx⟩, h.placed hx⟩

end Level

end BinTrace.Cache
