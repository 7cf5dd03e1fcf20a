import BinTrace.Proofs.Cache.Hierarchy

/-!
What a reference does to victim levels. The first one ends up with the line, and if it was behind,
or nowhere, then the lines that give way move down behind it. A property of levels that using,
filling and replacing preserve holds of them throughout.
-/

namespace BinTrace.Cache

namespace Level

variable {l m n : Level} {P : Nat → Prop} {Q : Level → Prop} {a : Nat}

/-- A property of levels that no reference breaks, as long as the lines that levels are filled with
have a property that lines in such levels have as well. -/
structure Preserved (P : Nat → Prop) (Q : Level → Prop) : Prop where
  of_search : ∀ {l line way}, Q l → (l.search line).2 = some way → P line
  markUsed : ∀ {l line way}, Q l → (l.search line).2 = some way → Q (l.markUsed (l.setOf line) way)
  fill : ∀ {l line}, Q l → P line → Q (l.fill line).2 ∧ ∀ x, (l.fill line).1 = some x → P x
  replace : ∀ {l line way line?}, Q l → (l.search line).2 = some way →
    (∀ x, line? = some x → P x) → Q (l.replace line? (l.setOf line) way).2

theorem Preserved.refer (h : Preserved P Q) (hl : Q l) (hline : P (l.lineOf a)) :
    Q (l.refer a) := by
  cases hsearch : (l.search (l.lineOf a)).2 with
  | some way =>
      rw [refer_of_some hsearch]
      exact h.markUsed hl hsearch
  | none =>
      rw [refer_of_none hsearch]
      exact (h.fill hl hline).1

theorem Preserved.of_hits (h : Preserved P Q) (hl : Q l) (hhits : l.Hits a) : P (l.lineOf a) := by
  obtain ⟨way, hway⟩ := Option.isSome_iff_exists.mp hhits
  exact h.of_search hl hway

theorem Preserved.foldl_refer {as : List Nat} (h : Preserved P Q) (hl : Q l)
    (has : ∀ a ∈ as, P (l.lineOf a)) : Q (as.foldl Level.refer l) := by
  induction as generalizing l with
  | nil => exact hl
  | cons a as ih =>
      obtain ⟨ha, has⟩ := List.forall_mem_cons.mp has
      refine ih (h.refer hl ha) fun b hb => ?_
      rw [(sameShape_refer l a).lineOf_eq]
      exact has b hb

/-- A level that has kept its geometry and has a property now. -/
def Becomes (Q : Level → Prop) (l m : Level) : Prop := l.SameShape m ∧ Q m

theorem Becomes.trans (h : l.Becomes Q m) (h' : m.Becomes Q n) : l.Becomes Q n :=
  ⟨h.1.trans h'.1, h'.2⟩

theorem forall_of_becomes {ls ls' : List Level} (h : List.Forall₂ (Becomes Q) ls ls') :
    ∀ l ∈ ls', Q l := by
  induction h with
  | nil => exact List.forall_mem_nil _
  | cons hl _ ih => exact List.forall_mem_cons.mpr ⟨hl.2, ih⟩

theorem becomes_refl {ls : List Level} (h : ∀ l ∈ ls, Q l) : List.Forall₂ (Becomes Q) ls ls :=
  List.forall₂_same.mpr fun l hl => ⟨.refl l, h l hl⟩

theorem becomes_trans {ls ms ns : List Level} (h : List.Forall₂ (Becomes Q) ls ms)
    (h' : List.Forall₂ (Becomes Q) ms ns) : List.Forall₂ (Becomes Q) ls ns := by
  induction h generalizing ns with
  | nil => exact h'
  | cons hl _ ih =>
      cases h' with
      | cons hm hms => exact .cons (hl.trans hm) (ih hms)

theorem exists_getElem?_of_forall₂ {α : Type} {R : α → α → Prop} {xs ys : List α} {y : α} {k : Nat}
    (h : List.Forall₂ R xs ys) (hy : ys[k]? = some y) : ∃ x, xs[k]? = some x ∧ R x y := by
  induction h generalizing k with
  | nil => cases hy
  | cons hx _ ih =>
      cases k with
      | zero => exact ⟨_, rfl, Option.some.inj hy ▸ hx⟩
      | succ k => exact ih hy

end Level

namespace Hierarchy

open Level

variable {ls rest rest' : List Level} {l : Level} {a line : Nat} {line? : Option Nat}
  {place : Place} {free : Option Place}

theorem find_cons_of_some {way : Nat} (h : (l.search (l.lineOf a)).2 = some way) :
    find a (l :: rest) =
      (some (l.lineOf a, ⟨0, l.setOf (l.lineOf a), way⟩), l.refer a :: rest) := by
  rw [find, search_of_snd h, refer_of_some h]

theorem find_cons_of_none (h : (l.search (l.lineOf a)).2 = none) : find a (l :: rest) =
    ((find a rest).1.map fun (line, p) => (line, { p with depth := p.depth + 1 }),
      l :: (find a rest).2) := by
  rw [find, search_of_snd h]

/-- What holds of every level after looking for a line: the one that has it is referred to. -/
theorem forall₂_find {R : Level → Level → Prop} (hsame : ∀ l ∈ ls, R l l)
    (hrefer : ∀ l ∈ ls, l.Hits a → R l (l.refer a)) : List.Forall₂ R ls (find a ls).2 := by
  induction ls with
  | nil => exact .nil
  | cons l rest ih =>
      rw [List.forall_mem_cons] at hsame hrefer
      cases h : (l.search (l.lineOf a)).2 with
      | some way =>
          rw [find_cons_of_some h]
          exact .cons (hrefer.1 (Option.isSome_of_eq_some h)) (List.forall₂_same.mpr hsame.2)
      | none =>
          rw [find_cons_of_none h]
          exact .cons hsame.1 (ih hsame.2 hrefer.2)

/-- Looking for a line changes no line. -/
theorem sameLines_find (a : Nat) (ls : List Level) : List.Forall₂ SameLines ls (find a ls).2 :=
  forall₂_find (fun l _ => .refl l) fun _ _ => sameLines_refer

/-- A line is found in the level of the place, which knows it by that line. -/
theorem find_eq_some (h : (find a ls).1 = some (line, place)) : ∃ l, ls[place.depth]? = some l ∧
    l.lineOf a = line ∧ l.search line = (place.set, some place.way) ∧
    (find a ls).2[place.depth]? = some (l.refer a) := by
  induction ls generalizing place with
  | nil => cases h
  | cons l rest ih =>
      cases hsearch : (l.search (l.lineOf a)).2 with
      | some way =>
          rw [find_cons_of_some hsearch] at h ⊢
          cases h
          exact ⟨l, rfl, rfl, search_of_snd hsearch, rfl⟩
      | none =>
          rw [find_cons_of_none hsearch] at h ⊢
          obtain ⟨⟨line, p⟩, hp, heq⟩ := Option.map_eq_some_iff.mp h
          cases heq
          exact ih hp

theorem find_eq_none_iff : (find a ls).1 = none ↔ ∀ l ∈ ls, ¬l.Hits a := by
  induction ls with
  | nil => simp [find]
  | cons l rest ih =>
      rw [List.forall_mem_cons, not_hits_iff, ← ih]
      cases hsearch : (l.search (l.lineOf a)).2 with
      | some way => simp [find_cons_of_some hsearch]
      | none => simp [find_cons_of_none hsearch]

/-- If a line is not found, the levels are as before. -/
theorem find_snd_of_none (h : (find a ls).1 = none) : (find a ls).2 = ls := by
  induction ls with
  | nil => rfl
  | cons l rest ih =>
      have hsearch := not_hits_iff.mp (find_eq_none_iff.mp h l List.mem_cons_self)
      rw [find_cons_of_none hsearch] at h ⊢
      rw [ih (Option.map_eq_none_iff.mp h)]

theorem rotate_none (ls : List Level) : rotate none none ls = ls := by
  cases ls <;> rfl

theorem rotate_cons (line : Nat) (l : Level) (rest : List Level) :
    rotate (some line) none (l :: rest) =
      (l.fill line).2 :: rotate (l.fill line).1 none rest := rfl

theorem rotate_into_cons (line depth set way : Nat) (l : Level) (rest : List Level) :
    rotate (some line) (some ⟨depth + 1, set, way⟩) (l :: rest) =
      (l.fill line).2 :: rotate (l.fill line).1 (some ⟨depth, set, way⟩) rest := rfl

/-- The first victim level has the line. -/
theorem lookUpVictims_of_hits (h : l.Hits a) :
    lookUpVictims a (l :: rest) = (some 0, l.refer a :: rest) := by
  obtain ⟨way, hway⟩ := Option.isSome_iff_exists.mp h
  rw [lookUpVictims, find_cons_of_some hway]
  rfl

/-- A victim level behind the first one has the line. -/
theorem lookUpVictims_of_found (h : ¬l.Hits a)
    (hfind : find a rest = (some (line, place), rest')) : lookUpVictims a (l :: rest) =
      (some (place.depth + 1),
        (l.fill line).2 :: rotate (l.fill line).1 (some place) rest') := by
  rw [lookUpVictims, find_cons_of_none (not_hits_iff.mp h), hfind]
  rfl

/-- No victim level has the line. -/
theorem lookUpVictims_of_missing (h : ¬l.Hits a) (hfind : find a rest = (none, rest')) :
    lookUpVictims a (l :: rest) =
      (none, l.refer a :: rotate (l.fill (l.lineOf a)).1 none rest') := by
  rw [lookUpVictims, find_cons_of_none (not_hits_iff.mp h), hfind,
    refer_of_none (not_hits_iff.mp h)]
  rfl

/-- What holds of every level after a rotation, if the lines that are under way have a property that
is handed on to those that give way. A way that no policy chose is the free place. -/
theorem forall₂_rotate {P : Nat → Prop} {Q : Level → Prop} {R : Level → Level → Prop}
    (hsame : ∀ l, Q l → R l l)
    (hfill : ∀ l line, Q l → P line → R l (l.fill line).2 ∧ ∀ x, (l.fill line).1 = some x → P x)
    (hreplace : ∀ l line? place, free = some place → ls[place.depth]? = some l → Q l →
      (∀ x, line? = some x → P x) → R l (l.replace line? place.set place.way).2)
    (hls : ∀ l ∈ ls, Q l) (hline : ∀ x, line? = some x → P x) :
    List.Forall₂ R ls (rotate line? free ls) := by
  induction ls generalizing line? free with
  | nil => exact .nil
  | cons l rest ih =>
      obtain ⟨hl, hrest⟩ := List.forall_mem_cons.mp hls
      have hkept : List.Forall₂ R rest rest :=
        List.forall₂_same.mpr fun m hm => hsame m (hrest m hm)
      match free, line? with
      | some ⟨0, set, way⟩, none =>
          exact .cons (hreplace l none ⟨0, set, way⟩ rfl rfl hl hline) hkept
      | some ⟨0, set, way⟩, some line =>
          refine .cons ?_ hkept
          rw [settle]
          split
          · exact hreplace l (some line) ⟨0, set, way⟩ rfl rfl hl hline
          · exact (hfill l line hl (hline line rfl)).1
      | some ⟨depth + 1, set, way⟩, line? =>
          have hbehind (old? : Option Nat) (hold : ∀ x, old? = some x → P x) :
              List.Forall₂ R rest (rotate old? (some ⟨depth, set, way⟩) rest) := by
            refine ih (fun m new? place hplace hm => ?_) hrest hold
            obtain rfl : ⟨depth, set, way⟩ = place := Option.some.inj hplace
            exact hreplace m new? ⟨depth + 1, set, way⟩ rfl hm
          cases line? with
          | none => exact .cons (hsame l hl) (hbehind none hline)
          | some line =>
              obtain ⟨hfilled, hold⟩ := hfill l line hl (hline line rfl)
              exact .cons hfilled (hbehind _ hold)
      | none, none => exact .cons (hsame l hl) hkept
      | none, some line =>
          obtain ⟨hfilled, hold⟩ := hfill l line hl (hline line rfl)
          exact .cons hfilled (ih (fun _ _ _ hplace => nomatch hplace) hrest hold)

theorem length_rotate (line? : Option Nat) (free : Option Place) (ls : List Level) :
    (rotate line? free ls).length = ls.length :=
  (forall₂_rotate (P := fun _ => True) (Q := fun _ => True) (R := fun _ _ => True)
    (fun _ _ => trivial) (fun _ _ _ _ => ⟨trivial, fun _ _ => trivial⟩)
    (fun _ _ _ _ _ _ _ => trivial)
    (fun _ _ => trivial) fun _ _ => trivial).length_eq.symm

/-- The level that had a line knows its place after looking for it. -/
theorem search_find (h : (find a ls).1 = some (line, place))
    (hm : (find a ls).2[place.depth]? = some l) : l.search line = (place.set, some place.way) := by
  obtain ⟨m, -, rfl, hsearch, hm'⟩ := find_eq_some h
  obtain rfl : m.refer a = l := Option.some.inj (hm'.symm.trans hm)
  have hhits : m.Hits a := Option.isSome_of_eq_some (congrArg Prod.snd hsearch)
  obtain ⟨hshape, hcontents⟩ := sameLines_refer hhits
  rw [← hsearch, search_eq, search_eq, hshape.setOf_eq, hshape.isIndexed_eq,
    (hcontents _).find?_eq]

theorem length_lookUpVictims (a : Nat) (ls : List Level) :
    (lookUpVictims a ls).2.length = ls.length := by
  cases ls with
  | nil => rfl
  | cons l rest =>
      by_cases hl : l.Hits a
      · rw [lookUpVictims_of_hits hl]
        rfl
      · have hlength := (sameLines_find a rest).length_eq
        rcases hfind : find a rest with ⟨_ | ⟨line, place⟩, rest'⟩
        · rw [lookUpVictims_of_missing hl hfind, List.length_cons, length_rotate, List.length_cons,
            hlength, hfind]
        · rw [lookUpVictims_of_found hl hfind, List.length_cons, length_rotate, List.length_cons,
            hlength, hfind]

theorem length_victims_run (h : Hierarchy) (as : List Nat) :
    (h.run as).victims.length = h.victims.length := by
  induction as generalizing h with
  | nil => rfl
  | cons a as ih =>
      refine (ih _).trans ?_
      rw [victims_process]
      split
      · exact length_lookUpVictims a h.victims
      · rfl

/-- The victim level in which a reference ends has its line. -/
theorem hits_of_lookUpVictims {k : Nat} (h : (lookUpVictims a ls).1 = some k) :
    ∃ l, ls[k]? = some l ∧ l.Hits a := by
  cases ls with
  | nil => cases h
  | cons l rest =>
      by_cases hl : l.Hits a
      · rw [lookUpVictims_of_hits hl] at h
        cases h
        exact ⟨l, rfl, hl⟩
      · rcases hfind : find a rest with ⟨_ | ⟨line, place⟩, rest'⟩
        · rw [lookUpVictims_of_missing hl hfind] at h
          cases h
        · rw [lookUpVictims_of_found hl hfind] at h
          cases h
          obtain ⟨m, hm, rfl, hsearch, -⟩ := find_eq_some (congrArg Prod.fst hfind)
          exact ⟨m, hm, by rw [Hits, hsearch]; rfl⟩

section Becomes

variable {P : Nat → Prop} {Q : Level → Prop}

theorem becomes_find (h : Preserved P Q) (hls : ∀ l ∈ ls, Q l) :
    List.Forall₂ (Becomes Q) ls (find a ls).2 :=
  forall₂_find (fun l hl => ⟨.refl l, hls l hl⟩) fun l hl hhits =>
    ⟨sameShape_refer l a, h.refer (hls l hl) (h.of_hits (hls l hl) hhits)⟩

/-- A rotation into a place that was found. -/
theorem becomes_rotate (h : Preserved P Q) (hls : ∀ l ∈ ls, Q l)
    (hline : ∀ x, line? = some x → P x)
    (hplace : ∀ place, free = some place → ∀ l, ls[place.depth]? = some l →
      ∃ line, l.search line = (place.set, some place.way)) :
    List.Forall₂ (Becomes Q) ls (rotate line? free ls) := by
  refine forall₂_rotate (fun l hl => ⟨.refl l, hl⟩) (fun l line hl hline => ?_) ?_ hls hline
  · exact ⟨⟨sameShape_fill l line, (h.fill hl hline).1⟩, (h.fill hl hline).2⟩
  · intro l line? place hfree hl hQ hline
    obtain ⟨line, hsearch⟩ := hplace place hfree l hl
    have hset : place.set = l.setOf line := congrArg Prod.fst hsearch.symm
    exact ⟨sameShape_replace .., hset ▸ h.replace hQ (congrArg Prod.snd hsearch) hline⟩

/-- The lines that move between victim levels are those of the first of them. -/
theorem becomes_lookUpVictims (h : Preserved P Q) (hls : ∀ l ∈ ls, Q l)
    (hfirst : ∀ l, ls.head? = some l → P (l.lineOf a)) :
    List.Forall₂ (Becomes Q) ls (lookUpVictims a ls).2 := by
  cases ls with
  | nil => exact .nil
  | cons l rest =>
      obtain ⟨hl, hrest⟩ := List.forall_mem_cons.mp hls
      have hline := hfirst l rfl
      have hreferred : l.Becomes Q (l.refer a) := ⟨sameShape_refer l a, h.refer hl hline⟩
      by_cases hhits : l.Hits a
      · rw [lookUpVictims_of_hits hhits]
        exact .cons hreferred (becomes_refl hrest)
      · have hfind : List.Forall₂ (Becomes Q) rest (find a rest).2 := becomes_find h hrest
        rcases hfound : find a rest with ⟨_ | ⟨line, place⟩, rest'⟩ <;> rw [hfound] at hfind
        · rw [lookUpVictims_of_missing hhits hfound]
          exact .cons hreferred <| becomes_trans hfind <|
            becomes_rotate h (forall_of_becomes hfind) (h.fill hl hline).2 nofun
        · rw [lookUpVictims_of_found hhits hfound]
          have hplace (m : Level) (hm : rest'[place.depth]? = some m) :
              m.search line = (place.set, some place.way) :=
            search_find (congrArg Prod.fst hfound) (by rwa [hfound])
          obtain ⟨m, hm, -, hsearch, -⟩ := find_eq_some (congrArg Prod.fst hfound)
          have hline := h.of_search (hrest m (List.mem_of_getElem? hm)) (congrArg Prod.snd hsearch)
          refine .cons ⟨sameShape_fill l line, (h.fill hl hline).1⟩ <| becomes_trans hfind <|
            becomes_rotate h (forall_of_becomes hfind) (h.fill hl hline).2 fun p hp m hm => ?_
          obtain rfl := Option.some.inj hp
          exact ⟨line, hplace m hm⟩

theorem becomes_foldl_lookUpVictims {as : List Nat} (h : Preserved P Q) (hls : ∀ l ∈ ls, Q l)
    (has : ∀ a ∈ as, ∀ l, ls.head? = some l → P (l.lineOf a)) :
    List.Forall₂ (Becomes Q) ls (as.foldl (fun ls a => (lookUpVictims a ls).2) ls) := by
  induction as generalizing ls with
  | nil => exact becomes_refl hls
  | cons a as ih =>
      obtain ⟨ha, has⟩ := List.forall_mem_cons.mp has
      have hstep := becomes_lookUpVictims h hls ha
      refine becomes_trans hstep (ih (forall_of_becomes hstep) fun b hb l' hl' => ?_)
      cases ls with
      | nil => cases List.forall₂_nil_left_iff.mp hstep ▸ hl'
      | cons l rest =>
          obtain ⟨m, ms, hm, -, heq⟩ := List.forall₂_cons_left_iff.mp hstep
          rw [heq] at hl'
          cases hl'
          rw [hm.1.lineOf_eq]
          exact has b hb l rfl

end Becomes

end Hierarchy

end BinTrace.Cache
