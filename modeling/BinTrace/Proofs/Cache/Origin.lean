import BinTrace.Proofs.Cache.Victims

/-!
Where the lines of a level come from. An inclusive level is filled with its own lines of earlier
references. Victim levels hand on what the first of them was filled with, so a level among them
whose lines have another size takes numbers of other lines for its own.
-/

namespace BinTrace.Cache

namespace Level

variable {l : Level} {P : Nat → Prop} {line : Nat}

/-- A level with lines of one property only. -/
structure OnlyHolds (P : Nat → Prop) (l : Level) : Prop where
  faithful : l.Faithful
  of_holds : ∀ x, l.Holds x → P x

theorem Fresh.onlyHolds (h : l.Fresh) (P : Nat → Prop) : l.OnlyHolds P :=
  ⟨h.tidy.faithful, fun x hx => absurd hx (h.not_holds x)⟩

theorem OnlyHolds.of_search {way : Nat} (h : l.OnlyHolds P)
    (hfound : (l.search line).2 = some way) : P line :=
  h.of_holds line ⟨_, _, h.faithful.holds_of_search hfound⟩

/-- Levels keep to lines of one property if they are filled with such lines. -/
theorem preserved_onlyHolds (P : Nat → Prop) : Preserved P (OnlyHolds P) where
  of_search := OnlyHolds.of_search
  markUsed := by
    intro l line way h _
    have hsame := sameLines_markUsed l (l.setOf line) way
    exact ⟨hsame.faithful h.faithful, fun x hx => h.of_holds x (hsame.holds_iff.mp hx)⟩
  fill := by
    intro l line h hline
    refine ⟨⟨h.faithful.fill line, fun x hx => ?_⟩,
      fun x hx => h.of_holds x (holds_of_fill_fst hx)⟩
    rcases holds_of_holds_fill hx with rfl | hx
    · exact hline
    · exact h.of_holds x hx
  replace := by
    intro l line way line? h _ hline
    refine ⟨h.faithful.replace line? (l.setOf line) way, fun x ⟨k, w, hx⟩ => ?_⟩
    rw [at?_replace] at hx
    split at hx
    · exact hline x hx
    · exact h.of_holds x ⟨k, w, hx⟩

end Level

namespace Hierarchy

open Level

variable {h : Hierarchy} {l : Level} {a : Nat}

/-- What an inclusive level holds after a run are lines of its references. -/
theorem onlyHolds_inclusive (as : List Nat) {i : Nat} (hl : h.inclusive[i]? = some l)
    (hfresh : l.Fresh) : ∃ l', (h.run as).inclusive[i]? = some l' ∧ l.SameShape l' ∧
      l'.OnlyHolds fun line => ∃ a ∈ as, l.lineOf a = line :=
  ⟨_, inclusive_run hl as, sameShape_foldl_refer _ _, (preserved_onlyHolds _).foldl_refer
    (hfresh.onlyHolds _) fun a ha => ⟨a, (reaching_sublist i h as).subset ha, rfl⟩⟩

/-- What a victim level holds after a run are lines that the first victim level was given. -/
theorem onlyHolds_victims (as : List Nat) (hfresh : ∀ l ∈ h.victims, l.Fresh) :
    List.Forall₂ (Becomes (OnlyHolds fun line => ∃ l ∈ h.victims.head?, ∃ a ∈ as,
      l.lineOf a = line)) h.victims (h.run as).victims := by
  rw [victims_run]
  refine becomes_foldl_lookUpVictims (preserved_onlyHolds _)
    (fun l hl => (hfresh l hl).onlyHolds _) ?_
  exact fun a ha l hl => ⟨l, hl, a, (reaching_sublist _ h as).subset ha, rfl⟩

/-- A level has the line of an address only if an earlier reference lies in a block of the same
number. The block is one of the level if it is inclusive, and one of the first victim level if the
level is a victim level. -/
theorem exists_origin {i x : Nat} {as : List Nat} (hh : h.Accepted)
    (hhit : ((h.run as).process x).1 = some i) :
    ∃ l ∈ h.levels[i]?, ∃ e ∈ h.levels[min i h.inclusive.length]?,
      ∃ a ∈ as, a / e.lineSize = x / l.lineSize := by
  have hfresh := hh.fresh
  rw [levels, List.forall_mem_append] at hfresh
  have hlength := length_inclusive_run h as
  rw [levels]
  cases hn : (lookUp x (h.run as).inclusive).1 with
  | some n =>
      obtain rfl : n = i := by
        rw [(process_of_some hn).1] at hhit
        exact Option.some.inj hhit
      have hlt : n < h.inclusive.length := hlength ▸ lt_of_lookUp hn
      obtain ⟨l, hl⟩ : ∃ l, h.inclusive[n]? = some l := ⟨_, List.getElem?_eq_getElem hlt⟩
      have hl' : l.Fresh := hfresh.1 l (List.mem_of_getElem? hl)
      obtain ⟨m, hm, hshape, honly⟩ := onlyHolds_inclusive as hl hl'
      obtain ⟨a, ha, hline⟩ := (preserved_onlyHolds _).of_hits honly ((lookUp_eq_some_iff hm).mp hn).2
      rw [hshape.lineOf_eq, hl'.lineOf_eq, hl'.lineOf_eq] at hline
      have hget : (h.inclusive ++ h.victims)[n]? = some l :=
        (List.getElem?_append_left hlt).trans hl
      rw [Nat.min_eq_left hlt.le]
      exact ⟨l, hget, l, hget, a, ha, hline⟩
  | none =>
      obtain ⟨hout, -⟩ := process_of_none hn
      rw [hhit, eq_comm, Option.map_eq_some_iff] at hout
      obtain ⟨k, hk, rfl⟩ := hout
      obtain ⟨m, hm, hhits⟩ := hits_of_lookUpVictims hk
      obtain ⟨l, hl, hshape, honly⟩ :=
        exists_getElem?_of_forall₂ (onlyHolds_victims as hfresh.2) hm
      obtain ⟨e, he, a, ha, hline⟩ := (preserved_onlyHolds _).of_hits honly hhits
      have hfirst : e.Fresh := hfresh.2 e (List.mem_of_head? he)
      rw [hshape.lineOf_eq, (hfresh.2 l (List.mem_of_getElem? hl)).lineOf_eq,
        hfirst.lineOf_eq] at hline
      rw [hlength, Nat.min_eq_right (Nat.le_add_left _ _),
        List.getElem?_append_right (Nat.le_add_left _ _), Nat.add_sub_cancel,
        List.getElem?_append_right (Nat.le_refl _), Nat.sub_self, ← List.head?_eq_getElem?]
      exact ⟨l, hl, e, he, a, ha, hline⟩

/-- After a reference the first victim level has its line, unless the line was taken from a level
that knows it by another number. -/
theorem exists_hits_lookUpVictims {l : Level} {rest : List Level}
    (hsame : ∀ k, (lookUpVictims a (l :: rest)).1 = some k →
      ∀ m ∈ (l :: rest)[k]?, m.lineOf a = l.lineOf a) :
    ∃ l' rest', (lookUpVictims a (l :: rest)).2 = l' :: rest' ∧ l'.Hits a := by
  by_cases hhits : l.Hits a
  · rw [lookUpVictims_of_hits hhits]
    exact ⟨_, _, rfl, hits_refer l a⟩
  · rcases hfound : find a rest with ⟨_ | ⟨line, place⟩, rest'⟩
    · rw [lookUpVictims_of_missing hhits hfound]
      exact ⟨_, _, rfl, hits_refer l a⟩
    · obtain ⟨m, hm, hline, -⟩ := find_eq_some (congrArg Prod.fst hfound)
      rw [lookUpVictims_of_found hhits hfound] at hsame ⊢
      rw [hsame _ rfl m hm] at hline
      subst hline
      have hrefer := refer_of_none (not_hits_iff.mp hhits)
      exact ⟨_, _, rfl, hrefer ▸ hits_refer l a⟩

/-- A reference that is made again ends in the first level. -/
theorem process_again {x : Nat} (hne : h.levels ≠ [])
    (hsame : h.inclusive = [] → ∀ i, (h.process x).1 = some i →
      ∀ l ∈ h.victims[i]?, ∀ first ∈ h.victims.head?, l.lineOf x = first.lineOf x) :
    ((h.process x).2.process x).1 = some 0 := by
  cases hinclusive : h.inclusive with
  | cons l rest =>
      have hlevels : ∃ rest', (h.process x).2.inclusive = l.refer x :: rest' := by
        rw [inclusive_process, hinclusive, lookUp_cons]
        split <;> exact ⟨_, rfl⟩
      obtain ⟨rest', hlevels⟩ := hlevels
      refine (process_of_some (n := 0) ?_).1
      rw [hlevels, lookUp_cons, if_pos (hits_refer l x)]
  | nil =>
      have hmiss : (lookUp x h.inclusive).1 = none := by rw [hinclusive]; rfl
      obtain ⟨hout, hvictims⟩ := process_of_none hmiss
      replace hout : (h.process x).1 = (lookUpVictims x h.victims).1 := by
        rw [hout, hinclusive]
        cases (lookUpVictims x h.victims).1 <;> rfl
      cases hlevels : h.victims with
      | nil => exact absurd (by rw [levels, hinclusive, hlevels]; rfl) hne
      | cons l rest =>
          rw [hlevels] at hout hvictims
          obtain ⟨l', rest', heq, hhits⟩ := exists_hits_lookUpVictims (a := x) (l := l)
            fun k hk m hm => hsame hinclusive k (hout.trans hk) m (hlevels ▸ hm) l
              (by rw [hlevels]; rfl)
          rw [heq] at hvictims
          have hagain : (lookUp x (h.process x).2.inclusive).1 = none := by
            rw [inclusive_process, hinclusive]
            rfl
          rw [(process_of_none hagain).1, hvictims, lookUpVictims_of_hits hhits, inclusive_process,
            hinclusive]
          rfl

theorem levels_run_ne (hh : h.Accepted) (as : List Nat) : (h.run as).levels ≠ [] := by
  have hne := hh.levels_ne
  rw [← List.length_pos_iff, levels, List.length_append] at hne ⊢
  rwa [length_inclusive_run, length_victims_run]

/-- A reference that is made again ends in the first level, in a hierarchy that is accepted. -/
theorem process_run_again {x : Nat} {as : List Nat} (hh : h.Accepted)
    (hsame : h.inclusive = [] → ∀ i, ((h.run as).process x).1 = some i →
      ∀ l ∈ h.victims[i]?, ∀ e ∈ h.victims.head?, l.lineSize = e.lineSize) :
    (((h.run as).process x).2.process x).1 = some 0 := by
  refine process_again (levels_run_ne hh as) fun hinclusive i hi m hm first hfirst => ?_
  have hnil : h.inclusive = [] := by
    rw [← List.length_eq_zero_iff, ← length_inclusive_run h as, hinclusive, List.length_nil]
  have hvictims := onlyHolds_victims as fun l hl =>
    hh.fresh l (List.mem_append_right _ hl)
  obtain ⟨l, hl, hlm, -⟩ := exists_getElem?_of_forall₂ hvictims hm
  rw [List.head?_eq_getElem?] at hfirst
  obtain ⟨e, he, hef, -⟩ := exists_getElem?_of_forall₂ hvictims hfirst
  have hsize := hsame hnil i hi l hl e (by rwa [List.head?_eq_getElem?])
  rw [hlm.lineOf_eq, hef.lineOf_eq, lineOf, lineOf, lineBits, lineBits, hsize]

/-- In a hierarchy that a description gives, a reference ends in a level only if an earlier one lies
in the same block, where the level that first took the line tells the size of the earlier block, and
the level that has the line the size of the later one. These are one level, or two victim levels. A
reference that is made again ends in the first level if the sizes are the same. So if the victim
levels have lines of one size, hits are real. -/
theorem hit_origin {text : List Char} {number : Nat}
    (hd : Description.ofLine text number = .ok (some h)) (words : Nat → Random.WordStream)
    (as : List Nat) (x : Nat) :
    let s := (h.withWords words).run as
    let hit := (s.process x).1
    let again := ((s.process x).2.process x).1
    (∀ i, hit = some i → ∃ l ∈ h.levels[i]?, ∃ e ∈ h.levels[min i h.inclusive.length]?,
      ∃ a ∈ as, a / e.lineSize = x / l.lineSize) ∧
    ((h.inclusive = [] → ∀ i, hit = some i →
      ∀ l ∈ h.victims[i]?, ∀ e ∈ h.victims.head?, l.lineSize = e.lineSize) → again = some 0) ∧
    (h.SharesLineSize →
      (∀ i, hit = some i → ∃ l ∈ h.levels, ∃ a ∈ as, a / l.lineSize = x / l.lineSize) ∧
        again = some 0) := by
  intro s hit again
  have hh := (Description.accepted_of_ofLine hd).withWords words
  have horigin (i : Nat) (hi : hit = some i) : ∃ l ∈ h.levels[i]?,
      ∃ e ∈ h.levels[min i h.inclusive.length]?, ∃ a ∈ as, a / e.lineSize = x / l.lineSize := by
    obtain ⟨l, hl, e, he, a, ha, hline⟩ := exists_origin hh hi
    rw [levels_withWords, List.getElem?_map] at hl he
    obtain ⟨l', hl', rfl⟩ := Option.mem_map.mp hl
    obtain ⟨e', he', rfl⟩ := Option.mem_map.mp he
    rw [withWords, List.length_map] at he'
    exact ⟨l', hl', e', he', a, ha, hline⟩
  have hagain (hsame : h.inclusive = [] → ∀ i, hit = some i →
      ∀ l ∈ h.victims[i]?, ∀ e ∈ h.victims.head?, l.lineSize = e.lineSize) : again = some 0 := by
    refine process_run_again hh fun hnil i hi l hl e he => ?_
    rw [withWords, List.getElem?_map] at hl
    rw [withWords, List.head?_map] at he
    obtain ⟨l', hl', rfl⟩ := Option.mem_map.mp hl
    obtain ⟨e', he', rfl⟩ := Option.mem_map.mp he
    exact hsame (List.map_eq_nil_iff.mp hnil) i hi l' hl' e' he'
  refine ⟨horigin, hagain, fun hshares => ⟨fun i hi => ?_, hagain fun _ i _ l hl e he =>
    hshares l (List.mem_of_getElem? hl) e (List.mem_of_head? he)⟩⟩
  obtain ⟨l, hl, e, he, a, ha, hline⟩ := horigin i hi
  have hsize : e.lineSize = l.lineSize := by
    rcases Nat.lt_or_ge i h.inclusive.length with hlt | hge
    · rw [Nat.min_eq_left hlt.le, Option.mem_def, hl] at he
      rw [Option.some.inj he]
    · rw [levels, Option.mem_def, List.getElem?_append_right hge] at hl
      rw [levels, Nat.min_eq_right hge, Option.mem_def,
        List.getElem?_append_right (Nat.le_refl _)] at he
      exact hshares e (List.mem_of_getElem? he) l (List.mem_of_getElem? hl)
  exact ⟨l, List.mem_of_getElem? hl, a, ha, hsize ▸ hline⟩

/-- A line that has moved down to the last victim level. -/
theorem hit_origin_fourLevels :
    let s := (Description.fourLevels.withWords fun number => Level.seeded number 0).run
      [0, 64, 128, 64, 192]
    (s.process 128).1 = some 3 ∧
      (∃ l ∈ Description.fourLevels.levels, ∃ a ∈ [0, 64, 128, 64, 192],
        a / l.lineSize = 128 / l.lineSize) ∧
      ((s.process 128).2.process 128).1 = some 0 := by
  intro s
  have hhit : (s.process 128).1 = some 3 := by decide +kernel
  obtain ⟨-, -, hreal⟩ := hit_origin Description.ofLine_fourLevels _ [0, 64, 128, 64, 192] 128
  obtain ⟨horigin, hagain⟩ := hreal (by decide +kernel)
  exact ⟨hhit, horigin 3 hhit, hagain⟩

end Hierarchy

namespace Description

/-- Victim levels with lines of different sizes. -/
def twoSizesLine : List Char := "0 2 64 1 64 dir_vc 128 1 128 dir_vc".toList

def twoSizes : Hierarchy :=
  .new 0 [.new 0 64 1 64 .first .victim, .new 1 128 1 128 .first .victim]

theorem ofLine_twoSizes : ofLine twoSizesLine 1 = .ok (some twoSizes) := by
  have hwords : Text.words (twoSizesLine.takeWhile (· ≠ '#')) =
      ["0", "2", "64", "1", "64", "dir_vc", "128", "1", "128", "dir_vc"].map String.toList := by
    decide +kernel
  have h0 : size? 0 "0".toList = some 0 := by decide +kernel
  have h1 : size? 1 "1".toList = some 1 := by decide +kernel
  have h2 : size? 1 "2".toList = some 2 := by decide +kernel
  have h64 : size? 1 "64".toList = some 64 := by decide +kernel
  have h128 : size? 1 "128".toList = some 128 := by decide +kernel
  have hfirst : Policy.ofName "dir_vc".toList = .ok .first := by decide +kernel
  have hlevels := levels_cons 0 false h64 h1 h64 hfirst rfl (by decide) <|
    levels_cons 1 _ h128 h1 h128 hfirst rfl (by decide) levels_nil
  exact ofLine_of_words hwords (by decide) (hierarchy_cons h0 h2 (by decide) hlevels)
    (by decide +kernel)

end Description

/-- The last level takes the line 64 of the first one for its own line of that number. The address
lies in no block of an earlier reference, and the line is not in the first level afterwards. -/
theorem Hierarchy.exists_hit_without_origin : ∃ text h as x,
    Description.ofLine text 1 = .ok (some h) ∧
      let s := (h.withWords fun number => Level.seeded number 0).run as
      (s.process x).1 = some 1 ∧
        (∀ l ∈ h.levels, ∀ a ∈ as, a / l.lineSize ≠ x / l.lineSize) ∧
        ((s.process x).2.process x).1 ≠ some 0 := by
  refine ⟨_, _, [0x1000, 0], 0x2000, Description.ofLine_twoSizes, ?_⟩
  decide +kernel

end BinTrace.Cache
