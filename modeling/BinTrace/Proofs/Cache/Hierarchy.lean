import BinTrace.Proofs.Cache.Description
import BinTrace.Proofs.Cache.Level

/-!
How a reference goes through a hierarchy. It reaches a level if all levels before it miss, and
touches those that it reaches and no other. References follow each other in a run, and random
choices are taken from streams of words that may be any.
-/

namespace BinTrace.Cache

namespace Level

variable {l : Level} {a : Nat}

theorem Fresh.withWords (h : l.Fresh) (words : Random.WordStream) : (l.withWords words).Fresh :=
  ⟨h.sets_eq, h.ways_pos, h.lineSize_eq⟩

theorem Fresh.at?_eq (h : l.Fresh) (set way : Nat) : l.at? set way = none := by
  rw [at?, h.lineSet_eq]
  exact KeyMap.get?_empty way

theorem Fresh.not_holds (h : l.Fresh) (line : Nat) : ¬l.Holds line := by
  rintro ⟨set, way, hline⟩
  rw [h.at?_eq] at hline
  cases hline

theorem Fresh.tidy (h : l.Fresh) : l.Tidy := by
  refine ⟨fun {set way line} hline => ?_, fun set => ?_⟩
  · exact absurd ⟨set, way, hline⟩ (h.not_holds line)
  · rw [h.lineSet_eq]
    exact LineSet.consistent_empty _

/-- The level has the line of an address, as far as it can tell. -/
def Hits (l : Level) (a : Nat) : Prop := (l.search (l.lineOf a)).2.isSome

instance (l : Level) (a : Nat) : Decidable (l.Hits a) := inferInstanceAs (Decidable (_ = true))

/-- An inclusive level after a reference that reached it. -/
def refer (l : Level) (a : Nat) : Level :=
  match (l.search (l.lineOf a)).2 with
  | some way => l.markUsed (l.setOf (l.lineOf a)) way
  | none => (l.fill (l.lineOf a)).2

theorem refer_of_some {way : Nat} (h : (l.search (l.lineOf a)).2 = some way) :
    l.refer a = l.markUsed (l.setOf (l.lineOf a)) way := by
  rw [refer, h]

theorem refer_of_none (h : (l.search (l.lineOf a)).2 = none) :
    l.refer a = (l.fill (l.lineOf a)).2 := by
  rw [refer, h]

/-- A level that has the line keeps its lines. -/
theorem sameLines_refer (h : l.Hits a) : l.SameLines (l.refer a) := by
  obtain ⟨way, hway⟩ := Option.isSome_iff_exists.mp h
  rw [refer_of_some hway]
  exact sameLines_markUsed ..

theorem not_hits_iff : ¬l.Hits a ↔ (l.search (l.lineOf a)).2 = none := by
  rw [Hits, Option.not_isSome_iff_eq_none]

theorem sameShape_refer (l : Level) (a : Nat) : l.SameShape (l.refer a) := by
  unfold refer
  split
  · exact sameShape_markUsed ..
  · exact sameShape_fill ..

theorem sameShape_foldl_refer (l : Level) (as : List Nat) : l.SameShape (as.foldl refer l) := by
  induction as generalizing l with
  | nil => exact .refl l
  | cons a as ih => exact (sameShape_refer l a).trans (ih _)

/-- A level that a reference reached has its line afterwards. -/
theorem hits_refer (l : Level) (a : Nat) : (l.refer a).Hits a := by
  have hline := (sameShape_refer l a).lineOf_eq (x := a)
  rw [Hits, hline]
  cases hsearch : (l.search (l.lineOf a)).2 with
  | some way =>
      have hkept := (lineSet_markUsed l (l.setOf (l.lineOf a)) way (l.setOf (l.lineOf a))).find?_eq
        l.isIndexed (l.lineOf a)
      rw [refer_of_some hsearch, search_eq]
      exact (congrArg Option.isSome (hkept.trans hsearch)).trans rfl
  | none =>
      obtain ⟨way, hway⟩ := exists_search_fill l (l.lineOf a)
      rw [refer_of_none hsearch, hway]
      rfl

end Level

namespace Hierarchy

variable {h : Hierarchy} {l : Level} {ls : List Level} {a i j : Nat} {hit : Option Nat}

/-- Every level takes its random words from the stream of its number. -/
def withWords (h : Hierarchy) (words : Nat → Random.WordStream) : Hierarchy :=
  { h with
    inclusive := h.inclusive.map fun l => l.withWords (words l.number)
    victims := h.victims.map fun l => l.withWords (words l.number) }

/-- The streams that belong to a seed are some of those that may be. -/
theorem withSeed_eq (h : Hierarchy) (seed : Nat) :
    h.withSeed seed = h.withWords fun number => Level.seeded number seed := rfl

theorem levels_withWords (h : Hierarchy) (words : Nat → Random.WordStream) :
    (h.withWords words).levels = h.levels.map fun l => l.withWords (words l.number) :=
  (List.map_append ..).symm

theorem Accepted.withWords (hh : h.Accepted) (words : Nat → Random.WordStream) :
    (h.withWords words).Accepted := by
  refine ⟨?_, ?_, ?_⟩
  · rw [levels_withWords, ne_eq, List.map_eq_nil_iff]
    exact hh.levels_ne
  · rw [levels_withWords]
    exact List.forall_mem_map.mpr fun l hl => (hh.fresh l hl).withWords _
  · exact List.forall_mem_map.mpr fun u hu => List.forall_mem_map.mpr (hh.setCount_eq u hu)

def run (h : Hierarchy) (as : List Nat) : Hierarchy := as.foldl (fun h a => (h.process a).2) h

theorem run_concat (h : Hierarchy) (as : List Nat) (a : Nat) :
    h.run (as ++ [a]) = ((h.run as).process a).2 := by
  rw [run, List.foldl_append]
  rfl

/-- A reference with this outcome missed in all levels before the one of the given number. -/
def Reaches (i : Nat) (hit : Option Nat) : Prop := ∀ j, hit = some j → i ≤ j

instance (i : Nat) : DecidablePred (Reaches i)
  | none => isTrue fun _ h => nomatch h
  | some j => decidable_of_iff (i ≤ j) ⟨fun h _ hj => Option.some.inj hj ▸ h, fun h => h j rfl⟩

theorem lookUp_cons (a : Nat) (l : Level) (rest : List Level) : lookUp a (l :: rest) =
    if l.Hits a then (some 0, l.refer a :: rest)
    else ((lookUp a rest).1.map (· + 1), l.refer a :: (lookUp a rest).2) := by
  rw [lookUp]
  cases hsearch : (l.search (l.lineOf a)).2 with
  | some way =>
      have hhits : l.Hits a := by rw [Level.Hits, hsearch]; rfl
      rw [if_pos hhits, Level.refer_of_some hsearch, Level.search_of_snd hsearch]
  | none =>
      rw [if_neg (Level.not_hits_iff.mpr hsearch), Level.refer_of_none hsearch,
        Level.search_of_snd hsearch]

theorem length_lookUp (a : Nat) (ls : List Level) : (lookUp a ls).2.length = ls.length := by
  induction ls with
  | nil => rfl
  | cons l rest ih =>
      rw [lookUp_cons]
      split
      · rfl
      · rw [List.length_cons, ih, List.length_cons]

/-- A level is touched exactly if the reference reaches it. -/
theorem getElem?_lookUp (a : Nat) (ls : List Level) (i : Nat) : (lookUp a ls).2[i]? =
    ls[i]?.map fun l => if Reaches i (lookUp a ls).1 then l.refer a else l := by
  induction ls generalizing i with
  | nil => rfl
  | cons l rest ih =>
      rw [lookUp_cons]
      split
      · cases i with
        | zero => simp [Reaches]
        | succ i =>
            have hnot : ¬Reaches (i + 1) (some 0) := fun h => absurd (h 0 rfl) (by omega)
            simp [hnot]
      · cases i with
        | zero => simp [Reaches]
        | succ i =>
            have hiff : Reaches (i + 1) ((lookUp a rest).1.map (· + 1)) ↔
                Reaches i (lookUp a rest).1 := by
              cases (lookUp a rest).1 <;> simp [Reaches]
            rw [List.getElem?_cons_succ, List.getElem?_cons_succ, ih]
            simp only [hiff]

theorem lt_of_lookUp {n : Nat} (hn : (lookUp a ls).1 = some n) : n < ls.length := by
  induction ls generalizing n with
  | nil => cases hn
  | cons l rest ih =>
      rw [lookUp_cons] at hn
      split at hn
      · cases hn
        exact Nat.succ_pos _
      · obtain ⟨m, hm, rfl⟩ := Option.map_eq_some_iff.mp hn
        exact Nat.succ_lt_succ (ih hm)

/-- A level that is reached has the line exactly if the reference ends there. -/
theorem lookUp_eq_some_iff (hl : ls[i]? = some l) :
    (lookUp a ls).1 = some i ↔ Reaches i (lookUp a ls).1 ∧ l.Hits a := by
  induction ls generalizing i with
  | nil => cases hl
  | cons m rest ih =>
      rw [lookUp_cons]
      cases i with
      | zero =>
          obtain rfl : m = l := Option.some.inj hl
          by_cases hm : m.Hits a
          · simp [hm, Reaches]
          · simp [hm]
      | succ i =>
          by_cases hm : m.Hits a
          · simp [hm, Reaches]
          · have hrest := ih hl
            simp only [hm, if_false]
            cases hout : (lookUp a rest).1 with
            | none => simpa [hout, Reaches] using hrest
            | some j => simpa [hout, Reaches] using hrest

theorem inclusive_process (h : Hierarchy) (a : Nat) :
    (h.process a).2.inclusive = (lookUp a h.inclusive).2 := by
  unfold process
  rcases lookUp a h.inclusive with ⟨_ | n, inclusive⟩ <;> rfl

theorem process_of_some {n : Nat} (hn : (lookUp a h.inclusive).1 = some n) :
    (h.process a).1 = some n ∧ (h.process a).2.victims = h.victims := by
  unfold process
  rcases hout : lookUp a h.inclusive with ⟨_ | m, inclusive⟩
  · rw [hout] at hn
    cases hn
  · rw [hout] at hn
    exact ⟨hn, rfl⟩

theorem process_of_none (hn : (lookUp a h.inclusive).1 = none) :
    (h.process a).1 = (lookUpVictims a h.victims).1.map (· + h.inclusive.length) ∧
      (h.process a).2.victims = (lookUpVictims a h.victims).2 := by
  have hlength := length_lookUp a h.inclusive
  unfold process
  rcases hout : lookUp a h.inclusive with ⟨_ | m, inclusive⟩
  · rw [hout] at hlength
    dsimp only at hlength ⊢
    rw [hlength]
    exact ⟨rfl, rfl⟩
  · rw [hout] at hn
    cases hn

/-- In which inclusive levels a reference ends and which it reaches does not depend on the victim
levels behind them. -/
theorem reaches_process (hi : i < h.inclusive.length) :
    (Reaches i (h.process a).1 ↔ Reaches i (lookUp a h.inclusive).1) ∧
      ((h.process a).1 = some i ↔ (lookUp a h.inclusive).1 = some i) := by
  cases hn : (lookUp a h.inclusive).1 with
  | some n => rw [(process_of_some hn).1]; exact ⟨.rfl, .rfl⟩
  | none =>
      rw [(process_of_none hn).1]
      cases (lookUpVictims a h.victims).1 with
      | none => exact ⟨.rfl, .rfl⟩
      | some k =>
          have hne : k + h.inclusive.length ≠ i := by omega
          simp only [Reaches, Option.map_some, Option.some.injEq, reduceCtorEq, hne, iff_self,
            and_true, false_imp_iff, implies_true, iff_true]
          omega

/-- What one reference does to an inclusive level. -/
theorem getElem?_process (hl : h.inclusive[i]? = some l) (a : Nat) :
    (h.process a).2.inclusive[i]? =
      some (if Reaches i (h.process a).1 then l.refer a else l) := by
  have hi : i < h.inclusive.length := (List.getElem?_eq_some_iff.mp hl).1
  rw [inclusive_process, getElem?_lookUp, hl, Option.map_some]
  simp only [(reaches_process hi).1]

/-- A reference reaches the victim levels if no inclusive level has its line. -/
theorem reaches_length_iff (h : Hierarchy) (a : Nat) :
    Reaches h.inclusive.length (h.process a).1 ↔ (lookUp a h.inclusive).1 = none := by
  cases hn : (lookUp a h.inclusive).1 with
  | none =>
      rw [(process_of_none hn).1]
      cases (lookUpVictims a h.victims).1 <;> simp [Reaches]
  | some n =>
      have hlt : n < h.inclusive.length := lt_of_lookUp hn
      rw [(process_of_some hn).1]
      simpa [Reaches] using hlt

/-- What one reference does to the victim levels. -/
theorem victims_process (h : Hierarchy) (a : Nat) : (h.process a).2.victims =
    if Reaches h.inclusive.length (h.process a).1 then (lookUpVictims a h.victims).2
    else h.victims := by
  have hreaches := reaches_length_iff h a
  cases hn : (lookUp a h.inclusive).1 with
  | none => rw [(process_of_none hn).2, if_pos (hreaches.mpr hn)]
  | some n =>
      rw [(process_of_some hn).2, if_neg]
      rw [hreaches, hn]
      exact Option.some_ne_none n

theorem length_inclusive_run (h : Hierarchy) (as : List Nat) :
    (h.run as).inclusive.length = h.inclusive.length := by
  induction as generalizing h with
  | nil => rfl
  | cons a as ih => exact (ih _).trans (by rw [inclusive_process, length_lookUp])

/-- The references of a run that reach the level of a number. -/
def reaching (i : Nat) (h : Hierarchy) : List Nat → List Nat
  | [] => []
  | a :: as =>
    let (hit, h) := h.process a
    if Reaches i hit then a :: reaching i h as else reaching i h as

theorem reaching_sublist (i : Nat) (h : Hierarchy) (as : List Nat) :
    (reaching i h as).Sublist as := by
  induction as generalizing h with
  | nil => exact .slnil
  | cons a as ih =>
      rw [reaching]
      dsimp only
      split
      · exact (ih _).cons_cons a
      · exact (ih _).cons a

/-- An inclusive level is touched by the references that reach it, and by no other. -/
theorem inclusive_run (hl : h.inclusive[i]? = some l) (as : List Nat) :
    (h.run as).inclusive[i]? = some ((reaching i h as).foldl Level.refer l) := by
  induction as generalizing h l with
  | nil => exact hl
  | cons a as ih =>
      rw [reaching]
      dsimp only
      have hnext := getElem?_process hl a
      split
      · rename_i hreach
        rw [if_pos hreach] at hnext
        exact ih hnext
      · rename_i hreach
        rw [if_neg hreach] at hnext
        exact ih hnext

theorem exists_foldl_refer_of_run {as : List Nat} (hl : l ∈ (h.run as).inclusive) :
    ∃ start ∈ h.inclusive, ∃ bs : List Nat, bs.foldl Level.refer start = l := by
  obtain ⟨i, hi, rfl⟩ := List.getElem_of_mem hl
  have hi' : i < h.inclusive.length := length_inclusive_run h as ▸ hi
  have hrun := inclusive_run (List.getElem?_eq_getElem hi') as
  rw [List.getElem?_eq_getElem hi] at hrun
  exact ⟨_, List.getElem_mem hi', _, (Option.some.inj hrun).symm⟩

/-- The victim levels are touched by the references that reach them, and by no other. -/
theorem victims_run (h : Hierarchy) (as : List Nat) :
    (h.run as).victims = (reaching h.inclusive.length h as).foldl
      (fun ls a => (lookUpVictims a ls).2) h.victims := by
  induction as generalizing h with
  | nil => rfl
  | cons a as ih =>
      have hlength : (h.process a).2.inclusive.length = h.inclusive.length := by
        rw [inclusive_process, length_lookUp]
      have hrun := ih (h.process a).2
      rw [hlength, victims_process] at hrun
      rw [reaching]
      dsimp only
      split
      · rename_i hreach
        rw [if_pos hreach] at hrun
        exact hrun
      · rename_i hreach
        rw [if_neg hreach] at hrun
        exact hrun

end Hierarchy

end BinTrace.Cache
