import BinTrace.Proofs.Cache.Victims

/-!
Victim levels with lines of one size share the lines between them: no line is in two of them. A line
that is found moves to the first level and the ones that give way close the gap behind it, so no
line is lost. A line that is not found is added, and one that leaves the last level is lost.
-/

namespace BinTrace.Cache

namespace Level

variable {l l' : Level} {a : Nat}

theorem Tidy.hits_iff (h : l.Tidy) : l.Hits a ↔ l.Holds (l.lineOf a) := by
  rw [← not_iff_not, not_hits_iff, h.search_eq_none_iff]

end Level

namespace Hierarchy

open Level

variable {ls ls' rest : List Level} {l m : Level} {sets bits a c line x : Nat} {line? : Option Nat}
  {place : Place}

/-- Some of the levels has the line. -/
def Held (ls : List Level) (x : Nat) : Prop := ∃ l ∈ ls, l.Holds x

theorem held_cons : Held (l :: rest) x ↔ l.Holds x ∨ Held rest x :=
  List.exists_mem_cons_iff ..

/-- Levels that place lines in the same way and have no line twice. -/
structure Exclusive (sets bits : Nat) (ls : List Level) : Prop where
  tidy : ∀ l ∈ ls, l.Tidy
  setCount_eq : ∀ l ∈ ls, l.setCount = sets
  lineBits_eq : ∀ l ∈ ls, l.lineBits = bits
  apart : ls.Pairwise fun l m => ∀ x, l.Holds x → ¬m.Holds x

theorem exclusive_cons : Exclusive sets bits (l :: rest) ↔
    (l.Tidy ∧ l.setCount = sets ∧ l.lineBits = bits ∧ ∀ x, l.Holds x → ¬Held rest x) ∧
      Exclusive sets bits rest := by
  constructor
  · rintro ⟨htidy, hsets, hbits, hapart⟩
    rw [List.forall_mem_cons] at htidy hsets hbits
    rw [List.pairwise_cons] at hapart
    exact ⟨⟨htidy.1, hsets.1, hbits.1, fun x hx ⟨m, hm, hmx⟩ => hapart.1 m hm x hx hmx⟩,
      htidy.2, hsets.2, hbits.2, hapart.2⟩
  · rintro ⟨⟨htidy, hsets, hbits, hapart⟩, h⟩
    exact ⟨List.forall_mem_cons.mpr ⟨htidy, h.tidy⟩,
      List.forall_mem_cons.mpr ⟨hsets, h.setCount_eq⟩,
      List.forall_mem_cons.mpr ⟨hbits, h.lineBits_eq⟩,
      List.pairwise_cons.mpr ⟨fun m hm x hx hmx => hapart x hx ⟨m, hm, hmx⟩, h.apart⟩⟩

theorem Exclusive.nil : Exclusive sets bits [] := ⟨nofun, nofun, nofun, .nil⟩

/-- A level may be changed if it takes no line that another one has. -/
theorem Exclusive.cons_of (h : Exclusive sets bits (l :: rest)) (hshape : l.SameShape m)
    (htidy : m.Tidy) (hls : Exclusive sets bits ls) (hapart : ∀ x, m.Holds x → ¬Held ls x) :
    Exclusive sets bits (m :: ls) := by
  obtain ⟨⟨-, hsets, hbits, -⟩, -⟩ := exclusive_cons.mp h
  refine exclusive_cons.mpr ⟨⟨htidy, hshape.setCount_eq.trans hsets, ?_, hapart⟩, hls⟩
  rw [← hbits, lineBits, lineBits, hshape.lineSize_eq]

/-- Levels with the same lines in the same ways. -/
theorem Exclusive.sameLines (h : Exclusive sets bits ls) (hsame : List.Forall₂ SameLines ls ls') :
    Exclusive sets bits ls' ∧ ∀ x, Held ls' x ↔ Held ls x := by
  induction hsame with
  | nil => exact ⟨h, fun _ => .rfl⟩
  | cons hl _ ih =>
      obtain ⟨⟨htidy, -, -, hapart⟩, hrest⟩ := exclusive_cons.mp h
      obtain ⟨hexclusive, hheld⟩ := ih hrest
      refine ⟨h.cons_of hl.shape (hl.tidy htidy) hexclusive fun x hx => ?_, fun x => ?_⟩
      · rw [hheld]
        exact hapart x (hl.holds_iff.mp hx)
      · rw [held_cons, held_cons, hl.holds_iff, hheld]

theorem settle_eq {set way : Nat} (hline : ∀ x, line? = some x → l.setOf x = set) :
    settle l line? set way = (l.replace line? set way).2 := by
  cases line? with
  | none => rfl
  | some line => rw [settle, if_pos (hline line rfl)]

/-- A rotation down to the free place of a line `c`. No level has the line that is under way, which
belongs to the set of the place. -/
theorem Exclusive.rotate_into (h : Exclusive sets bits ls) (hm : ls[place.depth]? = some m)
    (hc : m.at? place.set place.way = some c)
    (hline : ∀ x, line? = some x → ¬Held ls x ∧ x % sets = place.set) :
    Exclusive sets bits (rotate line? (some place) ls) ∧
      ∀ x, Held (rotate line? (some place) ls) x ↔ line? = some x ∨ Held ls x ∧ x ≠ c := by
  obtain ⟨depth, set, way⟩ := place
  induction ls generalizing line? depth with
  | nil => cases hm
  | cons l rest ih =>
      obtain ⟨⟨htidy, hsets, -, hapart⟩, hrest⟩ := exclusive_cons.mp h
      have hset (x : Nat) : l.setOf x = x % sets := by rw [Level.setOf, hsets]
      simp only [held_cons, not_or] at hline
      cases depth with
      | zero =>
          obtain rfl : l = m := Option.some.inj hm
          have hothers (x : Nat) (hx : Held rest x) : x ≠ c := by
            rintro rfl
            exact hapart _ ⟨_, _, hc⟩ hx
          have hholds (x : Nat) : (l.replace line? set way).2.Holds x ↔
              line? = some x ∨ l.Holds x ∧ x ≠ c := by
            rw [htidy.holds_replace, hc, ne_eq, Option.some.injEq, eq_comm (a := c)]
          rw [rotate, settle_eq fun x hx => (hset x).trans (hline x hx).2]
          refine ⟨h.cons_of (sameShape_replace ..) (htidy.replace ?_ ?_) hrest fun x hx => ?_,
            fun x => ?_⟩
          · exact fun x hx => (hset x).trans (hline x hx).2
          · exact fun x hx w hw => absurd ⟨_, w, hw⟩ (hline x hx).1.1
          · rcases (hholds x).mp hx with hx | hx
            · exact (hline x hx).1.2
            · exact hapart x hx.1
          · rw [held_cons, held_cons, hholds]
            have := hothers x
            tauto
      | succ depth =>
          cases line? with
          | none =>
              have hnone : ∀ x, (none : Option Nat) = some x → ¬Held rest x ∧ x % sets = set := by
                intro x hx
                cases hx
              obtain ⟨hexclusive, hheld⟩ := ih hrest depth hm hc hnone
              refine ⟨h.cons_of (.refl l) htidy hexclusive fun x hx => ?_, fun x => ?_⟩
              · rw [hheld]
                rintro (hnone | hx')
                · cases hnone
                · exact hapart x hx hx'.1
              · have hfirst : l.Holds x → x ≠ c := by
                  rintro hx rfl
                  exact hapart x hx ⟨m, List.mem_of_getElem? hm, _, _, hc⟩
                rw [rotate, held_cons, held_cons, hheld]
                tauto
          | some line =>
              obtain ⟨⟨hl, hr⟩, hplace⟩ := hline line rfl
              obtain ⟨hfilled, hholds, hold⟩ := htidy.fill hl
              obtain ⟨hexclusive, hheld⟩ := ih hrest depth hm hc
                fun x (hx : (l.fill line).1 = some x) => ⟨hapart x (hold x hx).1, by
                  rw [← hset, (hold x hx).2, hset]
                  exact hplace⟩
              rw [rotate_into_cons]
              refine ⟨h.cons_of (sameShape_fill l line) hfilled hexclusive fun x hx => ?_,
                fun x => ?_⟩
              · rw [hheld]
                rcases (hholds x).mp hx with rfl | ⟨hx, hne⟩
                · rintro (hx' | hx')
                  · exact hl (hold x hx').1
                  · exact hr hx'.1
                · rintro (hx' | hx')
                  · exact hne hx'
                  · exact hapart x hx hx'.1
              · have hfirst : l.Holds x → x ≠ c := by
                  rintro hx rfl
                  exact hapart x hx ⟨m, List.mem_of_getElem? hm, _, _, hc⟩
                have hmoved := fun hx => (hold x hx).1
                rw [held_cons, held_cons, hheld, hholds, Option.some.injEq, eq_comm (a := line)]
                tauto

/-- A rotation with no free place. No level has the line that is under way; the last level may lose
one, and if there are no levels it is that line. -/
theorem Exclusive.rotate_down (h : Exclusive sets bits ls)
    (hline : ∀ x, line? = some x → ¬Held ls x) : Exclusive sets bits (rotate line? none ls) ∧
      ∃ lost : Option Nat,
        (∀ x, lost = some x → ls = [] ∧ line? = some x ∨ ∃ l ∈ ls.getLast?, l.Holds x) ∧
        ∀ x, Held (rotate line? none ls) x ↔ (line? = some x ∨ Held ls x) ∧ lost ≠ some x := by
  induction ls generalizing line? with
  | nil => exact ⟨.nil, line?, fun x hx => .inl ⟨rfl, hx⟩, fun x => by simp [rotate, Held]⟩
  | cons l rest ih =>
      obtain ⟨⟨htidy, -, -, hapart⟩, hrest⟩ := exclusive_cons.mp h
      match line? with
      | none =>
          rw [rotate_none]
          exact ⟨h, none, nofun, fun x => by simp⟩
      | some line =>
          obtain ⟨hl, hr⟩ := not_or.mp (held_cons.not.mp (hline line rfl))
          obtain ⟨hfilled, hholds, hold⟩ := htidy.fill hl
          obtain ⟨hexclusive, lost, hlost, hheld⟩ := ih hrest fun x hx => hapart x (hold x hx).1
          rw [rotate_cons]
          refine ⟨h.cons_of (sameShape_fill l line) hfilled hexclusive fun x hx => ?_,
            lost, fun x hx => .inr ?_, fun x => ?_⟩
          · rw [hheld]
            rintro ⟨hx' | hx', -⟩
            · rcases (hholds x).mp hx with rfl | ⟨-, hne⟩
              · exact hl (hold x hx').1
              · exact hne hx'
            · rcases (hholds x).mp hx with rfl | ⟨hx, -⟩
              · exact hr hx'
              · exact hapart x hx hx'
          · rw [List.getLast?_cons]
            rcases hlost x hx with ⟨rfl, hx⟩ | ⟨m, hm, hmx⟩
            · exact ⟨l, rfl, (hold x hx).1⟩
            · exact ⟨m, by rw [Option.mem_def.mp hm]; rfl, hmx⟩
          · -- what is lost is the line that gave way here, or one that was behind
            have hgone (hx : lost = some x) : (l.fill line).1 = some x ∨ Held rest x := by
              rcases hlost x hx with ⟨-, hx⟩ | ⟨m, hm, hmx⟩
              · exact .inl hx
              · exact .inr ⟨m, List.mem_of_getLast? hm, hmx⟩
            have hmoved := fun hx => (hold x hx).1
            have hbehind := hapart x
            have hfresh : x = line → ¬l.Holds x ∧ ¬Held rest x := by
              rintro rfl
              exact ⟨hl, hr⟩
            rw [held_cons, held_cons, hheld, hholds, Option.some.injEq, eq_comm (a := line)]
            tauto

theorem Exclusive.lineOf_eq (h : Exclusive sets bits ls) (hl : l ∈ ls) (a : Nat) :
    l.lineOf a = a / 2 ^ bits := by
  rw [lineOf, h.lineBits_eq l hl]

theorem Exclusive.hits_iff (h : Exclusive sets bits ls) (hl : l ∈ ls) :
    l.Hits a ↔ l.Holds (a / 2 ^ bits) := by
  rw [(h.tidy l hl).hits_iff, h.lineOf_eq hl]

/-- A line that no level has enters the first one. -/
theorem Exclusive.enter (h : Exclusive sets bits ls) (hne : ls ≠ []) (hline : ¬Held ls line) :
    Exclusive sets bits (rotate (some line) none ls) ∧ ∃ lost : Option Nat,
      (∀ x, lost = some x → ∃ l ∈ ls.getLast?, l.Holds x) ∧
      ∀ x, Held (rotate (some line) none ls) x ↔ x = line ∨ Held ls x ∧ lost ≠ some x := by
  obtain ⟨hexclusive, lost, hlost, hheld⟩ := h.rotate_down
    fun x (hx : some line = some x) => Option.some.inj hx ▸ hline
  have hlast (x : Nat) (hx : lost = some x) : ∃ l ∈ ls.getLast?, l.Holds x :=
    (hlost x hx).resolve_left fun hnil => hne hnil.1
  refine ⟨hexclusive, lost, hlast, fun x => ?_⟩
  have hkept : x = line → lost ≠ some x := by
    rintro rfl hx
    obtain ⟨l, hl, hlx⟩ := hlast _ hx
    exact hline ⟨l, List.mem_of_getLast? hl, hlx⟩
  rw [hheld, Option.some.injEq, eq_comm (a := line)]
  tauto

/-- A line that is found behind the first level moves up to it. -/
theorem Exclusive.move_up (h : Exclusive sets bits (l :: rest)) (hl : ¬l.Hits a)
    (hfound : find a rest = (some (line, place), rest')) :
    line = a / 2 ^ bits ∧
      Exclusive sets bits ((l.fill line).2 :: rotate (l.fill line).1 (some place) rest') ∧
      ∀ x, Held ((l.fill line).2 :: rotate (l.fill line).1 (some place) rest') x ↔
        Held (l :: rest) x := by
  obtain ⟨⟨htidy, hsets, -, hapart⟩, hrest⟩ := exclusive_cons.mp h
  obtain ⟨m, hm, hmline, hsearch, hm'⟩ := find_eq_some (congrArg Prod.fst hfound)
  have hmem := List.mem_of_getElem? hm
  have hline : line = a / 2 ^ bits := hmline.symm.trans (hrest.lineOf_eq hmem a)
  have hnew : ¬l.Holds line := by
    rwa [hline, ← h.hits_iff List.mem_cons_self]
  have hplace : m.setOf line = place.set := congrArg Prod.fst hsearch
  have hthere : m.at? place.set place.way = some line := by
    rw [← hplace]
    exact (hrest.tidy m hmem).search_eq_some_iff.mp (congrArg Prod.snd hsearch)
  have hbehind : Held rest line := ⟨m, hmem, _, _, hthere⟩
  have hmhits : m.Hits a := by
    rw [Hits, hmline, hsearch]
    rfl
  have hset (x : Nat) : m.setOf x = l.setOf x := by
    rw [Level.setOf, Level.setOf, hsets, hrest.setCount_eq m hmem]
  obtain ⟨hfilled, hholds, hold⟩ := htidy.fill hnew
  obtain ⟨hrest', hheld'⟩ := hrest.sameLines (sameLines_find a rest)
  rw [hfound] at hm' hrest' hheld'
  obtain ⟨hexclusive, hheld⟩ := hrest'.rotate_into hm'
    ((sameLines_refer hmhits).at?_eq.trans hthere) fun x (hx : (l.fill line).1 = some x) => by
      refine ⟨fun hx' => hapart x (hold x hx).1 ((hheld' x).mp hx'), ?_⟩
      rw [← hplace, hset, ← (hold x hx).2, Level.setOf, hsets]
  simp only [hheld'] at hheld
  refine ⟨hline, h.cons_of (sameShape_fill l line) hfilled hexclusive fun x hx => ?_, fun x => ?_⟩
  · rw [hheld]
    rintro (hx' | ⟨hx', hne⟩)
    · rcases (hholds x).mp hx with rfl | ⟨-, hgone⟩
      · exact hnew (hold _ hx').1
      · exact hgone hx'
    · rcases (hholds x).mp hx with rfl | ⟨hx, -⟩
      · exact hne rfl
      · exact hapart x hx hx'
  · have hmoved := fun hx => (hold x hx).1
    have hfresh : x = line → ¬l.Holds x ∧ Held rest x := by
      rintro rfl
      exact ⟨hnew, hbehind⟩
    rw [held_cons, held_cons, hheld, hholds]
    tauto

/-- What a reference does to victim levels that share their lines. -/
theorem Exclusive.lookUpVictims (h : Exclusive sets bits ls) (a : Nat) :
    let line := a / 2 ^ bits
    let hit := (lookUpVictims a ls).1
    let ls' := (lookUpVictims a ls).2
    Exclusive sets bits ls' ∧
      (∀ k, hit = some k → (∀ x, Held ls' x ↔ Held ls x) ∧ ∃ l ∈ ls'.head?, l.Holds line) ∧
      (hit = none → ls ≠ [] → ¬Held ls line ∧ ∃ lost : Option Nat,
        (∀ x, lost = some x → ∃ l ∈ ls.getLast?, l.Holds x) ∧
        ∀ x, Held ls' x ↔ x = line ∨ Held ls x ∧ lost ≠ some x) := by
  cases ls with
  | nil => exact ⟨.nil, nofun, fun _ hne => absurd rfl hne⟩
  | cons l rest =>
      have hmem : l ∈ l :: rest := List.mem_cons_self
      by_cases hl : l.Hits a
      · simp only [lookUpVictims_of_hits hl]
        have hsame : List.Forall₂ SameLines (l :: rest) (l.refer a :: rest) :=
          .cons (sameLines_refer hl) (List.forall₂_same.mpr fun m _ => SameLines.refl m)
        obtain ⟨hexclusive, hheld⟩ := h.sameLines hsame
        exact ⟨hexclusive, fun k _ =>
          ⟨hheld, _, rfl, (sameLines_refer hl).holds_iff.mpr ((h.hits_iff hmem).mp hl)⟩, nofun⟩
      · rcases hfound : find a rest with ⟨_ | ⟨line, place⟩, rest'⟩
        · have hnone : (find a rest).1 = none := congrArg Prod.fst hfound
          obtain rfl : rest = rest' :=
            (find_snd_of_none hnone).symm.trans (congrArg Prod.snd hfound)
          have hout : ¬Held (l :: rest) (a / 2 ^ bits) := by
            rintro ⟨m, hm, hx⟩
            have hm' := (h.hits_iff hm).mpr hx
            rcases List.mem_cons.mp hm with rfl | hm
            · exact hl hm'
            · exact find_eq_none_iff.mp hnone m hm hm'
          simp only [lookUpVictims_of_missing hl hfound, refer_of_none (not_hits_iff.mp hl),
            h.lineOf_eq hmem, ← rotate_cons]
          obtain ⟨hexclusive, hlost⟩ := h.enter (List.cons_ne_nil l rest) hout
          exact ⟨hexclusive, nofun, fun _ _ => ⟨hout, hlost⟩⟩
        · simp only [lookUpVictims_of_found hl hfound]
          obtain ⟨rfl, hexclusive, hheld⟩ := h.move_up hl hfound
          have hnew := (h.hits_iff hmem).not.mp hl
          refine ⟨hexclusive, fun k _ => ⟨hheld, _, rfl, ?_⟩, nofun⟩
          exact (((h.tidy l hmem).fill hnew).2.1 _).mpr (.inl rfl)

theorem Exclusive.foldl_lookUpVictims (h : Exclusive sets bits ls) (as : List Nat) :
    Exclusive sets bits (as.foldl (fun ls a => (Hierarchy.lookUpVictims a ls).2) ls) := by
  induction as generalizing ls with
  | nil => exact h
  | cons a as ih => exact ih (h.lookUpVictims a).1

theorem exists_forall_eq {f : Level → Nat} (h : ∀ u ∈ ls, ∀ v ∈ ls, f u = f v) :
    ∃ n, ∀ l ∈ ls, f l = n := by
  cases ls with
  | nil => exact ⟨0, List.forall_mem_nil _⟩
  | cons l rest => exact ⟨f l, fun m hm => h m hm l List.mem_cons_self⟩

/-- The victim levels of a hierarchy share the lines between them, at the beginning and after every
run. -/
theorem exists_exclusive {h : Hierarchy} (hh : h.Accepted) (hshares : h.SharesLineSize) :
    ∃ sets bits, (∀ l ∈ h.victims, l.lineBits = bits) ∧
      ∀ as, Exclusive sets bits (h.run as).victims := by
  obtain ⟨sets, hsets⟩ := exists_forall_eq hh.setCount_eq
  obtain ⟨size, hsize⟩ := exists_forall_eq hshares
  have hbits : ∀ u ∈ h.victims, ∀ v ∈ h.victims, u.lineBits = v.lineBits := fun u hu v hv => by
    rw [lineBits, lineBits, hsize u hu, hsize v hv]
  obtain ⟨bits, hbits⟩ := exists_forall_eq hbits
  have hfresh (l : Level) (hl : l ∈ h.victims) : l.Fresh := hh.fresh l (List.mem_append_right _ hl)
  have hstart : Exclusive sets bits h.victims := by
    refine ⟨fun l hl => (hfresh l hl).tidy, hsets, hbits, ?_⟩
    exact List.pairwise_iff_getElem.mpr fun i j hi hj _ x hx =>
      absurd hx ((hfresh _ (List.getElem_mem hi)).not_holds x)
  refine ⟨sets, bits, hbits, fun as => ?_⟩
  rw [victims_run]
  exact hstart.foldl_lookUpVictims _

/-- In a hierarchy that a description gives and whose victim levels have lines of one size, no line
is in two victim levels after a reference. If the line was in a victim level, it is in the first one
then, and the victim levels together have the same lines as before. If it was nowhere, they have it
besides those that they had, but for at most one, which was in the last level. -/
theorem victims_share_lines {h : Hierarchy} {text : List Char} {number : Nat}
    (hd : Description.ofLine text number = .ok (some h)) (hshares : h.SharesLineSize)
    (words : Nat → Random.WordStream) (as : List Nat) (a : Nat) :
    let s := (h.withWords words).run as
    let hit := (s.process a).1
    let s' := (s.process a).2
    (s'.victims.Pairwise fun l m => ∀ x, l.Holds x → ¬m.Holds x) ∧
    (∀ i, hit = some i → h.inclusive.length ≤ i →
      (∀ x, Held s'.victims x ↔ Held s.victims x) ∧ ∃ l ∈ s'.victims.head?, l.Holds (l.lineOf a)) ∧
    (hit = none → ∀ first ∈ h.victims.head?, ¬Held s.victims (first.lineOf a) ∧
      ∃ lost : Option Nat, (∀ x, lost = some x → ∃ l ∈ s.victims.getLast?, l.Holds x) ∧
        ∀ x, Held s'.victims x ↔ x = first.lineOf a ∨ Held s.victims x ∧ lost ≠ some x) := by
  intro s hit s'
  obtain ⟨sets, bits, hbits, hrun⟩ := exists_exclusive (h := h.withWords words)
    ((Description.accepted_of_ofLine hd).withWords words)
    (List.forall_mem_map.mpr fun u hu => List.forall_mem_map.mpr (hshares u hu))
  have hlength : s.inclusive.length = h.inclusive.length :=
    (length_inclusive_run _ as).trans (List.length_map _)
  have hafter : Exclusive sets bits (s.process a).2.victims := by
    rw [← run_concat]
    exact hrun _
  obtain ⟨-, hhit, hmiss⟩ := (hrun as).lookUpVictims a
  have hout (hreach : Reaches s.inclusive.length hit) :
      hit = (Hierarchy.lookUpVictims a s.victims).1.map (· + s.inclusive.length) ∧
        s'.victims = (Hierarchy.lookUpVictims a s.victims).2 :=
    process_of_none ((reaches_length_iff s a).mp hreach)
  refine ⟨hafter.apart, fun i hi hle => ?_, fun hnone first hfirst => ?_⟩
  · obtain ⟨heq, hvictims⟩ := hout fun j hj => by
      rw [hlength, ← Option.some.inj (hi.symm.trans hj)]
      exact hle
    obtain ⟨k, hk, -⟩ := Option.map_eq_some_iff.mp (heq.symm.trans hi)
    obtain ⟨hheld, l, hl, hholds⟩ := hhit k hk
    rw [← hvictims] at hheld hl
    refine ⟨hheld, l, hl, ?_⟩
    rwa [hafter.lineOf_eq (List.mem_of_head? hl)]
  · obtain ⟨heq, hvictims⟩ := hout fun j hj =>
      (Option.some_ne_none j (hj.symm.trans hnone)).elim
    have hline : first.lineOf a = a / 2 ^ bits :=
      congrArg (a / 2 ^ ·) (hbits (first.withWords (words first.number))
        (List.mem_map_of_mem (List.mem_of_head? hfirst)))
    have hne : s.victims ≠ [] := by
      rw [← List.length_pos_iff, length_victims_run, withWords, List.length_map]
      exact List.length_pos_of_mem (List.mem_of_head? hfirst)
    rw [hvictims, hline]
    exact hmiss (Option.map_eq_none_iff.mp (heq.symm.trans hnone)) hne

/-- A line moves up from the last victim level. -/
theorem victims_share_lines_fourLevels :
    let s := (Description.fourLevels.withWords fun number => Level.seeded number 0).run
      [0, 64, 128, 64, 192]
    (s.process 128).1 = some 3 ∧
      ((s.process 128).2.victims.Pairwise fun l m => ∀ x, l.Holds x → ¬m.Holds x) ∧
      (∀ x, Held (s.process 128).2.victims x ↔ Held s.victims x) ∧
      ∃ l ∈ (s.process 128).2.victims.head?, l.Holds (l.lineOf 128) := by
  intro s
  have hhit : (s.process 128).1 = some 3 := by decide +kernel
  obtain ⟨hapart, hmoved, -⟩ := victims_share_lines Description.ofLine_fourLevels
    (by decide +kernel) _ [0, 64, 128, 64, 192] 128
  exact ⟨hhit, hapart, hmoved 3 hhit (by decide +kernel)⟩

end Hierarchy

end BinTrace.Cache
