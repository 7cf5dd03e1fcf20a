import BinTrace.Proofs.Cache.Exclusion
import BinTrace.Proofs.Cache.Ring

/-!
The parts of a level agree after every run. The lines, the index and the ring of a set are changed
by different steps: a line that is found only moves its way in the ring, a line that is put in also
takes another one out, and a rotation may leave a way empty or give it a new line after it was used.
What keeps the parts together is that a line is put only where it is not yet, for which victim
levels have to share their lines, and that all steps keep to the sets and ways that there are.
-/

namespace BinTrace

/-- Whatever the words are, a number that is drawn is below the bound. -/
theorem Random.WordStream.drawWithin_lt {n : Nat} (hn : 0 < n) (attempts : Nat)
    (s : Random.WordStream) : (s.drawWithin n attempts).1 < n := by
  induction attempts generalizing s with
  | zero => exact hn
  | succ attempts ih =>
      rw [drawWithin]
      dsimp only
      split
      · refine Nat.div_lt_of_lt_mul ?_
        exact Nat.mul_lt_mul_of_pos_right (s.word s.position).toNat_lt hn
      · exact ih _

namespace Cache

namespace LineSet

open KeyMap

variable {s : LineSet} {ways way : Nat}

/-- A set remembers nothing of ways that it does not have. -/
structure Within (s : LineSet) (ways : Nat) : Prop where
  lines_lt : ∀ {way line}, s.lines.get? way = some line → way < ways
  index_lt : ∀ {line way}, s.index.get? line = some way → way < ways
  recent_lt : s.recent < ways
  links_lt : ∀ {way l}, s.links.get? way = some l → way < ways ∧ l.prev < ways ∧ l.next < ways

theorem within_empty (hways : 0 < ways) : empty.Within ways :=
  ⟨nofun, nofun, hways, nofun⟩

/-- The links of a way lead to ways, also those that have not been changed. -/
theorem Within.link_lt (h : s.Within ways) (way : Nat) :
    (s.link ways way).prev < ways ∧ (s.link ways way).next < ways := by
  have hways : 0 < ways := Nat.zero_lt_of_lt h.recent_lt
  rw [link]
  cases hget : s.links.get? way with
  | some l => exact (h.links_lt hget).2
  | none => exact ⟨Nat.mod_lt _ hways, Nat.mod_lt _ hways⟩

theorem Within.setLink (h : s.Within ways) {l : Link} (hway : way < ways) (hprev : l.prev < ways)
    (hnext : l.next < ways) : (s.setLink way l).Within ways := by
  refine ⟨h.lines_lt, h.index_lt, h.recent_lt, fun {w k} hk => ?_⟩
  rw [LineSet.setLink, get?_insert] at hk
  split at hk
  · rename_i hw
    rw [hw, ← Option.some.inj hk]
    exact ⟨hway, hprev, hnext⟩
  · exact h.links_lt hk

theorem Within.setPrev (h : s.Within ways) {prev : Nat} (hway : way < ways) (hprev : prev < ways) :
    (s.setPrev ways way prev).Within ways :=
  h.setLink hway hprev (h.link_lt way).2

theorem Within.setNext (h : s.Within ways) {next : Nat} (hway : way < ways) (hnext : next < ways) :
    (s.setNext ways way next).Within ways :=
  h.setLink hway (h.link_lt way).1 hnext

theorem Within.moveToEnd (h : s.Within ways) (hway : way < ways) :
    (s.moveToEnd ways way).Within ways := by
  obtain ⟨hprev, hnext⟩ := h.link_lt way
  rw [LineSet.moveToEnd]
  dsimp only
  split
  · exact ⟨h.lines_lt, h.index_lt, hnext, h.links_lt⟩
  · have hout := (h.setPrev hnext hprev).setNext hprev hnext
    have hlast := (hout.link_lt s.recent).1
    have hput := hout.setLink (l := ⟨_, s.recent⟩) hway hlast h.recent_lt
    exact (hput.setPrev h.recent_lt hway).setNext hlast hway

theorem Within.markUsed (h : s.Within ways) (policy : Policy) (hway : way < ways) :
    (s.markUsed policy ways way).Within ways := by
  cases policy with
  | leastRecent => exact h.moveToEnd hway
  | afterMostRecent => exact ⟨h.lines_lt, h.index_lt, hway, h.links_lt⟩
  | random => exact h
  | first => exact h

theorem Within.store (h : s.Within ways) (isIndexed : Bool) (line? : Option Nat)
    (hway : way < ways) : (s.store isIndexed line? way).2.Within ways := by
  obtain ⟨hrecent, hlinks⟩ := recency_store s isIndexed line? way
  refine ⟨fun {w x} hx => ?_, fun {x w} hw => ?_, hrecent ▸ h.recent_lt, hlinks ▸ h.links_lt⟩
  · rw [get?_store] at hx
    split at hx
    · rename_i hw
      exact hw ▸ hway
    · exact h.lines_lt hx
  · cases isIndexed with
    | false => exact h.index_lt hw
    | true =>
        rw [get?_index_store] at hw
        split at hw
        · exact Option.some.inj hw ▸ hway
        · split at hw
          · cases hw
          · exact h.index_lt hw

theorem Within.find?_lt (h : s.Within ways) {isIndexed : Bool} {line : Nat}
    (hfind : s.find? isIndexed line = some way) : way < ways := by
  cases isIndexed with
  | true => exact h.index_lt hfind
  | false => exact h.lines_lt (scan?_eq_some hfind)

/-- Using a way keeps the ring, and changes it only where there is one to keep. -/
theorem Ring.markUsed {order : List Nat} {policy : Policy} (h : s.Ring ways order)
    (hpolicy : policy = .leastRecent) (hway : way < ways) :
    ∃ order, (s.markUsed policy ways way).Ring ways order := by
  subst hpolicy
  exact ⟨_, h.moveToEnd (h.perm.mem_iff.mpr (List.mem_range.mpr hway))⟩

end LineSet

namespace Level

open LineSet

variable {l : Level} {set way : Nat}

theorem setOf_lt (l : Level) (line : Nat) : l.setOf line < l.setCount :=
  Nat.mod_lt _ (Nat.lt_of_lt_of_le Nat.one_pos (Nat.le_max_left ..))

/-- A level keeps to its sets and ways, and the sets have the rings that the policy asks for. -/
structure Regular (l : Level) : Prop where
  sets_lt : ∀ {set s}, l.sets.get? set = some s → set < l.setCount
  within : ∀ set, (l.lineSet set).Within l.ways
  ring : l.policy = .leastRecent → ∀ set, ∃ order, (l.lineSet set).Ring l.ways order

theorem Fresh.regular (h : l.Fresh) : l.Regular := by
  refine ⟨fun {set s} hs => ?_, fun set => ?_, fun _ set => ?_⟩
  · rw [h.sets_eq, KeyMap.get?_empty] at hs
    cases hs
  · rw [h.lineSet_eq]
    exact within_empty h.ways_pos
  · rw [h.lineSet_eq]
    exact ⟨_, ring_empty h.ways_pos⟩

theorem Regular.modifySet (h : l.Regular) {s : LineSet} (hset : set < l.setCount)
    (hwithin : s.Within l.ways)
    (hring : l.policy = .leastRecent → ∃ order, s.Ring l.ways order) :
    (l.modifySet set s).Regular := by
  refine ⟨fun {k t} ht => ?_, fun k => ?_, fun hpolicy k => ?_⟩
  · rw [Level.modifySet, KeyMap.get?_insert] at ht
    split at ht
    · rename_i hk
      exact hk ▸ hset
    · exact h.sets_lt ht
  · rw [lineSet_modifySet]
    split
    · exact hwithin
    · exact h.within k
  · rw [lineSet_modifySet]
    split
    · exact hring hpolicy
    · exact h.ring hpolicy k

theorem Regular.markUsed (h : l.Regular) (hset : set < l.setCount) (hway : way < l.ways) :
    (l.markUsed set way).Regular := by
  refine h.modifySet hset ((h.within set).markUsed l.policy hway) fun hpolicy => ?_
  obtain ⟨order, hring⟩ := h.ring hpolicy set
  exact hring.markUsed hpolicy hway

theorem Regular.replace (h : l.Regular) (line? : Option Nat) (hset : set < l.setCount)
    (hway : way < l.ways) : (l.replace line? set way).2.Regular := by
  obtain ⟨hrecent, hlinks⟩ := recency_store (l.lineSet set) l.isIndexed line? way
  have hstored := (h.within set).store l.isIndexed line? hway
  have hring (hpolicy : l.policy = .leastRecent) : ∃ order,
      ((l.lineSet set).store l.isIndexed line? way).2.Ring l.ways order := by
    obtain ⟨order, hring⟩ := h.ring hpolicy set
    exact ⟨order, hring.of_eq hrecent hlinks⟩
  rw [Level.replace]
  dsimp only
  split
  · refine h.modifySet hset (hstored.markUsed l.policy hway) fun hpolicy => ?_
    obtain ⟨order, hring⟩ := hring hpolicy
    exact hring.markUsed hpolicy hway
  · exact h.modifySet hset hstored hring

/-- The policy chooses a way that there is. -/
theorem Regular.victimWay_lt (h : l.Regular) (set : Nat) : (l.victimWay set).1 < l.ways := by
  have hways : 0 < l.ways := Nat.zero_lt_of_lt (h.within set).recent_lt
  rw [victimWay]
  cases l.policy with
  | leastRecent => exact (h.within set).recent_lt
  | afterMostRecent => exact Nat.mod_lt _ hways
  | random => exact Random.WordStream.drawWithin_lt hways _ _
  | first => exact hways

theorem Regular.fill (h : l.Regular) (line : Nat) : (l.fill line).2.Regular := by
  have hway := h.victimWay_lt (l.setOf line)
  obtain ⟨words, hwords⟩ := victimWay_snd l (l.setOf line)
  have hkept : (l.withWords words).Regular := ⟨h.sets_lt, h.within, h.ring⟩
  rw [← hwords] at hkept
  exact hkept.replace _ (hwords ▸ setOf_lt l line) (hwords ▸ hway)

theorem Regular.way_lt (h : l.Regular) (hfound : (l.search line).2 = some way) : way < l.ways :=
  (h.within (l.setOf line)).find?_lt hfound

theorem preserved_regular : Preserved (fun _ => True) Regular where
  of_search _ _ := trivial
  markUsed h hfound := h.markUsed (setOf_lt ..) (h.way_lt hfound)
  fill h _ := ⟨h.fill _, fun _ _ => trivial⟩
  replace h hfound _ := h.replace _ (setOf_lt ..) (h.way_lt hfound)

theorem Tidy.refer (h : l.Tidy) (a : Nat) : (l.refer a).Tidy := by
  cases hsearch : (l.search (l.lineOf a)).2 with
  | some way =>
      rw [refer_of_some hsearch]
      exact (sameLines_markUsed ..).tidy h
  | none =>
      rw [refer_of_none hsearch]
      exact (h.fill (h.search_eq_none_iff.mp hsearch)).1

theorem Tidy.foldl_refer (h : l.Tidy) (as : List Nat) : (as.foldl Level.refer l).Tidy := by
  induction as generalizing l with
  | nil => exact h
  | cons a as ih => exact ih (h.refer a)

/-- The ways of all sets together are no more than the bytes of the level. -/
theorem Fits.setCount_mul_ways_lt (h : l.Fits) (hl : l.Fresh) :
    l.setCount * l.ways < 2 ^ 32 := by
  have hlineSize : 0 < l.lineSize := by
    obtain ⟨k, -, hk⟩ := hl.lineSize_eq
    exact hk ▸ Nat.two_pow_pos k
  have hpos : 0 < l.lineSize * l.ways := Nat.mul_pos hlineSize hl.ways_pos
  have hcount : l.setCount = l.size / (l.lineSize * l.ways) :=
    Nat.max_eq_right ((Nat.one_le_div_iff hpos).mpr h.room)
  calc l.setCount * l.ways
      ≤ l.setCount * (l.lineSize * l.ways) :=
        Nat.mul_le_mul_left _ (Nat.le_mul_of_pos_left _ hlineSize)
    _ ≤ l.size := hcount ▸ Nat.div_mul_le_self ..
    _ < 2 ^ 32 := h.size_lt

/-- The first way of a set, in the order of their numbers, that has a line. -/
def firstWith? (l : Level) (set line : Nat) : Option Nat :=
  (List.range l.ways).find? fun way => l.at? set way = some line

/-- What the parts of a level say agrees, and none of them names a set or a way that there is not.
All ways of all sets are told apart by numbers of 32 bits, and these suffice as well to link the
ways at the start. -/
structure Sound (l : Level) : Prop where
  /-- A line is in its set. -/
  placed : ∀ {set way line}, l.at? set way = some line → set = l.setOf line
  /-- It is in one way only. -/
  unique : ∀ {set v w line}, l.at? set v = some line → l.at? set w = some line → v = w
  /-- The index of a set has the lines of the set, with their ways, and no others. -/
  index_iff : l.isIndexed → ∀ set line way,
    (l.lineSet set).index.get? line = some way ↔ l.at? set way = some line
  /-- Looking a line up comes to what going through the ways comes to. -/
  search_eq : ∀ line, l.search line = (l.setOf line, l.firstWith? (l.setOf line) line)
  /-- Links that lead forwards lead back again. -/
  inverse : l.policy = .leastRecent → ∀ set, ∀ way < l.ways,
    let link := (l.lineSet set).link l.ways
    (link (link way).next).prev = way ∧ (link (link way).prev).next = way
  /-- They are one cycle through all ways. -/
  cycle : l.policy = .leastRecent → ∀ set, ∀ v < l.ways, ∀ w < l.ways,
    ∃ n < l.ways, (fun way => ((l.lineSet set).link l.ways way).next)^[n] v = w
  setOf_lt : ∀ line, l.setOf line < l.setCount
  sets_lt : ∀ {set s}, l.sets.get? set = some s → set < l.setCount
  within : ∀ set, (l.lineSet set).Within l.ways
  link_lt : ∀ set way,
    let link := (l.lineSet set).link l.ways way
    link.prev < l.ways ∧ link.next < l.ways
  victimWay_lt : ∀ set, (l.victimWay set).1 < l.ways
  slots_lt : l.setCount * l.ways < 2 ^ 32
  double_ways_le : l.ways + l.ways ≤ 2 ^ 32

/-- A level that keeps to its ways is found to have a line exactly where going through the ways
comes to it. -/
theorem Tidy.search_eq_firstWith? (h : l.Tidy) (hl : l.Regular) (line : Nat) :
    l.search line = (l.setOf line, l.firstWith? (l.setOf line) line) := by
  refine search_of_snd ?_
  rw [firstWith?]
  cases hfind : (List.range l.ways).find? fun way => l.at? (l.setOf line) way = some line with
  | some way => exact h.search_eq_some_iff.mpr (by simpa using List.find?_some hfind)
  | none =>
      rw [h.search_eq_none_iff]
      rintro ⟨set, way, hway⟩
      obtain rfl := h.placed hway
      have hlt := (hl.within _).lines_lt hway
      exact List.find?_eq_none.mp hfind way (List.mem_range.mpr hlt) (by simpa using hway)

theorem Tidy.sound (h : l.Tidy) (hl : l.Regular) (hslots : l.setCount * l.ways < 2 ^ 32)
    (hways : l.ways < 2 ^ 31) : l.Sound where
  placed hline := (h.placed hline).symm
  unique hv hw := (h.consistent _).unique hv hw
  index_iff hindexed set _ _ :=
    ⟨(h.consistent set).faithful hindexed _ _, (h.consistent set).indexed hindexed⟩
  search_eq := h.search_eq_firstWith? hl
  inverse hpolicy set _ hway := by
    obtain ⟨order, hring⟩ := hl.ring hpolicy set
    exact hring.inverse hway
  cycle hpolicy set _ hv _ hw := by
    obtain ⟨order, hring⟩ := hl.ring hpolicy set
    exact hring.exists_iterate_next hv hw
  setOf_lt := Level.setOf_lt l
  sets_lt := hl.sets_lt
  within := hl.within
  link_lt set way := (hl.within set).link_lt way
  victimWay_lt := hl.victimWay_lt
  slots_lt := hslots
  double_ways_le := by omega

end Level

namespace Hierarchy

open Level

variable {h : Hierarchy} {l : Level}

/-- Every level after a run comes from one at its beginning. -/
theorem exists_becomes_of_run {Q : Level → Prop} (hQ : Preserved (fun _ => True) Q)
    (hlevels : ∀ l ∈ h.levels, Q l) (as : List Nat) :
    ∀ l ∈ (h.run as).levels, ∃ start ∈ h.levels, start.Becomes Q l := by
  intro l hl
  rcases List.mem_append.mp hl with hl | hl
  · obtain ⟨start, hstart, bs, rfl⟩ := exists_foldl_refer_of_run hl
    replace hstart := List.mem_append_left h.victims hstart
    exact ⟨start, hstart, sameShape_foldl_refer _ _,
      hQ.foldl_refer (hlevels _ hstart) fun _ _ => trivial⟩
  · have hvictims : List.Forall₂ (Becomes Q) h.victims (h.run as).victims := by
      rw [victims_run]
      exact becomes_foldl_lookUpVictims hQ
        (fun l hl => hlevels l (List.mem_append_right _ hl)) fun _ _ _ _ => trivial
    obtain ⟨i, hi⟩ := List.getElem?_of_mem hl
    obtain ⟨start, hstart, hbecomes⟩ := exists_getElem?_of_forall₂ hvictims hi
    exact ⟨start, List.mem_append_right _ (List.mem_of_getElem? hstart), hbecomes⟩

/-- Every line is in one way of its set, and found there, in every level after a run. -/
theorem tidy_run (hh : h.Accepted) (hshares : h.SharesLineSize) (as : List Nat) :
    ∀ l ∈ (h.run as).levels, l.Tidy := by
  intro l hl
  rcases List.mem_append.mp hl with hl | hl
  · obtain ⟨start, hstart, bs, rfl⟩ := exists_foldl_refer_of_run hl
    exact (hh.fresh start (List.mem_append_left _ hstart)).tidy.foldl_refer bs
  · obtain ⟨sets, bits, -, hrun⟩ := exists_exclusive hh hshares
    exact (hrun as).tidy l hl

/-- In a hierarchy that a description gives, whose sets have less than `2 ^ 31` ways and whose
victim levels have lines of one size, every level is sound after every run. -/
theorem sound_run {text : List Char} {number : Nat}
    (hd : Description.ofLine text number = .ok (some h)) (hways : ∀ l ∈ h.levels, l.ways < 2 ^ 31)
    (hshares : h.SharesLineSize) (words : Nat → Random.WordStream) (as : List Nat) :
    ∀ l ∈ ((h.withWords words).run as).levels, l.Sound := by
  intro l hl
  have hh := (Description.accepted_of_ofLine hd).withWords words
  have hshares' : (h.withWords words).SharesLineSize :=
    List.forall_mem_map.mpr fun u hu => List.forall_mem_map.mpr (hshares u hu)
  obtain ⟨start, hstart, hshape, hregular⟩ := exists_becomes_of_run preserved_regular
    (fun l hl => (hh.fresh l hl).regular) as l hl
  rw [levels_withWords] at hstart
  obtain ⟨first, hfirst, rfl⟩ := List.mem_map.mp hstart
  replace hshape := (sameShape_withWords first _).trans hshape
  have hslots := (Description.fits_of_ofLine hd first hfirst).setCount_mul_ways_lt
    ((Description.accepted_of_ofLine hd).fresh first hfirst)
  refine (tidy_run hh hshares' as l hl).sound hregular ?_ ?_
  · rwa [hshape.setCount_eq, hshape.ways_eq]
  · exact hshape.ways_eq ▸ hways first hfirst

/-- Lines have moved between two victim levels, and one was used twice in a set of two ways. -/
theorem sound_run_fourLevels :
    let s := (Description.fourLevels.withWords fun number => Level.seeded number 0).run
      [0, 64, 128, 64, 192]
    ∀ l ∈ s.levels, l.Sound :=
  sound_run Description.ofLine_fourLevels (by decide +kernel) (by decide +kernel) _
    [0, 64, 128, 64, 192]

end Hierarchy

end Cache

end BinTrace
