import Mathlib.Data.List.TakeDrop
import Mathlib.Data.Nat.Bitwise
import BinTrace.Cache.Description
import BinTrace.Proofs.Outcome

/-!
What a description that is accepted promises of its hierarchy: there are levels, they are empty,
their lines have a size that is a power of two, and victim levels have the same number of sets.
-/

namespace BinTrace.Cache

open Outcome

/-- An empty level whose geometry makes sense. -/
structure Level.Fresh (l : Level) : Prop where
  sets_eq : l.sets = .empty
  ways_pos : 0 < l.ways
  lineSize_eq : ∃ k < 32, l.lineSize = 2 ^ k

/-- A level with room for one set at least, and no more than a number of 32 bits can tell. -/
structure Level.Fits (l : Level) : Prop where
  size_lt : l.size < 2 ^ 32
  room : l.lineSize * l.ways ≤ l.size

/-- A hierarchy as a description gives it. -/
structure Hierarchy.Accepted (h : Hierarchy) : Prop where
  levels_ne : h.levels ≠ []
  fresh : ∀ l ∈ h.levels, l.Fresh
  setCount_eq : ∀ u ∈ h.victims, ∀ v ∈ h.victims, u.setCount = v.setCount

/-- The victim levels have lines of one size. -/
def Hierarchy.SharesLineSize (h : Hierarchy) : Prop :=
  ∀ u ∈ h.victims, ∀ v ∈ h.victims, u.lineSize = v.lineSize

instance (h : Hierarchy) : Decidable h.SharesLineSize :=
  inferInstanceAs (Decidable (∀ u ∈ h.victims, ∀ v ∈ h.victims, u.lineSize = v.lineSize))

namespace Description

variable {word a b c d text : List Char} {least n size ways lineSize number : Nat} {victim : Bool}
  {ws : List (List Char)} {policy : Policy} {ls : List Level} {h : Hierarchy}

theorem size?_eq_some (hsize : size? least word = some n) : least ≤ n ∧ n < 2 ^ 32 := by
  unfold size? at hsize
  simpa using (Option.filter_eq_some_iff.mp hsize).2

theorem require_ok {α : Type} {fault : String → LineFault} {read : List Char → Option α} {a : α}
    (hread : require fault read word = .ok a) : read word = some a := by
  unfold require at hread
  split at hread
  · rename_i hsome
    rw [hsome, Except.ok.inj hread]
  · cases hread

/-- What is checked of the numbers of a level. -/
theorem fresh_new {kind : Kind} (hways : 1 ≤ ways) (hlineSize : 1 ≤ lineSize ∧ lineSize < 2 ^ 32)
    (hpower : isPowerOfTwo lineSize) : (Level.new number size ways lineSize policy kind).Fresh := by
  refine ⟨rfl, ?_, lineSize.log2, ?_, ?_⟩
  · exact Nat.lt_of_lt_of_le hways (Nat.le_max_right 1 ways)
  · exact (Nat.log2_lt (by omega)).mpr hlineSize.2
  · exact (Nat.max_eq_right hlineSize.1).trans (of_decide_eq_true hpower)

theorem fits_new {kind : Kind} (hways : 1 ≤ ways) (hlineSize : 1 ≤ lineSize)
    (hsize : size < 2 ^ 32) (hroom : lineSize * ways ≤ size) :
    (Level.new number size ways lineSize policy kind).Fits := by
  refine ⟨hsize, ?_⟩
  show max 1 lineSize * max 1 ways ≤ size
  rwa [Nat.max_eq_right hlineSize, Nat.max_eq_right hways]

theorem fresh_of_levels (hlevels : levels number victim ws = .ok ls) :
    ∀ l ∈ ls, l.Fresh ∧ l.Fits := by
  fun_induction levels number victim ws generalizing ls with
  | case1 number victim size ways lineSize name rest ih =>
      obtain ⟨bytes, hbytes, hlevels⟩ := bind_eq_ok.mp hlevels
      obtain ⟨count, hcount, hlevels⟩ := bind_eq_ok.mp hlevels
      obtain ⟨line, hline, hlevels⟩ := bind_eq_ok.mp hlevels
      obtain ⟨policy, -, hlevels⟩ := bind_eq_ok.mp hlevels
      obtain ⟨hpower, hlevels⟩ := guard_eq_ok.mp hlevels
      obtain ⟨hroom, hlevels⟩ := guard_eq_ok.mp hlevels
      obtain ⟨others, hothers, hlevels⟩ := bind_eq_ok.mp hlevels
      cases hlevels
      have hcount := size?_eq_some (require_ok hcount)
      have hline := size?_eq_some (require_ok hline)
      refine List.forall_mem_cons.mpr ⟨⟨fresh_new hcount.1 hline ?_, ?_⟩, ih hothers⟩
      · simpa using hpower
      · exact fits_new hcount.1 hline.1 (size?_eq_some (require_ok hbytes)).2 (by simpa using hroom)
  | case2 =>
      cases hlevels
      exact List.forall_mem_nil _

theorem levels_new (sysid : Nat) (ls : List Level) : (Hierarchy.new sysid ls).levels = ls := by
  rw [Hierarchy.levels, Hierarchy.new, List.span_eq_takeWhile_dropWhile]
  exact List.takeWhile_append_dropWhile

/-- A hierarchy is made of the levels that its words describe. -/
theorem exists_new_of_hierarchy (hh : hierarchy ws = .ok h) : ∃ sysid ls,
    (∀ l ∈ ls, l.Fresh ∧ l.Fits) ∧ h = .new sysid ls := by
  unfold hierarchy at hh
  split at hh
  · obtain ⟨sysid, -, hh⟩ := bind_eq_ok.mp hh
    obtain ⟨count, -, hh⟩ := bind_eq_ok.mp hh
    obtain ⟨-, hh⟩ := guard_eq_ok.mp hh
    obtain ⟨ls, hls, hh⟩ := bind_eq_ok.mp hh
    cases hh
    exact ⟨sysid, ls, fresh_of_levels hls, rfl⟩
  · cases hh

theorem fresh_of_hierarchy (hh : hierarchy ws = .ok h) : ∀ l ∈ h.levels, l.Fresh ∧ l.Fits := by
  obtain ⟨sysid, ls, hfresh, rfl⟩ := exists_new_of_hierarchy hh
  rwa [levels_new]

/-- Victim levels are compared with the first of them. -/
theorem setCount_eq_of_faults (hh : h.faults = []) :
    h.levels ≠ [] ∧ ∀ v ∈ h.victims, v.setCount = (h.victims.head?.map Level.setCount).getD 0 := by
  obtain ⟨hlevels, hvictims⟩ := List.append_eq_nil_iff.mp hh
  refine ⟨fun hnil => ?_, fun v hv => ?_⟩
  · rw [hnil] at hlevels
    cases hlevels
  · have hv := List.flatMap_eq_nil_iff.mp hvictims v hv
    by_contra hne
    rw [Hierarchy.levelFaults, if_pos hne] at hv
    simp at hv

theorem hierarchy_of_ofLine {line : List Char} (hh : ofLine line number = .ok (some h)) :
    (∃ ws, hierarchy ws = .ok h) ∧ h.faults = [] := by
  unfold ofLine at hh
  split at hh
  · cases hh
  · split at hh
    · cases hh
    · rename_i hdescribed
      split at hh
      · rename_i hfaults
        cases hh
        exact ⟨⟨_, hdescribed⟩, hfaults⟩
      · cases hh

/-- What an accepted description promises. -/
theorem accepted_of_ofLine {line : List Char} (hh : ofLine line number = .ok (some h)) :
    h.Accepted := by
  obtain ⟨⟨ws, hdescribed⟩, hfaults⟩ := hierarchy_of_ofLine hh
  obtain ⟨hne, hsets⟩ := setCount_eq_of_faults hfaults
  exact ⟨hne, fun l hl => (fresh_of_hierarchy hdescribed l hl).1,
    fun u hu v hv => (hsets u hu).trans (hsets v hv).symm⟩

theorem fits_of_ofLine {line : List Char} (hh : ofLine line number = .ok (some h)) :
    ∀ l ∈ h.levels, l.Fits := by
  obtain ⟨⟨ws, hdescribed⟩, -⟩ := hierarchy_of_ofLine hh
  exact fun l hl => (fresh_of_hierarchy hdescribed l hl).2

/-- The words of a level describe it. -/
theorem levels_cons (number : Nat) (victim : Bool) (hsize : size? 1 a = some size)
    (hways : size? 1 b = some ways) (hline : size? 1 c = some lineSize)
    (hpolicy : Policy.ofName d = .ok policy) (hpower : isPowerOfTwo lineSize)
    (hroom : lineSize * ways ≤ size)
    (hrest : levels (number + 1) (victim || Policy.marksVictim d) ws = .ok ls) :
    levels number victim (a :: b :: c :: d :: ws) = .ok (Level.new number size ways lineSize policy
      (if victim || Policy.marksVictim d then .victim else .inclusive) :: ls) := by
  simp [levels, require, hsize, hways, hline, hpolicy, hpower, hrest, Nat.not_lt.mpr hroom,
    Except.mapError, bind, Except.bind, pure, Except.pure]

theorem levels_nil : levels number victim [] = .ok [] := by
  simp [levels]

theorem hierarchy_cons {sysid count : Nat} (hsysid : size? 0 a = some sysid)
    (hcount : size? 1 b = some count) (hwords : ws.length + 2 = wordsFor count)
    (hls : levels 0 false ws = .ok ls) : hierarchy (a :: b :: ws) = .ok (.new sysid ls) := by
  simp [hierarchy, require, hsysid, hcount, hwords, hls, bind, Except.bind, pure, Except.pure]

theorem ofLine_of_words (hwords : Text.words (text.takeWhile (· ≠ '#')) = ws) (hne : ws ≠ [])
    (hh : hierarchy ws = .ok h) (hfaults : h.faults = []) : ofLine text number = .ok (some h) := by
  unfold ofLine
  rw [hwords]
  split
  · contradiction
  · rw [hh]
    dsimp only
    rw [hfaults]

/-- A hierarchy with levels of both kinds. -/
def fourLevelsLine : List Char :=
  "0 4 64 1 64 dir 128 2 64 trulru 64 1 64 dir_vc 64 1 64 trulru_vc".toList

def fourLevels : Hierarchy :=
  .new 0 [.new 0 64 1 64 .first .inclusive, .new 1 128 2 64 .leastRecent .inclusive,
    .new 2 64 1 64 .first .victim, .new 3 64 1 64 .leastRecent .victim]

theorem ofLine_fourLevels : ofLine fourLevelsLine 1 = .ok (some fourLevels) := by
  have hwords : Text.words (fourLevelsLine.takeWhile (· ≠ '#')) =
      ["0", "4", "64", "1", "64", "dir", "128", "2", "64", "trulru", "64", "1", "64", "dir_vc",
        "64", "1", "64", "trulru_vc"].map String.toList := by decide +kernel
  have h0 : size? 0 "0".toList = some 0 := by decide +kernel
  have h1 : size? 1 "1".toList = some 1 := by decide +kernel
  have h2 : size? 1 "2".toList = some 2 := by decide +kernel
  have h4 : size? 1 "4".toList = some 4 := by decide +kernel
  have h64 : size? 1 "64".toList = some 64 := by decide +kernel
  have h128 : size? 1 "128".toList = some 128 := by decide +kernel
  have hfirst : Policy.ofName "dir".toList = .ok .first := by decide +kernel
  have hrecent : Policy.ofName "trulru".toList = .ok .leastRecent := by decide +kernel
  have hfirst' : Policy.ofName "dir_vc".toList = .ok .first := by decide +kernel
  have hrecent' : Policy.ofName "trulru_vc".toList = .ok .leastRecent := by decide +kernel
  have hlevels := levels_cons 0 false h64 h1 h64 hfirst rfl (by decide) <|
    levels_cons 1 _ h128 h2 h64 hrecent rfl (by decide) <|
    levels_cons 2 _ h64 h1 h64 hfirst' rfl (by decide) <|
    levels_cons 3 _ h64 h1 h64 hrecent' rfl (by decide) levels_nil
  exact ofLine_of_words hwords (by decide) (hierarchy_cons h0 h4 (by decide) hlevels)
    (by decide +kernel)

end Description

namespace Level

variable {l : Level}

/-- The number of bits that tell bytes of a line apart belongs to the size of a line. -/
theorem Fresh.two_pow_lineBits (h : l.Fresh) : 2 ^ l.lineBits = l.lineSize := by
  obtain ⟨k, hk, hsize⟩ := h.lineSize_eq
  have hfind : (List.range 32).find? l.lineSize.testBit = some k := by
    rw [List.find?_range_eq_some]
    refine ⟨by rw [hsize, Nat.testBit_two_pow_self], by simpa using hk, fun j hj => ?_⟩
    rw [hsize, Nat.testBit_two_pow_of_ne (Nat.ne_of_gt hj)]
    rfl
  rw [lineBits, hfind, hsize]
  rfl

/-- Addresses have the same line if they lie in one block of the size of a line. -/
theorem Fresh.lineOf_eq (h : l.Fresh) (address : Nat) :
    l.lineOf address = address / l.lineSize := by
  rw [lineOf, h.two_pow_lineBits]

theorem Fresh.lineSet_eq (h : l.Fresh) (set : Nat) : l.lineSet set = .empty := by
  rw [lineSet, h.sets_eq, KeyMap.get?_empty]
  rfl

end Level

end BinTrace.Cache
