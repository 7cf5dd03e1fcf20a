import BinTrace.Program.Basic

/-!
Reading a file by address through its section table. A read goes to the first section that holds
the address, and gives bytes that the file has for this section, or none. So a section can be
hidden by one in front of it: a range that the file has bytes for is not read, if the first section
at its address has no contents, stops inside of the range, or is cut off by the end of the file.
-/

namespace BinTrace

variable {p : Program} {s t : Section} {file bytes : List UInt8} {a n : Nat}

namespace Section

/-- The section is loaded, and the address lies in it. -/
structure Holds (s : Section) (a : Nat) : Prop where
  loaded : s.address ≠ 0
  base_le : s.address ≤ a
  lt_stop : a < s.range.stop

/-- Where in the file the byte at an address of the section lies. -/
def fileOffset (s : Section) (a : Nat) : Nat := s.offset + (a - s.address)

/-- The section contains the `n` addresses from `a` on, and the file has their bytes. -/
structure Backs (s : Section) (file : List UInt8) (a n : Nat) : Prop where
  holds : s.Holds a
  hasContents : s.hasContents = true
  stop_le : a + n ≤ s.range.stop
  inFile : s.fileOffset a + n ≤ file.length

theorem holds_iff : s.Holds a ↔ (s.address ≠ 0 && s.range.contains a) = true := by
  rw [Bool.and_eq_true, decide_eq_true_eq, AddressRange.contains_iff]
  exact ⟨fun h => ⟨h.loaded, h.base_le, h.lt_stop⟩, fun h => ⟨h.1, h.2.1, h.2.2⟩⟩

theorem Holds.not_backs_iff (h : s.Holds a) : ¬ s.Backs file a n ↔
    s.hasContents = false ∨ s.range.stop < a + n ∨ file.length < s.fileOffset a + n := by
  constructor
  · intro hbacks
    by_cases hcontents : s.hasContents = true
    · by_cases hstop : a + n ≤ s.range.stop
      · exact .inr (.inr (Nat.not_le.mp fun hfile => hbacks ⟨h, hcontents, hstop, hfile⟩))
      · exact .inr (.inl (Nat.not_le.mp hstop))
    · exact .inl (Bool.eq_false_iff.mpr hcontents)
  · rintro (hcontents | hstop | hfile) hbacks
    · exact Bool.false_ne_true (hcontents.symm.trans hbacks.hasContents)
    · exact absurd hbacks.stop_le (Nat.not_le.mpr hstop)
    · exact absurd hbacks.inFile (Nat.not_le.mpr hfile)

end Section

namespace Program

/-- The section is the first one in the table that holds the address. -/
def FirstAt (p : Program) (a : Nat) (t : Section) : Prop :=
  t.Holds a ∧ ∃ front back, p.sections = front ++ t :: back ∧ ∀ u ∈ front, ¬ u.Holds a

theorem sectionAt?_eq_some_iff : p.sectionAt? a = some t ↔ p.FirstAt a t := by
  simp only [sectionAt?, List.find?_eq_some_iff_append, Section.holds_iff, FirstAt,
    Bool.not_eq_true, Bool.not_eq_eq_eq_not, Bool.not_true]

theorem FirstAt.mem (h : p.FirstAt a t) : t ∈ p.sections := by
  obtain ⟨-, front, back, hsections, -⟩ := h
  simp [hsections]

theorem exists_firstAt (hs : s ∈ p.sections) (hholds : s.Holds a) : ∃ t, p.FirstAt a t := by
  cases hfound : p.sectionAt? a with
  | some t => exact ⟨t, sectionAt?_eq_some_iff.mp hfound⟩
  | none => exact absurd (Section.holds_iff.mp hholds) (List.find?_eq_none.mp hfound s hs)

/-- The first section at an address stands in front of all others that hold it. -/
theorem FirstAt.sublist (h : p.FirstAt a t) (hs : s ∈ p.sections) (hholds : s.Holds a)
    (hne : s ≠ t) : [t, s].Sublist p.sections := by
  obtain ⟨-, front, back, hsections, hfront⟩ := h
  rw [hsections, List.mem_append, List.mem_cons] at hs
  have hback : s ∈ back :=
    (hs.resolve_left fun hmem => hfront s hmem hholds).resolve_left hne
  rw [hsections]
  exact ((List.singleton_sublist.mpr hback).cons_cons t).trans (List.sublist_append_right front _)

/-- What is read from the first section at an address. -/
theorem FirstAt.read_eq_some_iff (h : p.FirstAt a t) : (p.image file).read a n = some bytes ↔
    t.Backs file a n ∧ bytes = (file.drop (t.fileOffset a)).take n := by
  have hinside : a - t.address + n ≤ t.size ↔ a + n ≤ t.range.stop := by
    have hbase := h.1.base_le
    simp only [AddressRange.stop, Section.range]
    omega
  simp only [image, sectionAt?_eq_some_iff.mpr h, hinside]
  constructor
  · intro hread
    obtain ⟨hsection, hslice⟩ := Option.ite_none_right_eq_some.mp hread
    obtain ⟨hfile, hbytes⟩ := Option.ite_none_right_eq_some.mp hslice
    rw [Bool.and_eq_true, decide_eq_true_eq] at hsection
    exact ⟨⟨h.1, hsection.1, hsection.2, hfile⟩, (Option.some.inj hbytes).symm⟩
  · rintro ⟨hbacks, rfl⟩
    rw [hbacks.hasContents, decide_eq_true hbacks.stop_le, Bool.and_true, if_pos rfl]
    exact if_pos hbacks.inFile

theorem FirstAt.read_eq_none_iff (h : p.FirstAt a t) :
    (p.image file).read a n = none ↔ ¬ t.Backs file a n := by
  rw [Option.eq_none_iff_forall_ne_some]
  constructor
  · exact fun hnone hbacks => hnone _ (h.read_eq_some_iff.mpr ⟨hbacks, rfl⟩)
  · exact fun hbacks bytes hread => hbacks (h.read_eq_some_iff.mp hread).1

/-- A read that succeeds went to the first section at the address. -/
theorem exists_firstAt_of_read (h : (p.image file).read a n = some bytes) :
    ∃ t, p.FirstAt a t := by
  cases hfound : p.sectionAt? a with
  | some t => exact ⟨t, sectionAt?_eq_some_iff.mp hfound⟩
  | none => simp [image, hfound] at h

/-- The section `t` stands in front of `s` and is the first one at the address, and the file does
not have `n` bytes of it from there on. -/
structure Hides (p : Program) (file : List UInt8) (a n : Nat) (t s : Section) : Prop where
  first : p.FirstAt a t
  inFront : [t, s].Sublist p.sections
  lacks : t.hasContents = false ∨ t.range.stop < a + n ∨ file.length < t.fileOffset a + n

/-- What is read are the bytes that the file has for one section, which contains the whole range.
Where there is such a section, a read fails only if another one hides it. -/
theorem image_reads (p : Program) (file : List UInt8) (a n : Nat) :
    (∀ bytes, (p.image file).read a n = some bytes → ∃ s ∈ p.sections, s.Backs file a n ∧
      bytes.length = n ∧ ∀ k < n, bytes[k]? = file[s.offset + (a - s.address) + k]?) ∧
    ∀ s ∈ p.sections, s.Backs file a n →
      ((p.image file).read a n = none ↔ ∃ t, p.Hides file a n t s) := by
  refine ⟨fun bytes hread => ?_, fun s hs hbacks => ?_⟩
  · obtain ⟨t, hfirst⟩ := exists_firstAt_of_read hread
    obtain ⟨hbacks, rfl⟩ := hfirst.read_eq_some_iff.mp hread
    refine ⟨t, hfirst.mem, hbacks, ?_, fun k hk => ?_⟩
    · have hfile := hbacks.inFile
      rw [List.length_take, List.length_drop]
      omega
    · rw [List.getElem?_take_of_lt hk, List.getElem?_drop, Section.fileOffset]
  · obtain ⟨t, hfirst⟩ := exists_firstAt hs hbacks.holds
    constructor
    · intro hnone
      -- The read went to a section that does not back the range, so not to `s`.
      have hlacks := hfirst.read_eq_none_iff.mp hnone
      have hne : s ≠ t := fun heq => hlacks (heq ▸ hbacks)
      exact ⟨t, hfirst, hfirst.sublist hs hbacks.holds hne, hfirst.1.not_backs_iff.mp hlacks⟩
    · rintro ⟨u, hhides⟩
      exact hhides.first.read_eq_none_iff.mpr (hhides.first.1.not_backs_iff.mpr hhides.lacks)

/-! A table in which the zeros for each thread lie at the addresses of the section behind them,
as they take up no room in the program that is loaded. -/

namespace ThreadData

def contents : List UInt8 := [1, 2, 3, 4, 5, 6, 7, 8]

def zeros : Section := ⟨".tbss", 0x3000, 0, 4, false, false⟩

def initializers : Section := ⟨".init_array", 0x3000, 0, 8, false, true⟩

def program : Program := ⟨.unknown, 0, [zeros, initializers], []⟩

theorem initializers_mem : initializers ∈ program.sections :=
  List.mem_cons_of_mem _ List.mem_cons_self

theorem backs_initializers : initializers.Backs contents 0x3000 8 :=
  ⟨⟨by decide, by decide, by decide⟩, rfl, by decide, by decide⟩

end ThreadData

/-- The initializers are read from where the zeros stop, and hidden in front of it. -/
theorem image_reads_threadData :
    (ThreadData.program.image ThreadData.contents).read 0x3004 4 = some [5, 6, 7, 8] ∧
    (∃ s ∈ ThreadData.program.sections, s.Backs ThreadData.contents 0x3004 4 ∧
      [5, 6, 7, 8].length = 4 ∧ ∀ k < 4,
        [5, 6, 7, 8][k]? = ThreadData.contents[s.offset + (0x3004 - s.address) + k]?) ∧
    ThreadData.initializers ∈ ThreadData.program.sections ∧
    ThreadData.initializers.Backs ThreadData.contents 0x3000 8 ∧
    ((ThreadData.program.image ThreadData.contents).read 0x3000 8 = none ↔
      ∃ t, ThreadData.program.Hides ThreadData.contents 0x3000 8 t ThreadData.initializers) := by
  have hread : (ThreadData.program.image ThreadData.contents).read 0x3004 4 =
      some [5, 6, 7, 8] := by decide
  refine ⟨hread, ?_, ThreadData.initializers_mem, ThreadData.backs_initializers, ?_⟩
  · exact (image_reads ThreadData.program ThreadData.contents 0x3004 4).1 _ hread
  · exact (image_reads ThreadData.program ThreadData.contents 0x3000 8).2 _
      ThreadData.initializers_mem ThreadData.backs_initializers

/-- The file has all bytes of a section, but one without contents stands in front of it. -/
theorem exists_hidden_section : ∃ p file a n s, s ∈ p.sections ∧ s.Backs file a n ∧
    (image p file).read a n = none :=
  ⟨ThreadData.program, ThreadData.contents, 0x3000, 8, ThreadData.initializers,
    ThreadData.initializers_mem, ThreadData.backs_initializers, by decide⟩

end Program

end BinTrace
