import BinTrace.Arithmetic
import BinTrace.Register.Basic

/-!
Sets of general purpose registers and flags. A member is a cell, one bit stands for one cell, and
the operations are those of sets: `mem_union`, `mem_inter`, `mem_sdiff`, `mem_compl`, and two
sets with the same members are equal.
-/

namespace BinTrace

/-- A place that an instruction may read or write: a register or a flag. -/
inductive Cell
  | gpr (r : Gpr)
  | flag (f : Flag)
  deriving DecidableEq

namespace Cell

def index : Cell → Nat
  | gpr r => r.index
  | flag f => 16 + f.index

def all : List Cell :=
  Gpr.all.map gpr ++ Flag.all.map flag

def name : Cell → String
  | gpr r => (Register.qword r).name
  | flag f => f.name

theorem index_lt (c : Cell) : c.index < 25 := by
  cases c with
  | gpr r => have := r.index_lt; simp only [index]; omega
  | flag f => have := f.index_lt; simp only [index]; omega

theorem exists_index_eq : ∀ i, i < 25 → ∃ c : Cell, c.index = i := by
  have h : ∀ i : Fin 25, (all.any fun c => c.index == i.val) = true := by decide
  intro i hi
  obtain ⟨c, -, hc⟩ := List.any_eq_true.mp (h ⟨i, hi⟩)
  exact ⟨c, by simpa using hc⟩

end Cell

structure RegSet where
  bits : BitVec 25
  deriving DecidableEq

namespace RegSet

def contains (s : RegSet) (c : Cell) : Bool :=
  s.bits.getLsbD c.index

instance : Membership Cell RegSet := ⟨fun s c => s.contains c = true⟩

instance (c : Cell) (s : RegSet) : Decidable (c ∈ s) :=
  inferInstanceAs (Decidable (s.contains c = true))

instance : EmptyCollection RegSet := ⟨⟨0⟩⟩

instance : Inhabited RegSet := ⟨∅⟩

instance : Union RegSet := ⟨fun s t => ⟨s.bits ||| t.bits⟩⟩

instance : Inter RegSet := ⟨fun s t => ⟨s.bits &&& t.bits⟩⟩

instance : SDiff RegSet := ⟨fun s t => ⟨s.bits &&& ~~~t.bits⟩⟩

def compl (s : RegSet) : RegSet := ⟨~~~s.bits⟩

/-- Every register and every flag. -/
def full : RegSet := ⟨BitVec.allOnes 25⟩

def singleton (c : Cell) : RegSet := ⟨BitVec.twoPow 25 c.index⟩

def insert (s : RegSet) (c : Cell) : RegSet := s ∪ singleton c

def erase (s : RegSet) (c : Cell) : RegSet := s \ singleton c

def ofList (cells : List Cell) : RegSet := cells.foldl insert ∅

def ofGprs (rs : List Gpr) : RegSet := ofList (rs.map .gpr)

def ofFlags (fs : List Flag) : RegSet := ofList (fs.map .flag)

def toList (s : RegSet) : List Cell := Cell.all.filter s.contains

def gprs (s : RegSet) : List Gpr := Gpr.all.filter fun r => s.contains (.gpr r)

def flags (s : RegSet) : List Flag := Flag.all.filter fun f => s.contains (.flag f)

def allGprs : RegSet := ofGprs Gpr.all

def allFlags : RegSet := ofFlags Flag.all

def statusFlags : RegSet := ofFlags [.carry, .parity, .adjust, .zero, .sign, .overflow]

/-- The flags that `lahf` and `sahf` carry. -/
def lowFlags : RegSet := ofFlags [.carry, .parity, .adjust, .zero, .sign]

def onlyGprs (s : RegSet) : RegSet := s ∩ allGprs

def onlyFlags (s : RegSet) : RegSet := s ∩ allFlags

def hasFlags (s : RegSet) : Bool := s.onlyFlags ≠ ∅

/-- The set with one bit per register and one per bit of the flags word; other bits are dropped. -/
def ofMasks (gprMask flagMask : Nat) : RegSet :=
  ofGprs (Gpr.all.filter fun r => gprMask.testBit r.index) ∪
    ofFlags (Flag.all.filter fun f => flagMask.testBit f.bit)

def gprMask (s : RegSet) : Nat :=
  (s.gprs.map fun r => 2 ^ r.index).sum

def flagMask (s : RegSet) : Nat :=
  (s.flags.map fun f => 2 ^ f.bit).sum

/-- The members' names between braces, registers first. -/
def text (s : RegSet) : String :=
  "\x7b" ++ ",".intercalate (s.toList.map Cell.name) ++ "\x7d"

theorem mem_def (c : Cell) (s : RegSet) : c ∈ s ↔ s.bits.getLsbD c.index = true := Iff.rfl

theorem not_mem_empty (c : Cell) : c ∉ (∅ : RegSet) := by
  change ¬ (0 : BitVec 25).getLsbD c.index = true
  simp

theorem mem_full (c : Cell) : c ∈ full := by
  simp only [mem_def, full, BitVec.getLsbD_allOnes, c.index_lt, decide_true]

theorem mem_union (c : Cell) (s t : RegSet) : c ∈ s ∪ t ↔ c ∈ s ∨ c ∈ t := by
  change (s.bits ||| t.bits).getLsbD c.index = true ↔ _
  simp [mem_def]

theorem mem_inter (c : Cell) (s t : RegSet) : c ∈ s ∩ t ↔ c ∈ s ∧ c ∈ t := by
  change (s.bits &&& t.bits).getLsbD c.index = true ↔ _
  simp [mem_def]

theorem mem_sdiff (c : Cell) (s t : RegSet) : c ∈ s \ t ↔ c ∈ s ∧ c ∉ t := by
  change (s.bits &&& ~~~t.bits).getLsbD c.index = true ↔ _
  simp [mem_def, c.index_lt]

theorem mem_compl (c : Cell) (s : RegSet) : c ∈ s.compl ↔ c ∉ s := by
  simp [mem_def, compl, c.index_lt]

theorem index_injective {c d : Cell} (h : c.index = d.index) : c = d := by
  cases c with
  | gpr r =>
    cases d with
    | gpr s => cases r <;> cases s <;> first | rfl | simp [Cell.index, Gpr.index] at h
    | flag g =>
      have hr := r.index_lt
      simp only [Cell.index] at h
      omega
  | flag f =>
    cases d with
    | gpr s =>
      have hs := s.index_lt
      simp only [Cell.index] at h
      omega
    | flag g => cases f <;> cases g <;> first | rfl | simp [Cell.index, Flag.index] at h

theorem mem_singleton (c d : Cell) : c ∈ singleton d ↔ c = d := by
  simp only [mem_def, singleton, BitVec.getLsbD_twoPow, Bool.and_eq_true, decide_eq_true_eq]
  exact ⟨fun h => index_injective h.2.symm, fun h => by subst h; exact ⟨c.index_lt, rfl⟩⟩

theorem mem_insert (c d : Cell) (s : RegSet) : c ∈ s.insert d ↔ c ∈ s ∨ c = d := by
  rw [insert, mem_union, mem_singleton]

theorem mem_erase (c d : Cell) (s : RegSet) : c ∈ s.erase d ↔ c ∈ s ∧ c ≠ d := by
  rw [erase, mem_sdiff, mem_singleton]

theorem mem_foldl_insert {cells : List Cell} {s : RegSet} {c : Cell} :
    c ∈ cells.foldl insert s ↔ c ∈ s ∨ c ∈ cells := by
  induction cells generalizing s with
  | nil => simp
  | cons d rest ih =>
      rw [List.foldl_cons, ih, mem_insert, List.mem_cons, or_assoc]

theorem mem_ofList {cells : List Cell} {c : Cell} : c ∈ ofList cells ↔ c ∈ cells := by
  rw [ofList, mem_foldl_insert]
  exact or_iff_right (not_mem_empty c)

theorem mem_ofGprs {rs : List Gpr} {c : Cell} : c ∈ ofGprs rs ↔ ∃ r ∈ rs, .gpr r = c := by
  rw [ofGprs, mem_ofList, List.mem_map]

theorem mem_onlyGprs {s : RegSet} {c : Cell} : c ∈ s.onlyGprs ↔ c ∈ s ∧ ∃ r, .gpr r = c := by
  rw [onlyGprs, mem_inter, allGprs, mem_ofGprs]
  exact and_congr_right fun _ => exists_congr fun r => and_iff_right r.mem_all

theorem eq_of_mem_iff {s t : RegSet} (h : ∀ c, c ∈ s ↔ c ∈ t) : s = t := by
  cases s with
  | mk b =>
    cases t with
    | mk d =>
      congr
      apply BitVec.eq_of_getLsbD_eq
      intro i hi
      obtain ⟨c, rfl⟩ := Cell.exists_index_eq i hi
      exact Bool.eq_iff_iff.mpr (h c)

theorem exists_mem_of_ne_empty {s : RegSet} (h : s ≠ ∅) : ∃ c, c ∈ s := by
  apply Classical.byContradiction
  intro hnone
  exact h (eq_of_mem_iff fun c => iff_of_false (fun hc => hnone ⟨c, hc⟩) (not_mem_empty c))

end RegSet

end BinTrace
