import BinTrace.Proofs.Decode.Alone
import BinTrace.Proofs.Disassembly.Tables

/-!
Recursive descent leaves no target out. Every address of the function that a decoded instruction
names as its target, or that stands in a table, is one at which an instruction was decoded; and no
two tables belong to the same jump.
-/

namespace BinTrace

/-- Some instruction of a list begins at the address. -/
def Begins (is : List Instruction) (a : Nat) : Prop := ∃ i ∈ is, i.address = a

namespace Descent

variable {d : DescentInput} {c e : Descent} {a b : Nat} {rest : List Nat}

theorem isDecoded_iff : c.isDecoded a = true ↔ Begins c.decoded a := by
  simp [isDecoded, Begins]

/-- The address has been decoded or waits, unless it lies outside the function. -/
def Knows (d : DescentInput) (c : Descent) (a : Nat) : Prop :=
  d.range.contains a = true → c.isDecoded a = true ∨ a ∈ c.pending

/-- The targets of what has been decoded are known, and each table has a jump of its own. -/
structure Closed (d : DescentInput) (c : Descent) : Prop where
  direct : ∀ i ∈ c.decoded, ∀ a, i.controlTarget? = some a → c.Knows d a
  listed : ∀ t ∈ c.tables, ∀ a ∈ t.targets, c.Knows d a
  decoded : c.TablesDecoded
  distinct : c.tables.Pairwise fun t u => t.branch ≠ u.branch

theorem perm_insertTable (t : JumpTable) (ts : List JumpTable) :
    (insertTable t ts).Perm (t :: ts) := by
  induction ts with
  | nil => exact .refl _
  | cons u rest ih =>
      rw [insertTable]
      split
      · exact .refl _
      · exact (ih.cons u).trans (.swap t u rest)

/-- An address that does not lie in the function, or that is decoded already, need not wait. -/
theorem Knows.skip (hb : c.Knows d b) (hp : c.pending = a :: rest)
    (hs : (!d.range.contains a || c.isDecoded a) = true) :
    ({ c with pending := rest } : Descent).Knows d b := by
  intro hin
  rcases hb hin with hdecoded | hpending
  · exact .inl hdecoded
  · rw [hp] at hpending
    rcases List.mem_cons.mp hpending with rfl | hrest
    · have hdecoded : c.isDecoded b = true := by simpa [hin] using hs
      exact .inl hdecoded
    · exact .inr hrest

theorem Closed.skip (hc : c.Closed d) (hp : c.pending = a :: rest)
    (hs : (!d.range.contains a || c.isDecoded a) = true) :
    ({ c with pending := rest } : Descent).Closed d :=
  ⟨fun i hi b hb => (hc.direct i hi b hb).skip hp hs,
    fun t ht b hb => (hc.listed t ht b hb).skip hp hs, hc.decoded, hc.distinct⟩

/-- What is known stays known when the next address is visited. -/
theorem Knows.visit (hb : c.Knows d b) (hp : c.pending = a :: rest)
    (h : c.visit d a rest = .ok e) : e.Knows d b := by
  obtain ⟨i, found, hi, -, rfl⟩ := visit_ok h
  intro hin
  simp only [isDecoded, isDecoded_insertByAddress, Bool.or_eq_true, List.mem_append]
  rcases hb hin with hdecoded | hpending
  · exact .inl (.inr hdecoded)
  · rw [hp] at hpending
    rcases List.mem_cons.mp hpending with rfl | hrest
    · exact .inl (.inl (decide_eq_true (decode_address hi)))
    · exact .inr (.inr hrest)

theorem Closed.visit (hc : c.Closed d) (hp : c.pending = a :: rest)
    (hnew : c.isDecoded a = false) (h : c.visit d a rest = .ok e) : e.Closed d := by
  have hkeeps {b : Nat} (hb : c.Knows d b) : e.Knows d b := hb.visit hp h
  have hdecoded := hc.decoded.visit h
  obtain ⟨i, found, hi, hfound, rfl⟩ := visit_ok h
  refine ⟨fun j hj b hb => ?_, fun t ht b hb => ?_, hdecoded, ?_⟩
  · rcases mem_insertByAddress.mp hj with rfl | hj
    · -- The target of the new instruction waits, unless that is a jump with a table.
      cases hjump : j.isTableJump with
      | true => simp [controlTarget?_of_isTableJump hi hjump] at hb
      | false => exact fun _ => .inr (List.mem_append_left _ (by simp [successors, hjump, hb]))
    · exact hkeeps (hc.direct j hj b hb)
  · rcases mem_tables_visited.mp ht with rfl | ht
    · have hjump : i.isTableJump = true := by
        by_contra hnot
        simp [hnot] at hfound
      exact fun _ => .inr (List.mem_append_left _ (by simp [successors, hjump, hb]))
    · exact hkeeps (hc.listed t ht b hb)
  · cases found with
    | none => exact hc.distinct
    | some t =>
        have hbranch : t.branch = a := by
          split at hfound
          · exact (branch_of_table? hfound.symm).trans (decode_address hi)
          · cases hfound
        refine ((perm_insertTable t c.tables).pairwise_iff fun h => h.symm).mpr
          (List.pairwise_cons.mpr ⟨fun u hu heq => ?_, hc.distinct⟩)
        -- Every other table has its jump among what was decoded before.
        obtain ⟨j, hj, haddress, -⟩ := hc.decoded u hu
        have : c.isDecoded a = true := isDecoded_iff.mpr ⟨j, hj, by rw [haddress, ← heq, hbranch]⟩
        rw [hnew] at this
        cases this

end Descent

/-- What recursive descent finds has an instruction at every target that lies in the function. -/
structure TargetsBegin (range : AddressRange) (is : List Instruction) (tables : List JumpTable) :
    Prop where
  direct : ∀ i ∈ is, ∀ a, i.controlTarget? = some a → range.contains a = true → Begins is a
  listed : ∀ t ∈ tables, ∀ a ∈ t.targets, range.contains a = true → Begins is a
  /-- A table is the only one of its jump. -/
  distinct : tables.Pairwise fun t u => t.branch ≠ u.branch

theorem targetsBegin_of_descend {d : DescentInput} {is : List Instruction}
    (h : (descend d).1 = .ok is) : TargetsBegin d.range is (descend d).2 := by
  have hstart : Descent.Closed d { pending := [d.base] } :=
    ⟨by simp, by simp, fun t ht => (List.not_mem_nil ht).elim, List.Pairwise.nil⟩
  -- At the end of the walk nothing waits, so that all known targets have been decoded.
  obtain ⟨e, he, hpending, rfl, htables⟩ := Descent.run_ok Descent.Closed.skip
    (fun hc hp _ hnew hv => hc.visit hp hnew hv) hstart h
  have hbegins {a : Nat} (ha : e.Knows d a) (hin : d.range.contains a = true) :
      Begins e.decoded a := by
    refine Descent.isDecoded_iff.mp ((ha hin).resolve_right fun hwaits => ?_)
    rw [hpending] at hwaits
    cases hwaits
  rw [descend, ← htables]
  exact ⟨fun i hi a ha => hbegins (he.direct i hi a ha),
    fun t ht a ha => hbegins (he.listed t ht a ha), he.distinct⟩

end BinTrace
