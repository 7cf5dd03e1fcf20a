import BinTrace.Proofs.Disassembly.Strategy

/-!
Where jump tables come from: every table that is found on a successful way through a function is
the table of an indirect jump among the instructions that were found.
-/

namespace BinTrace

theorem JumpTable.branch_of_resolve? {w : Width} {image : Image} {reach : Nat}
    {function : AddressRange} {branch base : Nat} {t : JumpTable}
    (h : resolve? w image reach function branch base = some t) : t.branch = branch := by
  unfold resolve? at h
  simp only [Option.bind_eq_bind, Option.pure_def] at h
  split at h
  · cases h
    rfl
  · obtain ⟨first, -, h⟩ := Option.bind_eq_some_iff.mp h
    split at h
    · cases h
      rfl
    · obtain ⟨raw, -, h⟩ := Option.bind_eq_some_iff.mp h
      split at h
      · cases h
        rfl
      · cases h
        rfl

namespace Descent

variable {d : DescentInput} {c e : Descent}

theorem mem_insertTable {t u : JumpTable} {ts : List JumpTable} :
    u ∈ insertTable t ts ↔ u = t ∨ u ∈ ts := by
  induction ts with
  | nil => simp [insertTable]
  | cons v rest ih =>
      rw [insertTable]
      split
      · simp
      · simp only [List.mem_cons, ih]
        exact or_left_comm

theorem branch_of_table? {i : Instruction} {t : JumpTable} (h : c.table? d i = some t) :
    t.branch = i.address := by
  simp only [table?, Option.bind_eq_bind, Option.bind_eq_some_iff] at h
  obtain ⟨base, -, image, -, h⟩ := h
  exact JumpTable.branch_of_resolve? h

/-- The tables of a walk belong to indirect jumps that it has decoded. -/
def TablesDecoded (c : Descent) : Prop :=
  ∀ t ∈ c.tables, ∃ i ∈ c.decoded, i.address = t.branch ∧ i.isTableJump = true

theorem mem_tables_visited {found : Option JumpTable} {t : JumpTable} {ts : List JumpTable} :
    t ∈ (match found with
      | some u => insertTable u ts
      | none => ts) ↔ found = some t ∨ t ∈ ts := by
  cases found with
  | none => simp
  | some u => rw [mem_insertTable, Option.some.injEq, eq_comm]

theorem TablesDecoded.visit (hc : c.TablesDecoded) {a : Nat} {rest : List Nat}
    (h : c.visit d a rest = .ok e) : e.TablesDecoded := by
  obtain ⟨i, found, -, hfound, rfl⟩ := visit_ok h
  intro t ht
  rcases mem_tables_visited.mp ht with rfl | ht
  · split at hfound
    · rename_i hjump
      exact ⟨i, mem_insertByAddress.mpr (.inl rfl), (branch_of_table? hfound.symm).symm, hjump⟩
    · cases hfound
  · obtain ⟨j, hj, hjump⟩ := hc t ht
    exact ⟨j, mem_insertByAddress.mpr (.inr hj), hjump⟩

theorem tables_of_run (hc : c.TablesDecoded) {is : List Instruction}
    (h : (run d c).1 = .ok is) :
    ∀ t ∈ (run d c).2, ∃ i ∈ is, i.address = t.branch ∧ i.isTableJump = true := by
  obtain ⟨e, he, -, rfl, htables⟩ := run_ok (P := TablesDecoded) (fun hc _ _ => hc)
    (fun hc _ _ _ hv => hc.visit hv) hc h
  exact htables ▸ he

end Descent

theorem tables_of_disassemble {d : DescentInput} {strategy : Strategy} {is : List Instruction}
    (h : (strategy.disassemble d).1 = .ok is) :
    ∀ t ∈ (strategy.disassemble d).2, ∃ i ∈ is, i.address = t.branch ∧ i.isTableJump = true := by
  cases strategy with
  | recursive => exact Descent.tables_of_run (fun t ht => by cases ht) h
  | linear => exact fun t ht => by cases ht

end BinTrace
