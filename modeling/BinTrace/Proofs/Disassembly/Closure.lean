import BinTrace.Proofs.Disassembly.Targets

/-!
Recursive descent finds the least set of addresses that contains the first one and that control
does not leave inside of the function. What was decoded at these addresses does not overlap; where
it would, the descent ends with an address at which one instruction lies inside of another one.
-/

namespace BinTrace

namespace DescentInput

/-- Control may go from an instruction to an address of the function: to the one behind it, to the
target that it names, or, from an indirect jump, to one that stands in its table. -/
structure Sends (d : DescentInput) (tables : List JumpTable) (i : Instruction) (a : Nat) : Prop where
  inside : d.range.contains a = true
  goes : (i.fallsThrough = true ∧ a = i.stop) ∨ i.controlTarget? = some a ∨
    (i.isTableJump = true ∧ ∃ t ∈ tables, t.branch = i.address ∧ a ∈ t.targets)

/-- The least set that contains the first address, if there is a byte, and with an address all those
to which the instruction there sends control. -/
inductive Reached (d : DescentInput) (tables : List JumpTable) : Nat → Prop
  | first (hne : d.bytes ≠ []) : d.Reached tables d.base
  | next {i : Instruction} {a b : Nat} (ha : d.Reached tables a) (hi : d.decodeAt a = .ok i)
      (hb : d.Sends tables i b) : d.Reached tables b

/-- The address lies strictly inside of an instruction, and both are reached. -/
def Collides (d : DescentInput) (tables : List JumpTable) (a : Nat) : Prop :=
  d.Reached tables a ∧ ∃ b i, d.Reached tables b ∧ d.decodeAt b = .ok i ∧ b < a ∧ a < i.stop

/-- What is found by a descent that comes to its end. A table is looked for among the instructions
that were decoded earlier than its jump. -/
structure Closes (d : DescentInput) (is : List Instruction) (tables : List JumpTable) : Prop where
  begins_iff : ∀ a, Begins is a ↔ d.Reached tables a
  decodes : ∀ i ∈ is, d.decodeAt i.address = .ok i
  increasing : is.Pairwise fun i j => i.address < j.address
  apart : is.Pairwise fun i j => i.stop ≤ j.address
  jumps : ∀ t ∈ tables, ∃ i ∈ is, i.address = t.branch ∧ i.isTableJump = true
  mem_tables_iff : ∀ i ∈ is, i.isTableJump = true → ∃ earlier, earlier.Sublist is ∧
    ∀ t, t ∈ tables ∧ t.branch = i.address ↔
      Descent.table? d { decoded := earlier } i = some t

variable {d : DescentInput} {tables more : List JumpTable} {i : Instruction} {a : Nat}

theorem Sends.mono (h : d.Sends tables i a) (hsub : tables ⊆ more) : d.Sends more i a :=
  ⟨h.inside, h.goes.imp_right <| .imp_right fun ⟨hjump, t, ht, hta⟩ => ⟨hjump, t, hsub ht, hta⟩⟩

theorem Reached.mono (h : d.Reached tables a) (hsub : tables ⊆ more) : d.Reached more a := by
  induction h with
  | first hne => exact .first hne
  | next _ hi hb ih => exact .next ih hi (hb.mono hsub)

end DescentInput

namespace Descent

variable {d : DescentInput} {c e : Descent} {a : Nat} {rest : List Nat}

/-- A visit succeeds only if what is decoded overlaps nothing that has been decoded before. -/
theorem apart_of_visit (h : c.visit d a rest = .ok e) {i : Instruction} (hi : d.decodeAt a = .ok i) :
    ∀ j ∈ c.decoded, j.contains a = false ∧ ¬(a < j.address ∧ j.address < i.stop) := by
  unfold visit at h
  split at h
  · cases h
  · rename_i hinside
    rw [hi] at h
    dsimp only at h
    split at h
    · cases h
    · rename_i hnone
      intro j hj
      refine ⟨?_, fun hover => ?_⟩
      · by_contra hcontains
        exact hinside (List.any_eq_true.mpr ⟨j, hj, by simpa using hcontains⟩)
      · exact List.find?_eq_none.mp hnone j hj (decide_eq_true hover)

/-- Why a visit fails. -/
theorem visit_error {err : DisassemblyError} (h : c.visit d a rest = .error err) :
    (∃ j ∈ c.decoded, j.contains a = true ∧ err = .overlap a) ∨
      (∃ i, d.decodeAt a = .ok i ∧ ∃ j ∈ c.decoded, a < j.address ∧ j.address < i.stop ∧
        err = .overlap j.address) ∨
      ∃ e, d.decodeAt a = .error e ∧ err = .decode e := by
  unfold visit at h
  split at h
  · rename_i hinside
    obtain ⟨j, hj, hcontains⟩ := List.any_eq_true.mp hinside
    exact .inl ⟨j, hj, hcontains, (Except.error.inj h).symm⟩
  · split at h
    · rename_i e he
      exact .inr (.inr ⟨e, he, (Except.error.inj h).symm⟩)
    · rename_i i hi
      split at h
      · rename_i j hj
        have hover : a < j.address ∧ j.address < i.stop := by simpa using List.find?_some hj
        exact .inr (.inl ⟨i, hi, j, List.mem_of_find?_eq_some hj, hover.1, hover.2,
          (Except.error.inj h).symm⟩)
      · cases h

theorem sublist_insertByAddress (i : Instruction) (is : List Instruction) :
    is.Sublist (insertByAddress i is) := by
  induction is with
  | nil => exact List.nil_sublist _
  | cons j rest ih =>
      rw [insertByAddress]
      split
      · exact List.sublist_cons_self i (j :: rest)
      · exact ih.cons_cons j

theorem pairwise_insertByAddress {i : Instruction} {is : List Instruction}
    (his : is.Pairwise fun j k => j.stop ≤ k.address)
    (hi : ∀ j ∈ is, i.address < j.address ∧ i.stop ≤ j.address ∨
      j.address ≤ i.address ∧ j.stop ≤ i.address) :
    (insertByAddress i is).Pairwise fun j k => j.stop ≤ k.address := by
  induction is with
  | nil => exact List.pairwise_singleton _ _
  | cons j rest ih =>
      obtain ⟨hj, hrest⟩ := List.pairwise_cons.mp his
      obtain ⟨hij, hirest⟩ := List.forall_mem_cons.mp hi
      rw [insertByAddress]
      split
      · rename_i hlt
        have hstop : i.stop ≤ j.address := by omega
        refine List.pairwise_cons.mpr ⟨List.forall_mem_cons.mpr ⟨hstop, fun k hk => ?_⟩, his⟩
        have hle : j.address ≤ j.stop := Nat.le_add_right _ _
        exact hstop.trans (hle.trans (hj k hk))
      · refine List.pairwise_cons.mpr ⟨fun k hk => ?_, ih hrest hirest⟩
        rcases mem_insertByAddress.mp hk with rfl | hk
        · omega
        · exact hj k hk

/-- What waits behind a new instruction is where control goes from it. -/
theorem sends_of_mem_successors {i : Instruction} {found : Option JumpTable} {b : Nat}
    {tables : List JumpTable} (hin : d.range.contains b = true) (hb : b ∈ successors i found)
    (hfound : ∀ t, found = some t → t ∈ tables ∧ t.branch = i.address) : d.Sends tables i b := by
  refine ⟨hin, ?_⟩
  rcases List.mem_append.mp hb with hb | hb
  · split at hb
    · rename_i hfalls
      exact .inl ⟨hfalls, List.mem_singleton.mp hb⟩
    · cases hb
  · rw [List.mem_reverse] at hb
    split at hb
    · rename_i hjump
      cases found with
      | none => cases hb
      | some t =>
          obtain ⟨ht, hbranch⟩ := hfound t rfl
          exact .inr (.inr ⟨hjump, t, ht, hbranch, hb⟩)
    · exact .inr (.inl (Option.mem_toList.mp hb))

theorem address_ne (hnew : c.isDecoded a = false) {i : Instruction} (hi : i ∈ c.decoded) :
    i.address ≠ a := by
  intro hsame
  rw [isDecoded_iff.mpr ⟨i, hi, hsame⟩] at hnew
  cases hnew

/-- A visit adds one instruction, where control goes from it, and its table if one is found. -/
theorem visit_adds (h : c.visit d a rest = .ok e) :
    ∃ i found, d.decodeAt a = .ok i ∧ i.address = a ∧
      (∀ t, found = some t ↔ i.isTableJump = true ∧ c.table? d i = some t) ∧
      e.decoded = insertByAddress i c.decoded ∧ e.pending = successors i found ++ rest ∧
      ∀ t, t ∈ e.tables ↔ found = some t ∨ t ∈ c.tables := by
  obtain ⟨i, found, hi, hfound, rfl⟩ := visit_ok h
  refine ⟨i, found, hi, decode_address hi, fun t => ?_, rfl, rfl, fun t => mem_tables_visited⟩
  rw [hfound]
  split
  · rename_i hjump
    simp [hjump]
  · rename_i hjump
    simp [hjump]

theorem tables_subset_of_visit (h : c.visit d a rest = .ok e) : c.tables ⊆ e.tables := by
  obtain ⟨i, found, -, -, -, -, -, htables⟩ := visit_adds h
  exact fun t ht => (htables t).mpr (.inr ht)

/-- If the address is reached then so is what is decoded there, and what waits because of it. -/
theorem reached_of_visit (h : c.visit d a rest = .ok e) (ha : d.Reached c.tables a) :
    (∀ i ∈ e.decoded, i ∈ c.decoded ∨ d.decodeAt i.address = .ok i ∧ d.Reached e.tables i.address) ∧
      ∀ b ∈ e.pending, d.range.contains b = true → b ∈ rest ∨ d.Reached e.tables b := by
  have ha' := ha.mono (tables_subset_of_visit h)
  obtain ⟨i, found, hi, rfl, hfound, hdecoded, hpending, htables⟩ := visit_adds h
  rw [hdecoded, hpending]
  refine ⟨fun j hj => ?_, fun b hb hin => ?_⟩
  · rcases mem_insertByAddress.mp hj with rfl | hj
    · exact .inr ⟨hi, ha'⟩
    · exact .inl hj
  · rcases List.mem_append.mp hb with hb | hb
    · refine .inr (ha'.next hi (sends_of_mem_successors hin hb fun t ht => ?_))
      exact ⟨(htables t).mpr (.inl ht), branch_of_table? ((hfound t).mp ht).2⟩
    · exact .inl hb

/-- What was decoded lies one behind the other, and still does with one more instruction. -/
theorem pairwise_of_visit (h : c.visit d a rest = .ok e) (hnew : c.isDecoded a = false)
    (hc : c.decoded.Pairwise fun i j => i.stop ≤ j.address) :
    e.decoded.Pairwise fun i j => i.stop ≤ j.address := by
  obtain ⟨i, found, hi, haddress, -, hdecoded, -, -⟩ := visit_adds h
  rw [hdecoded]
  refine pairwise_insertByAddress hc fun j hj => ?_
  have hne := address_ne hnew hj
  obtain ⟨houtside, hahead⟩ := apart_of_visit h hi j hj
  simp only [Instruction.contains, Bool.and_eq_false_iff, decide_eq_false_iff_not] at houtside
  omega

/-- The tables of each jump that has been decoded are what was found among the instructions that had
been decoded before. -/
def TablesFound (d : DescentInput) (c : Descent) : Prop :=
  ∀ i ∈ c.decoded, i.isTableJump = true → ∃ earlier, earlier.Sublist c.decoded ∧
    ∀ t, t ∈ c.tables ∧ t.branch = i.address ↔ table? d { decoded := earlier } i = some t

theorem TablesFound.visit (hc : c.TablesFound d) (hc' : c.TablesDecoded)
    (hnew : c.isDecoded a = false) (h : c.visit d a rest = .ok e) : e.TablesFound d := by
  obtain ⟨i, found, hi, rfl, hfound, hdecoded, -, htables⟩ := visit_adds h
  rw [TablesFound, hdecoded]
  intro j hj hjump
  rcases mem_insertByAddress.mp hj with rfl | hj
  · refine ⟨c.decoded, sublist_insertByAddress _ _, fun t => ?_⟩
    rw [htables, hfound]
    constructor
    · rintro ⟨⟨-, ht⟩ | ht, hsame⟩
      · exact ht
      · -- An older table belongs to a jump that was decoded before.
        obtain ⟨k, hk, hbranch, -⟩ := hc' t ht
        exact absurd (hbranch.trans hsame) (address_ne hnew hk)
    · exact fun ht => ⟨.inl ⟨hjump, ht⟩, branch_of_table? ht⟩
  · obtain ⟨earlier, hearlier, hiff⟩ := hc j hj hjump
    refine ⟨earlier, hearlier.trans (sublist_insertByAddress _ _), fun t => ?_⟩
    rw [← hiff, htables, hfound]
    refine and_congr_left fun hsame => or_iff_right fun ht => ?_
    exact address_ne hnew hj (hsame.symm.trans (branch_of_table? ht.2))

/-- What a walk has decoded and what waits is reached, and where control goes from what it has
decoded is known. -/
structure Explores (d : DescentInput) (c : Descent) : Prop where
  closed : c.Closed d
  first : c.Knows d d.base
  past : ∀ i ∈ c.decoded, i.fallsThrough = true → c.Knows d i.stop
  decodes : ∀ i ∈ c.decoded, d.decodeAt i.address = .ok i ∧ d.Reached c.tables i.address
  waits : ∀ a ∈ c.pending, d.range.contains a = true → d.Reached c.tables a
  apart : c.decoded.Pairwise fun i j => i.stop ≤ j.address
  found : c.TablesFound d

theorem explores_start : Explores d { pending := [d.base] } where
  closed := ⟨by simp, by simp, fun t ht => (List.not_mem_nil ht).elim, List.Pairwise.nil⟩
  first _ := .inr (List.mem_singleton_self _)
  past i hi := (List.not_mem_nil hi).elim
  decodes i hi := (List.not_mem_nil hi).elim
  waits a ha hin := by
    obtain rfl := List.mem_singleton.mp ha
    refine .first fun hnil => ?_
    have hlt := ((AddressRange.contains_iff _ _).mp hin).2
    simp [DescentInput.range, hnil] at hlt
  apart := List.Pairwise.nil
  found i hi := (List.not_mem_nil hi).elim

theorem Explores.skip (hc : c.Explores d) (hp : c.pending = a :: rest)
    (hs : (!d.range.contains a || c.isDecoded a) = true) :
    ({ c with pending := rest } : Descent).Explores d where
  closed := hc.closed.skip hp hs
  first := hc.first.skip hp hs
  past i hi hfalls := (hc.past i hi hfalls).skip hp hs
  decodes := hc.decodes
  waits b hb := hc.waits b (hp ▸ List.mem_cons_of_mem a hb)
  apart := hc.apart
  found := hc.found

theorem Explores.visit (hc : c.Explores d) (hp : c.pending = a :: rest)
    (hin : d.range.contains a = true) (hnew : c.isDecoded a = false)
    (h : c.visit d a rest = .ok e) : e.Explores d := by
  have hkeeps {b : Nat} (hb : c.Knows d b) : e.Knows d b := hb.visit hp h
  have hsub := tables_subset_of_visit h
  obtain ⟨hdecodes, hwaits⟩ := reached_of_visit h (hc.waits a (hp ▸ List.mem_cons_self) hin)
  refine ⟨hc.closed.visit hp hnew h, hkeeps hc.first, fun j hj hfalls => ?_, fun j hj => ?_,
    fun b hb hin => ?_, pairwise_of_visit h hnew hc.apart, hc.found.visit hc.closed.decoded hnew h⟩
  · obtain ⟨i, found, -, -, -, hdecoded, hpending, -⟩ := visit_adds h
    rw [hdecoded] at hj
    rcases mem_insertByAddress.mp hj with rfl | hj
    · intro _
      rw [hpending]
      exact .inr (List.mem_append_left _ (by simp [successors, hfalls]))
    · exact hkeeps (hc.past j hj hfalls)
  · rcases hdecodes j hj with hj | hj
    · exact (hc.decodes j hj).imp_right fun h => h.mono hsub
    · exact hj
  · rcases hwaits b hb hin with hb | hb
    · exact (hc.waits b (hp ▸ List.mem_cons_of_mem a hb) hin).mono hsub
    · exact hb

/-- At the end of a walk nothing waits, so that all that is reached has been decoded. -/
theorem Explores.closes (hc : c.Explores d) (hp : c.pending = []) : d.Closes c.decoded c.tables where
  begins_iff a := by
    have hbegins {a : Nat} (ha : c.Knows d a) (hin : d.range.contains a = true) :
        Begins c.decoded a := by
      refine isDecoded_iff.mp ((ha hin).resolve_right fun hwaits => ?_)
      rw [hp] at hwaits
      cases hwaits
    constructor
    · rintro ⟨i, hi, rfl⟩
      exact (hc.decodes i hi).2
    · intro ha
      induction ha with
      | first hne =>
          refine hbegins hc.first ((AddressRange.contains_iff _ _).mpr ⟨Nat.le_refl _, ?_⟩)
          exact Nat.lt_add_of_pos_right (List.length_pos_iff.mpr hne)
      | next _ hi hb ih =>
          obtain ⟨j, hj, rfl⟩ := ih
          obtain rfl := Except.ok.inj ((hc.decodes j hj).1.symm.trans hi)
          refine hbegins ?_ hb.inside
          obtain ⟨hfalls, rfl⟩ | htarget | ⟨-, t, ht, -, hmem⟩ := hb.goes
          · exact hc.past j hj hfalls
          · exact hc.closed.direct j hj _ htarget
          · exact hc.closed.listed t ht _ hmem
  decodes i hi := (hc.decodes i hi).1
  increasing := by
    refine hc.apart.imp_of_mem fun hi _ hle => ?_
    obtain ⟨-, -, n, hn, -, hlen, hbytes⟩ := decode_ok (hc.decodes _ hi).1
    have hsize := congrArg List.length hbytes
    rw [List.length_take] at hsize
    simp only [Instruction.stop, Instruction.size] at hle
    omega
  apart := hc.apart
  jumps := hc.closed.decoded
  mem_tables_iff := hc.found

/-- A walk that fails has met an overlap or bytes that are no instruction. -/
theorem Explores.fails (hc : c.Explores d) (hp : c.pending = a :: rest)
    (hin : d.range.contains a = true) (hnew : c.isDecoded a = false) {err : DisassemblyError}
    (h : c.visit d a rest = .error err) :
    (∃ b, err = .overlap b ∧ d.Collides c.tables b) ∨
      ∃ b e, err = .decode e ∧ d.Reached c.tables b ∧ d.decodeAt b = .error e := by
  have ha : d.Reached c.tables a := hc.waits a (hp ▸ List.mem_cons_self) hin
  obtain ⟨j, hj, hcontains, rfl⟩ | ⟨i, hi, j, hj, hlt, hstop, rfl⟩ | ⟨e, he, rfl⟩ := visit_error h
  · obtain ⟨hdecode, hreached⟩ := hc.decodes j hj
    have hne := address_ne hnew hj
    simp only [Instruction.contains, Bool.and_eq_true, decide_eq_true_eq] at hcontains
    exact .inl ⟨a, rfl, ha, j.address, j, hreached, hdecode, by omega, hcontains.2⟩
  · exact .inl ⟨j.address, rfl, (hc.decodes j hj).2, a, i, ha, hi, hlt, hstop⟩
  · exact .inr ⟨a, e, rfl, ha, he⟩

end Descent

/-- Every descent either finds the least closed set of addresses, or ends with an address inside of
another instruction or with one at which nothing can be decoded, all of them reached. -/
theorem closes_of_descend (d : DescentInput) :
    (∃ is, (descend d).1 = .ok is ∧ d.Closes is (descend d).2) ∨
      (∃ a, (descend d).1 = .error (.overlap a) ∧ d.Collides (descend d).2 a) ∨
      ∃ a e, (descend d).1 = .error (.decode e) ∧ d.Reached (descend d).2 a ∧
        d.decodeAt a = .error e := by
  obtain ⟨e, he, hp, hrun⟩ | ⟨e, a, rest, err, he, hp, hin, hnew, hv, hrun⟩ :=
    Descent.run_ends Descent.Explores.skip Descent.Explores.visit (Descent.explores_start (d := d))
  · rw [descend, hrun]
    exact .inl ⟨e.decoded, rfl, he.closes hp⟩
  · rw [descend, hrun]
    obtain ⟨b, rfl, hb⟩ | ⟨b, f, rfl, hb, hf⟩ := he.fails hp hin hnew hv
    · exact .inr (.inl ⟨b, rfl, hb⟩)
    · exact .inr (.inr ⟨b, f, rfl, hb, hf⟩)

end BinTrace
