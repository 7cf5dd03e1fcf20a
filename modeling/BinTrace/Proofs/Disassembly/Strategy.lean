import BinTrace.Disassembly.Strategy
import BinTrace.Proofs.Decode.Extent
import BinTrace.Proofs.Flow.Build

/-!
What both ways of taking a function apart find: instructions that hold the function's bytes at
their addresses. A linear sweep leaves nothing out, so a graph can always be built from what it
finds; recursive descent may fail, and what it finds may have gaps.
-/

namespace BinTrace

open FlowGraph

/-- The function's bytes at the function's place, from which graphs are built. -/
def DescentInput.source (d : DescentInput) (tables : List JumpTable) : Source :=
  ⟨d.range, d.bytes, tables⟩

variable {d : DescentInput}

/-- The instruction holds the function's bytes at its address, and nothing inserted it. -/
structure DescentInput.Finds (d : DescentInput) (i : Instruction) : Prop where
  holds : ∀ tables, (d.source tables).Holds i
  source_eq : i.source = .application

/-- An instruction that was taken from the function's bytes at `a` holds what lies there. -/
theorem holds_of_take {i : Instruction} {a n : Nat} (ha : i.address = a) (hbase : d.base ≤ a)
    (hn : 1 ≤ n) (hle : n ≤ (d.bytes.drop (a - d.base)).length)
    (hbytes : i.bytes = (d.bytes.drop (a - d.base)).take n) (tables : List JumpTable) :
    (d.source tables).Holds i := by
  have hsize : i.size = n := by
    rw [Instruction.size, hbytes, List.length_take]
    omega
  rw [List.length_drop] at hle
  subst ha
  refine ⟨hbase, ?_, by omega, by rw [hsize]; exact hbytes⟩
  change i.address + i.size ≤ d.base + d.bytes.length
  omega

theorem finds_of_decodeAt {a : Nat} {i : Instruction} (hbase : d.base ≤ a)
    (h : d.decodeAt a = .ok i) : d.Finds i := by
  obtain ⟨ha, hsource, n, hn, -, hle, hbytes⟩ := decode_ok h
  exact ⟨holds_of_take ha hbase hn hle hbytes, hsource⟩

namespace Descent

variable {c : Descent}

theorem mem_insertByAddress {i j : Instruction} {is : List Instruction} :
    j ∈ insertByAddress i is ↔ j = i ∨ j ∈ is := by
  induction is with
  | nil => simp [insertByAddress]
  | cons k rest ih =>
      rw [insertByAddress]
      split
      · simp
      · simp only [List.mem_cons, ih]
        exact or_left_comm

/-- What a visit adds: the instruction at the address, its table if one is found, and where control
may go from there. -/
theorem visit_ok {e : Descent} {a : Nat} {rest : List Nat}
    (h : c.visit d a rest = .ok e) :
    ∃ i found, d.decodeAt a = .ok i ∧ found = (if i.isTableJump then c.table? d i else none) ∧
      e = { decoded := insertByAddress i c.decoded
            pending := successors i found ++ rest
            tables := match found with
              | some t => insertTable t c.tables
              | none => c.tables } := by
  unfold visit at h
  split at h
  · cases h
  · split at h
    · cases h
    · rename_i i hi
      split at h
      · cases h
      · exact ⟨i, _, hi, rfl, (Except.ok.inj h).symm⟩

/-- Every property of a walk that holds at each step holds where the walk ends: either nothing waits
any more, or the visit of the next address fails. -/
theorem run_ends {P : Descent → Prop}
    (hskip : ∀ {c a rest}, P c → c.pending = a :: rest →
      (!d.range.contains a || c.isDecoded a) = true → P { c with pending := rest })
    (hvisit : ∀ {c a rest e}, P c → c.pending = a :: rest → d.range.contains a = true →
      c.isDecoded a = false → c.visit d a rest = .ok e → P e) (hc : P c) :
    (∃ e, P e ∧ e.pending = [] ∧ run d c = (.ok e.decoded, e.tables)) ∨
      ∃ e a rest err, P e ∧ e.pending = a :: rest ∧ d.range.contains a = true ∧
        e.isDecoded a = false ∧ e.visit d a rest = .error err ∧ run d c = (.error err, e.tables) := by
  fun_induction run d c with
  | case1 c hp => exact .inl ⟨c, hc, hp, rfl⟩
  | case2 c a rest hp hs ih => exact ih (hskip hc hp hs)
  | case3 c a rest hp hs err hv =>
      simp only [Bool.or_eq_true, Bool.not_eq_true', not_or, Bool.not_eq_false,
        Bool.not_eq_true] at hs
      exact .inr ⟨c, a, rest, err, hc, hp, hs.1, hs.2, hv, rfl⟩
  | case4 c a rest hp hs next hv ih =>
      simp only [Bool.or_eq_true, Bool.not_eq_true', not_or, Bool.not_eq_false,
        Bool.not_eq_true] at hs
      exact ih (hvisit hc hp hs.1 hs.2 hv)

theorem run_ok {P : Descent → Prop}
    (hskip : ∀ {c a rest}, P c → c.pending = a :: rest →
      (!d.range.contains a || c.isDecoded a) = true → P { c with pending := rest })
    (hvisit : ∀ {c a rest e}, P c → c.pending = a :: rest → d.range.contains a = true →
      c.isDecoded a = false → c.visit d a rest = .ok e → P e) (hc : P c) {is : List Instruction}
    (h : (run d c).1 = .ok is) :
    ∃ e, P e ∧ e.pending = [] ∧ e.decoded = is ∧ e.tables = (run d c).2 := by
  obtain ⟨e, he, hp, hrun⟩ | ⟨e, a, rest, err, -, -, -, -, -, hrun⟩ := run_ends hskip hvisit hc
  · rw [hrun] at h ⊢
    exact ⟨e, he, hp, Except.ok.inj h, rfl⟩
  · rw [hrun] at h
    cases h

theorem finds_of_run (hc : ∀ i ∈ c.decoded, d.Finds i) {is : List Instruction}
    (h : (run d c).1 = .ok is) : ∀ i ∈ is, d.Finds i := by
  have hvisit {c e : Descent} {a : Nat} {rest : List Nat} (hc : ∀ i ∈ c.decoded, d.Finds i)
      (hin : d.range.contains a = true) (hv : c.visit d a rest = .ok e) :
      ∀ i ∈ e.decoded, d.Finds i := by
    obtain ⟨i, found, hi, -, rfl⟩ := visit_ok hv
    have hbase : d.base ≤ a := ((AddressRange.contains_iff _ _).mp hin).1
    intro j hj
    rcases mem_insertByAddress.mp hj with rfl | hj
    · exact finds_of_decodeAt hbase hi
    · exact hc j hj
  obtain ⟨e, he, -, rfl, -⟩ := run_ok (P := fun c => ∀ i ∈ c.decoded, d.Finds i)
    (fun hc _ _ => hc) (fun hc _ hin _ hv => hvisit hc hin hv) hc h
  exact he

end Descent

theorem finds_of_descend {is : List Instruction} (h : (descend d).1 = .ok is) :
    ∀ i ∈ is, d.Finds i :=
  Descent.finds_of_run (by simp) h

/-- From any byte of the function on, a sweep leaves out nothing. -/
theorem sweep_spec (w : Width) (bytes : List UInt8) {a : Nat} (hbase : d.base ≤ a)
    (hbytes : bytes = d.bytes.drop (a - d.base)) :
    Contiguous a (sweep w bytes a) ∧ ∀ i ∈ sweep w bytes a, d.Finds i := by
  fun_induction sweep w bytes a with
  | case1 a => simp [Contiguous]
  | case2 a b rest i ih =>
      obtain ⟨ha, hsource, n, hn, hle, htake⟩ := decodeOrInvalid_cons w b rest a
      change i.bytes = _ at htake
      have hsize : i.size = n := by
        rw [Instruction.size, htake, List.length_take]
        omega
      have hstop : i.stop = a + n := by rw [Instruction.stop, ha, hsize]
      -- What is left behind the instruction is what the function has there.
      have hrest : rest.drop (i.size - 1) = d.bytes.drop (i.stop - d.base) := by
        have hsplit : i.stop - d.base = a - d.base + (n - 1 + 1) := by omega
        rw [hsplit, ← List.drop_drop, ← hbytes, hsize, List.drop_succ_cons]
      obtain ⟨hcontiguous, hfinds⟩ := ih (by omega) hrest
      refine ⟨⟨ha, hcontiguous⟩, fun j hj => ?_⟩
      rcases List.mem_cons.mp hj with rfl | hj
      · rw [hbytes] at hle htake
        exact ⟨holds_of_take ha hbase hn hle htake, hsource⟩
      · exact hfinds j hj

/-- Both ways find instructions that hold the function's bytes at their addresses. -/
theorem finds_of_disassemble {strategy : Strategy} {is : List Instruction}
    (h : (strategy.disassemble d).1 = .ok is) : ∀ i ∈ is, d.Finds i := by
  cases strategy with
  | recursive => exact finds_of_descend h
  | linear =>
      cases h
      exact (sweep_spec d.width d.bytes (Nat.le_refl d.base) (by simp)).2

/-- Once an instruction covers the function, a walk finds no other one. -/
theorem Descent.run_of_covered {i : Instruction}
    (hcovers : ∀ a, d.range.contains a = true → i.contains a = true) {c : Descent}
    (hc : c.decoded = [i]) {is : List Instruction} (h : (run d c).1 = .ok is) : is = [i] := by
  fun_induction run d c with
  | case1 c hp =>
      cases h
      exact hc
  | case2 c a rest hp hs ih => exact ih hc h
  | case3 c a rest hp hs e hv => cases h
  | case4 c a rest hp hs next hv ih =>
      simp only [Bool.or_eq_true, Bool.not_eq_true', not_or, Bool.not_eq_false] at hs
      simp [visit, hc, hcovers a hs.1] at hv

/-- A walk on which nothing is left to be decoded comes to its end. -/
theorem Descent.run_of_settled {c : Descent}
    (hc : ∀ a ∈ c.pending, (!d.range.contains a || c.isDecoded a) = true) :
    run d c = (.ok c.decoded, c.tables) := by
  fun_induction run d c with
  | case1 c hp => rfl
  | case2 c a rest hp hs ih => exact ih fun b hb => hc b (hp ▸ List.mem_cons_of_mem a hb)
  | case3 c a rest hp hs e hv => exact absurd (hc a (hp ▸ List.mem_cons_self)) hs
  | case4 c a rest hp hs next hv ih => exact absurd (hc a (hp ▸ List.mem_cons_self)) hs

/-- The first address is visited, unless there is nothing to decode. -/
theorem descend_eq {i : Instruction} (hi : d.decodeAt d.base = .ok i) (hpos : 0 < d.bytes.length) :
    ∃ found tables, (i.isTableJump = false → found = none ∧ tables = []) ∧ descend d = Descent.run d
      { decoded := [i], pending := Descent.successors i found, tables } := by
  have hin : d.range.contains d.base = true :=
    (AddressRange.contains_iff _ _).mpr ⟨Nat.le_refl _, Nat.lt_add_of_pos_right hpos⟩
  obtain ⟨found, tables, hplain, hvisit⟩ : ∃ found tables,
      (i.isTableJump = false → found = none ∧ tables = []) ∧
        Descent.visit d { pending := [d.base] } d.base [] =
          .ok { decoded := [i], pending := Descent.successors i found, tables } := by
    simp only [Descent.visit, List.any_nil, hi, List.find?_nil, List.append_nil]
    exact ⟨_, _, fun hjump => by simp [hjump], rfl⟩
  refine ⟨found, tables, hplain, ?_⟩
  rw [descend, Descent.run]
  simp only [hin, Descent.isDecoded, List.any_nil, Bool.not_true, Bool.or_self,
    Bool.false_eq_true, dite_false]
  split
  · rename_i hv
    cases hvisit.symm.trans hv
  · rename_i hv
    cases hvisit.symm.trans hv
    rfl

/-- A function that is one instruction is found by recursive descent, unless the instruction sends
control into itself. -/
theorem descend_of_covered {i : Instruction} (hi : d.decodeAt d.base = .ok i)
    (hsize : i.size = d.bytes.length) (hjump : i.isTableJump = false)
    (htarget : ∀ a, i.controlTarget? = some a → d.range.contains a = true → a = d.base) :
    descend d = (.ok [i], []) := by
  obtain ⟨haddress, -, n, hn, -, hle, -⟩ := decode_ok hi
  rw [Nat.sub_self, List.drop_zero] at hle
  obtain ⟨found, tables, hplain, heq⟩ := descend_eq hi (by omega)
  obtain ⟨rfl, rfl⟩ := hplain hjump
  rw [heq]
  refine Descent.run_of_settled fun a ha => ?_
  by_cases hin : d.range.contains a = true
  · rcases List.mem_append.mp ha with ha | ha
    · -- Behind the instruction the function ends.
      split at ha
      · obtain rfl := List.mem_singleton.mp ha
        rw [AddressRange.contains_iff, Instruction.stop, haddress, hsize] at hin
        exact absurd hin.2 (Nat.lt_irrefl _)
      · cases ha
    · have ha : i.controlTarget? = some a := by simpa [hjump, Option.mem_toList] using ha
      simp [Descent.isDecoded, haddress, htarget a ha hin]
  · simp [hin]

/-- Of a function that is one instruction, nothing else is found. -/
theorem disassemble_of_covered {strategy : Strategy} {i : Instruction}
    (hi : d.decodeAt d.base = .ok i) (hsize : i.size = d.bytes.length) {is : List Instruction}
    (h : (strategy.disassemble d).1 = .ok is) : is = [i] := by
  obtain ⟨haddress, -, n, hn, -, hle, hbytes⟩ := decode_ok hi
  rw [Nat.sub_self, List.drop_zero] at hle hbytes
  have hpos : 0 < d.bytes.length := by omega
  have hcovers : ∀ a, d.range.contains a = true → i.contains a = true := by
    intro a ha
    rw [AddressRange.contains_iff] at ha
    simp only [DescentInput.range] at ha
    simp only [Instruction.contains, Instruction.stop, haddress, hsize, Bool.and_eq_true,
      decide_eq_true_eq]
    exact ha
  cases strategy with
  | recursive =>
      -- The first visit finds the instruction, and every later one meets a byte inside of it.
      obtain ⟨found, tables, -, heq⟩ := descend_eq hi hpos
      change (descend d).1 = .ok is at h
      rw [heq] at h
      exact Descent.run_of_covered hcovers rfl h
  | linear =>
      obtain ⟨b, rest, hcons⟩ := List.exists_cons_of_length_pos hpos
      have hfirst : decodeOrInvalid d.width (b :: rest) d.base = i := by
        have hdecode : decode d.width (b :: rest) d.base = .ok i := by
          rw [← hcons]
          simpa [DescentInput.decodeAt] using hi
        rw [decodeOrInvalid, hdecode]
      have hrest : rest.drop (i.size - 1) = [] := by
        rw [hsize, hcons, List.length_cons, Nat.add_sub_cancel, List.drop_length]
      cases h
      change sweep d.width d.bytes d.base = [i]
      rw [hcons, sweep, hfirst, hrest, sweep]

end BinTrace
