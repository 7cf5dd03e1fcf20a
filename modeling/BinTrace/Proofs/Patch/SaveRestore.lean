import BinTrace.Patch.Trampoline
import BinTrace.Proofs.Outcome
import BinTrace.Proofs.Patch.Machine

/-!
What the code around inserted instructions does to the machine. Entering pushes the registers that
are to be saved and a copy of the flags, and leaving finds them on the stack again, provided that
the code between has left the slots alone and the stack pointer where it was.
-/

namespace BinTrace

open Outcome

variable {w : Width}

namespace Memory

/-- The words lie one behind the other from `a` on. -/
def Stacked (m : Memory w) : Word w → List (Word w) → Prop
  | _, [] => True
  | a, v :: rest => m.load a = v ∧ Stacked m (a + Machine.slot w) rest

/-- Bytes of a number of stack slots. -/
def slotBytes (w : Width) (n : Nat) : Nat := n * w.wordSize

theorem slotBytes_succ (w : Width) (n : Nat) :
    slotBytes w (n + 1) = w.wordSize + slotBytes w n := by
  simp only [slotBytes, Nat.succ_mul]
  omega

/-- So many slots do not wrap around the end of the address space. -/
theorem slotBytes_le {n : Nat} (hn : n ≤ 18) : slotBytes w n ≤ 2 ^ (8 * w.wordSize) := by
  cases w <;> simp only [slotBytes, Width.wordSize] <;> omega

theorem Stacked.of_sameFrom {m m' : Memory w} {a : Word w} {vs : List (Word w)}
    (h : m.Stacked a vs) (hsame : SameFrom a (slotBytes w vs.length) m m') : m'.Stacked a vs := by
  induction vs generalizing a with
  | nil => trivial
  | cons v rest ih =>
      rw [List.length_cons, slotBytes_succ] at hsame
      refine ⟨?_, ih h.2 fun k hk => ?_⟩
      · rw [(hsame.mono (Nat.le_add_right _ _)).load_eq]
        exact h.1
      · have hnext := hsame (w.wordSize + k) (by omega)
        rwa [BitVec.ofNat_add, ← BitVec.add_assoc] at hnext

end Memory

namespace Machine

/-- The words lie on the stack, the first one on top. -/
def Stacked (m : Machine w) (vs : List (Word w)) : Prop := m.memory.Stacked (m.gpr .sp) vs

@[simp] theorem gpr_push_sp (m : Machine w) (v : Word w) :
    (m.push v).gpr .sp = m.gpr .sp - slot w := by
  rw [push, gpr_setGpr_self]

theorem gpr_push_of_ne {r : Gpr} (h : r ≠ .sp) (m : Machine w) (v : Word w) :
    (m.push v).gpr r = m.gpr r := by
  rw [push, gpr_setGpr_of_ne h]

@[simp] theorem flag_push (m : Machine w) (v : Word w) : (m.push v).flag = m.flag := rfl

theorem gpr_drop_of_ne {r : Gpr} (h : r ≠ .sp) (m : Machine w) : m.drop.gpr r = m.gpr r :=
  gpr_setGpr_of_ne h ..

theorem stacked_push {m : Machine w} {vs : List (Word w)} (v : Word w) (h : m.Stacked vs)
    (hn : vs.length < 18) : (m.push v).Stacked (v :: vs) := by
  have hfit := Memory.slotBytes_le (w := w) (n := vs.length + 1) hn
  rw [Memory.slotBytes_succ] at hfit
  rw [Stacked, gpr_push_sp]
  refine ⟨Memory.load_store .., ?_⟩
  rw [BitVec.sub_add_cancel]
  exact h.of_sameFrom (Memory.sameFrom_store _ (by omega))

/-! What the encoded instructions do. -/

theorem wordGpr?_wordOperand (r : Gpr) : wordGpr? w (Encode.wordOperand w r) = some r := by
  cases w <;> cases r <;> rfl

theorem step_push {r : Gpr} {i : Instruction} (h : Encode.push w r = .ok i) (m : Machine w) :
    m.step i = some (m.push (m.gpr r)) := by
  obtain ⟨-, h⟩ := seq_eq_ok.mp h
  cases h
  simp [step, Encode.generated, wordGpr?_wordOperand]

theorem step_pop {r : Gpr} {i : Instruction} (h : Encode.pop w r = .ok i) (m : Machine w) :
    m.step i = some (m.drop.setGpr r m.top) := by
  obtain ⟨-, h⟩ := seq_eq_ok.mp h
  cases h
  simp [step, Encode.generated, wordGpr?_wordOperand]

theorem step_adjustStack {delta : Int} {i : Instruction} (h : Encode.adjustStack w delta = .ok i)
    (m : Machine w) : m.step i = some (m.setGpr .sp (m.gpr .sp + BitVec.ofInt _ delta)) := by
  obtain ⟨⟨bytes, memory⟩, hbytes, h⟩ := bind_eq_ok.mp h
  cases h
  obtain ⟨-, hbytes⟩ := seq_eq_ok.mp hbytes
  obtain ⟨-, hbytes⟩ := seq_eq_ok.mp hbytes
  obtain ⟨⟨form, width⟩, -, hbytes⟩ := bind_eq_ok.mp hbytes
  cases hbytes
  have hbase : wordGpr? w (Operand.ofRegister (Encode.wordRegister w .sp)) = some .sp :=
    wordGpr?_wordOperand .sp
  simp [step, Encode.generated, wordGpr?_wordOperand, baseAddress?, Operand.memory, hbase]

theorem step_pushf (m : Machine w) : m.step Encode.pushf = some (m.push m.flagsWord) := rfl

theorem step_popf (m : Machine w) :
    m.step Encode.popf = some { m.drop with flag := fun f => m.top.getLsbD f.bit } := rfl

theorem step_lahf (m : Machine w) : m.step Encode.lahf = some m.loadAh := rfl

theorem step_sahf (m : Machine w) : m.step Encode.sahf = some m.storeAh := rfl

/-! Runs of pushes and pops. -/

/-- The distance over a number of slots. -/
def slots (w : Width) (n : Nat) : Word w := BitVec.ofNat _ (Memory.slotBytes w n)

@[simp] theorem slots_zero : slots w 0 = 0 := by simp [slots, Memory.slotBytes]

theorem slots_succ (n : Nat) : slots w (n + 1) = slot w + slots w n := by
  rw [slots, Memory.slotBytes_succ, BitVec.ofNat_add, slot, slots]

theorem run_pushes {rs : List Gpr} (hrs : .sp ∉ rs) {is : List Instruction}
    (h : rs.mapM (Encode.push w) = .ok is) {m : Machine w} {vs : List (Word w)} (hm : m.Stacked vs)
    (hn : vs.length + rs.length ≤ 18) :
    ∃ m', m.run is = some m' ∧ m'.Stacked ((rs.map m.gpr).reverse ++ vs) ∧ m'.flag = m.flag ∧
      m'.gpr .sp + slots w rs.length = m.gpr .sp ∧ ∀ r ≠ .sp, m'.gpr r = m.gpr r := by
  induction rs generalizing m vs is with
  | nil =>
      cases h
      exact ⟨m, rfl, hm, rfl, by simp, fun r _ => rfl⟩
  | cons r rest ih =>
      obtain ⟨i, is, hi, his, rfl⟩ := mapM_cons_eq_ok.mp h
      obtain ⟨hr, hrest⟩ := not_or.mp (mt List.mem_cons.mpr hrs)
      rw [List.length_cons] at hn
      obtain ⟨m', hrun, hstack, hflag, hsp, hgpr⟩ := ih hrest his
        (stacked_push (m.gpr r) hm (by omega)) (by rw [List.length_cons]; omega)
      have hsame : rest.map (m.push (m.gpr r)).gpr = rest.map m.gpr := by
        refine List.map_congr_left fun s hs => gpr_push_of_ne (fun hsp => ?_) _ _
        exact hrest (hsp ▸ hs)
      refine ⟨m', ?_, ?_, hflag, ?_, fun s hs => ?_⟩
      · rw [run, step_push hi]
        exact hrun
      · rw [hsame] at hstack
        rw [List.map_cons, List.reverse_cons, List.append_assoc]
        exact hstack
      · rw [List.length_cons, slots_succ, BitVec.add_comm (slot w), ← BitVec.add_assoc, hsp,
          gpr_push_sp, BitVec.sub_add_cancel]
      · rw [hgpr s hs, gpr_push_of_ne hs]

theorem run_pops {rs : List Gpr} (hrs : .sp ∉ rs) {is : List Instruction}
    (h : rs.mapM (Encode.pop w) = .ok is) {m : Machine w} {saved : Gpr → Word w}
    (hm : m.Stacked (rs.map saved)) :
    ∃ m', m.run is = some m' ∧ m'.flag = m.flag ∧ m'.gpr .sp = m.gpr .sp + slots w rs.length ∧
      (∀ r ∈ rs, m'.gpr r = saved r) ∧ ∀ r ∉ rs, r ≠ .sp → m'.gpr r = m.gpr r := by
  induction rs generalizing m is with
  | nil =>
      cases h
      exact ⟨m, rfl, rfl, by simp, by simp, fun r _ _ => rfl⟩
  | cons r rest ih =>
      obtain ⟨i, is, hi, his, rfl⟩ := mapM_cons_eq_ok.mp h
      obtain ⟨hr, hrest⟩ := not_or.mp (mt List.mem_cons.mpr hrs)
      have hsp' : (m.drop.setGpr r m.top).gpr .sp = m.gpr .sp + slot w := by
        rw [gpr_setGpr_of_ne hr, drop, gpr_setGpr_self]
      have hstack : (m.drop.setGpr r m.top).Stacked (rest.map saved) := by
        rw [Stacked, hsp']
        exact hm.2
      obtain ⟨m', hrun, hflag, hsp, hin, hout⟩ := ih hrest his hstack
      refine ⟨m', ?_, hflag, ?_, fun s hs => ?_, fun s hs hne => ?_⟩
      · rw [run, step_pop hi]
        exact hrun
      · rw [hsp, hsp', List.length_cons, slots_succ, BitVec.add_assoc]
      · by_cases hmem : s ∈ rest
        · exact hin s hmem
        · -- The popped register is not popped again behind this instruction.
          obtain rfl : s = r := by simpa [hmem] using hs
          rw [hout s hmem (Ne.symm hr), gpr_setGpr_self]
          exact hm.1
      · obtain ⟨hsr, hmem⟩ := not_or.mp (mt List.mem_cons.mpr hs)
        rw [hout s hmem hne, gpr_setGpr_of_ne hsr, gpr_drop_of_ne hne]

end Machine

namespace FlagsProtection

/-- The copies of the flags of a state that entering puts on the stack. -/
def copies (m : Machine w) : FlagsProtection → List (Word w)
  | none => []
  | light => [m.loadAh.gpr .ax]
  | full => [m.flagsWord]

def slotCount : FlagsProtection → Nat
  | none => 0
  | light | full => 1

/-- A copy depends on the flags and on the register that carries them. -/
theorem copies_congr {m m' : Machine w} (hflag : m'.flag = m.flag) (hax : m'.gpr .ax = m.gpr .ax)
    (p : FlagsProtection) : p.copies m' = p.copies m := by
  cases p <;> simp [copies, Machine.loadAh, Machine.flagsWord, hflag, hax]

open Machine

theorem run_push {p : FlagsProtection} {is : List Instruction} (h : p.push w = .ok is)
    {m : Machine w} {vs : List (Word w)} (hm : m.Stacked vs) (hn : vs.length < 18) :
    ∃ m', m.run is = some m' ∧ m'.Stacked (p.copies m ++ vs) ∧ m'.flag = m.flag ∧
      m'.gpr .sp + slots w p.slotCount = m.gpr .sp ∧
      ∀ r ≠ .sp, (p = .light → r ≠ .ax) → m'.gpr r = m.gpr r := by
  cases p with
  | none =>
      cases h
      exact ⟨m, rfl, hm, rfl, by simp [slotCount], fun r _ _ => rfl⟩
  | light =>
      rw [push, map_eq_ok] at h
      obtain ⟨i, hi, rfl⟩ := h
      have hstack : m.loadAh.Stacked vs := hm
      refine ⟨m.loadAh.push (m.loadAh.gpr .ax), ?_, stacked_push _ hstack hn, rfl, ?_,
        fun r hr hax => ?_⟩
      · simp [run, step_lahf, step_push hi]
      · simp [slotCount, slots_succ, loadAh, gpr_setGpr_of_ne]
      · rw [gpr_push_of_ne hr, loadAh, gpr_setGpr_of_ne (hax rfl)]
  | full =>
      cases h
      refine ⟨m.push m.flagsWord, by simp [run, step_pushf], stacked_push _ hm hn, rfl, ?_,
        fun r hr _ => gpr_push_of_ne hr _ _⟩
      simp [slotCount, slots_succ]

/-- Taking the flags from the stack gives those that this protection preserves their values back,
and leaves the others alone. -/
theorem run_pop {p : FlagsProtection} {is : List Instruction} (h : p.pop w = .ok is)
    {entry m : Machine w} {vs : List (Word w)} (hm : m.Stacked (p.copies entry ++ vs)) :
    ∃ m', m.run is = some m' ∧ m'.Stacked vs ∧ m'.gpr .sp = m.gpr .sp + slots w p.slotCount ∧
      (∀ r ≠ .sp, (p = .light → r ≠ .ax) → m'.gpr r = m.gpr r) ∧
      ∀ f, (p = .full ∨ (p = .light ∧ .flag f ∈ RegSet.lowFlags) → m'.flag f = entry.flag f) ∧
        (p = .none ∨ (p = .light ∧ .flag f ∉ RegSet.lowFlags) → m'.flag f = m.flag f) := by
  cases p with
  | none =>
      cases h
      exact ⟨m, rfl, hm, by simp [slotCount], fun r _ _ => rfl, fun f => by simp⟩
  | light =>
      rw [pop, map_eq_ok] at h
      obtain ⟨i, hi, rfl⟩ := h
      have hsp : (m.drop.setGpr .ax m.top).gpr .sp = m.gpr .sp + slot w := by
        rw [gpr_setGpr_of_ne (by decide), drop, gpr_setGpr_self]
      refine ⟨(m.drop.setGpr .ax m.top).storeAh, ?_, ?_, ?_, fun r hr hax => ?_, fun f => ⟨?_, ?_⟩⟩
      · simp [run, step_pop hi, step_sahf]
      · have hrest := hm.2
        rw [← hsp] at hrest
        exact hrest
      · simp only [slotCount, slots_succ, slots_zero, add_zero]
        exact hsp
      · exact (gpr_setGpr_of_ne (hax rfl) _ _).trans (gpr_drop_of_ne hr m)
      · rintro (hfull | ⟨-, hlow⟩)
        · cases hfull
        · have htop : m.top = entry.loadAh.gpr .ax := hm.1
          simp only [storeAh, hlow, if_true, gpr_setGpr_self, htop]
          exact getLsbD_loadAh entry hlow
      · rintro (hnone | ⟨-, hlow⟩)
        · cases hnone
        · simp [storeAh, hlow, drop]
  | full =>
      cases h
      refine ⟨{ m.drop with flag := fun f => m.top.getLsbD f.bit }, by simp [run, step_popf], ?_, ?_,
        fun r hr _ => gpr_drop_of_ne hr m, fun f => ⟨fun _ => ?_, by simp⟩⟩
      · have hrest : m.drop.Stacked vs := by
          rw [Stacked, drop, gpr_setGpr_self]
          exact hm.2
        exact hrest
      · simp [slotCount, slots_succ, drop]
      · have htop : m.top = entry.flagsWord := hm.1
        simp only [htop, getLsbD_flagsWord]

end FlagsProtection

namespace Protection

open Machine

/-- How many slots entering takes from the stack. -/
def slotCount (p : Protection) : Nat := p.flags.slotCount + p.saves.length

/-- How far the stack pointer is moved. -/
def frame (w : Width) (p : Protection) : Word w :=
  slots w p.flags.slotCount + slots w p.saves.length +
    BitVec.ofInt _ (if p.skipRedZone then redZone else 0)

theorem run_moveStack {p : Protection} {delta : Int} {is : List Instruction}
    (h : p.moveStack w delta = .ok is) (m : Machine w) :
    m.run is = some (m.setGpr .sp (m.gpr .sp + BitVec.ofInt _ (if p.skipRedZone then delta else 0))) := by
  unfold moveStack at h
  split at h
  · obtain ⟨i, hi, rfl⟩ := map_eq_ok.mp h
    simp [run, step_adjustStack hi, *]
  · cases h
    simp [run, setGpr, *]

theorem run_enter {p : Protection} {is : List Instruction} (h : p.enter w = .ok is)
    (hsp : .sp ∉ p.saves) (hn : p.saves.length ≤ 17) (m : Machine w) :
    ∃ m', m.run is = some m' ∧ m'.Stacked (p.flags.copies m ++ (p.saves.map m.gpr).reverse) ∧
      m'.flag = m.flag ∧ m'.gpr .sp + p.frame w = m.gpr .sp ∧
      ∀ r ≠ .sp, (p.flags = .light → r ≠ .ax) → m'.gpr r = m.gpr r := by
  obtain ⟨skip, hskip, h⟩ := bind_eq_ok.mp h
  obtain ⟨saves, hsaves, h⟩ := bind_eq_ok.mp h
  obtain ⟨flags, hflags, h⟩ := bind_eq_ok.mp h
  cases h
  have hrun₁ := run_moveStack hskip m
  generalize hm₁ : m.setGpr .sp _ = m₁ at hrun₁
  have hgpr₁ : ∀ r ≠ .sp, m₁.gpr r = m.gpr r := fun r hr => hm₁ ▸ gpr_setGpr_of_ne hr _ _
  have hsp₁ : m₁.gpr .sp + BitVec.ofInt _ (if p.skipRedZone then redZone else 0) = m.gpr .sp := by
    rw [← hm₁, gpr_setGpr_self]
    split
    · rw [BitVec.ofInt_neg, ← BitVec.sub_eq_add_neg, BitVec.sub_add_cancel]
    · simp
  obtain ⟨m₂, hrun₂, hstack₂, hflag₂, hsp₂, hgpr₂⟩ :=
    run_pushes hsp hsaves (show m₁.Stacked [] from trivial) (by simp; omega)
  have hgpr : ∀ r ≠ .sp, m₂.gpr r = m.gpr r := fun r hr => (hgpr₂ r hr).trans (hgpr₁ r hr)
  have hflag : m₂.flag = m.flag := hflag₂.trans (hm₁ ▸ rfl)
  have hsaved : (p.saves.map m₁.gpr).reverse ++ [] = (p.saves.map m.gpr).reverse := by
    rw [List.append_nil]
    congr 1
    exact List.map_congr_left fun r hr => hgpr₁ r fun heq => hsp (heq ▸ hr)
  rw [hsaved] at hstack₂
  obtain ⟨m₃, hrun₃, hstack₃, hflag₃, hsp₃, hgpr₃⟩ :=
    FlagsProtection.run_push hflags hstack₂ (by rw [List.length_reverse, List.length_map]; omega)
  rw [FlagsProtection.copies_congr hflag (hgpr .ax (by decide))] at hstack₃
  refine ⟨m₃, ?_, hstack₃, hflag₃.trans hflag, ?_,
    fun r hr hax => (hgpr₃ r hr hax).trans (hgpr r hr)⟩
  · simp [run_append, hrun₁, hrun₂, hrun₃]
  · rw [frame, ← BitVec.add_assoc, ← BitVec.add_assoc, hsp₃, hsp₂, hsp₁]

/-- Leaving finds the saved values of the state on entry. -/
theorem run_leave {p : Protection} {is : List Instruction} (h : p.leave w = .ok is)
    (hsp : .sp ∉ p.saves) {entry m : Machine w}
    (hm : m.Stacked (p.flags.copies entry ++ (p.saves.map entry.gpr).reverse)) :
    ∃ m', m.run is = some m' ∧ m'.gpr .sp = m.gpr .sp + p.frame w ∧
      (∀ r ∈ p.saves, m'.gpr r = entry.gpr r) ∧
      (∀ r ∉ p.saves, r ≠ .sp → (p.flags = .light → r ≠ .ax) → m'.gpr r = m.gpr r) ∧
      ∀ f, (p.flags = .full ∨ (p.flags = .light ∧ .flag f ∈ RegSet.lowFlags) →
          m'.flag f = entry.flag f) ∧
        (p.flags = .none ∨ (p.flags = .light ∧ .flag f ∉ RegSet.lowFlags) →
          m'.flag f = m.flag f) := by
  obtain ⟨flags, hflags, h⟩ := bind_eq_ok.mp h
  obtain ⟨saves, hsaves, h⟩ := bind_eq_ok.mp h
  obtain ⟨skip, hskip, h⟩ := bind_eq_ok.mp h
  cases h
  obtain ⟨m₁, hrun₁, hstack₁, hsp₁, hgpr₁, hflag₁⟩ := FlagsProtection.run_pop hflags hm
  rw [← List.map_reverse] at hstack₁
  obtain ⟨m₂, hrun₂, hflag₂, hsp₂, hin₂, hout₂⟩ :=
    run_pops (by simpa using hsp) hsaves hstack₁
  refine ⟨m₂.setGpr .sp (m₂.gpr .sp + BitVec.ofInt _ (if p.skipRedZone then redZone else 0)), ?_,
    ?_, fun r hr => ?_, fun r hr hne hax => ?_, fun f => ?_⟩
  · rw [run_append, run_append, hrun₁, Option.bind_some, hrun₂, Option.bind_some,
      run_moveStack hskip]
  · rw [gpr_setGpr_self, hsp₂, hsp₁, List.length_reverse, frame, ← BitVec.add_assoc,
      ← BitVec.add_assoc]
  · have hne : r ≠ .sp := fun heq => hsp (heq ▸ hr)
    rw [gpr_setGpr_of_ne hne]
    exact hin₂ r (List.mem_reverse.mpr hr)
  · rw [gpr_setGpr_of_ne hne, hout₂ r (by simpa using hr) hne, hgpr₁ r hne hax]
  · rw [flag_setGpr, hflag₂]
    exact hflag₁ f

end Protection

end BinTrace
