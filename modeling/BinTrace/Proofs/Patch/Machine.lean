import BinTrace.Instruction.Basic
import BinTrace.LittleEndian
import Mathlib.Data.BitVec
import Mathlib.Algebra.Group.Basic
import Mathlib.Logic.Function.Basic

/-!
A machine for the code that saves and restores: general purpose registers, the tracked flags, and
memory in bytes. It executes pushes and pops, the instructions that copy the flags, and address
computations; of inserted code it is only known what the code may write.
-/

namespace BinTrace

/-- The value of a general purpose register or of a stack slot. -/
abbrev Word (w : Width) := BitVec (8 * w.wordSize)

abbrev Memory (w : Width) := Word w → UInt8

namespace Memory

variable {w : Width}

/-- The word that begins at an address. -/
def load (m : Memory w) (a : Word w) : Word w :=
  BitVec.ofNat _ (LittleEndian.value
    ((List.range w.wordSize).map fun n => m (a + BitVec.ofNat _ n)))

/-- Writes a word over the bytes from an address on. -/
def store (m : Memory w) (a v : Word w) : Memory w := fun x =>
  (LittleEndian.bytesOf w.wordSize v.toNat)[(x - a).toNat]?.getD (m x)

/-- The next `n` bytes from `a` on are the same in both. -/
def SameFrom (a : Word w) (n : Nat) (m m' : Memory w) : Prop :=
  ∀ k < n, m' (a + BitVec.ofNat _ k) = m (a + BitVec.ofNat _ k)

theorem SameFrom.mono {a : Word w} {k n : Nat} {m m' : Memory w} (hkn : k ≤ n)
    (h : SameFrom a n m m') : SameFrom a k m m' :=
  fun j hj => h j (Nat.lt_of_lt_of_le hj hkn)

theorem SameFrom.load_eq {a : Word w} {m m' : Memory w} (h : SameFrom a w.wordSize m m') :
    m'.load a = m.load a := by
  have hbytes : (List.range w.wordSize).map (fun n => m' (a + BitVec.ofNat _ n)) =
      (List.range w.wordSize).map fun n => m (a + BitVec.ofNat _ n) :=
    List.map_congr_left fun n hn => h n (List.mem_range.mp hn)
  rw [load, hbytes, load]

theorem lt_two_pow_of_lt_wordSize {n : Nat} (hn : n < w.wordSize) : n < 2 ^ (8 * w.wordSize) :=
  calc n < w.wordSize := hn
    _ ≤ 8 * w.wordSize := by omega
    _ < 2 ^ (8 * w.wordSize) := Nat.lt_two_pow_self

theorem load_store (m : Memory w) (a v : Word w) : (m.store a v).load a = v := by
  have hbytes : (List.range w.wordSize).map (fun n => m.store a v (a + BitVec.ofNat _ n)) =
      LittleEndian.bytesOf w.wordSize v.toNat := by
    refine List.ext_getElem (by simp [LittleEndian.length_bytesOf]) fun n hn hn' => ?_
    have hword : n < w.wordSize := by simpa using hn
    have hoffset : (a + BitVec.ofNat (8 * w.wordSize) n - a).toNat = n := by
      rw [BitVec.add_comm, BitVec.add_sub_cancel, BitVec.toNat_ofNat]
      exact Nat.mod_eq_of_lt (lt_two_pow_of_lt_wordSize hword)
    rw [List.getElem_map, List.getElem_range, store, hoffset, List.getElem?_eq_getElem hn']
    rfl
  have hpow : (256 : Nat) ^ w.wordSize = 2 ^ (8 * w.wordSize) := by
    rw [Nat.pow_mul]
  rw [load, hbytes, LittleEndian.value_bytesOf, hpow, Nat.mod_eq_of_lt v.isLt, BitVec.ofNat_toNat,
    BitVec.setWidth_eq]

/-- Storing a word below the next `n` bytes leaves these bytes alone, unless they wrap around. -/
theorem sameFrom_store {a v : Word w} {n : Nat} (m : Memory w)
    (hn : n + w.wordSize ≤ 2 ^ (8 * w.wordSize)) :
    SameFrom a n m (m.store (a - BitVec.ofNat _ w.wordSize) v) := by
  intro k hk
  have hoffset : (a + BitVec.ofNat (8 * w.wordSize) k -
      (a - BitVec.ofNat (8 * w.wordSize) w.wordSize)).toNat = k + w.wordSize := by
    have hsum : a + BitVec.ofNat (8 * w.wordSize) k -
        (a - BitVec.ofNat (8 * w.wordSize) w.wordSize) =
          BitVec.ofNat (8 * w.wordSize) (k + w.wordSize) := by
      rw [BitVec.ofNat_add]
      exact add_sub_sub_cancel _ _ _
    rw [hsum, BitVec.toNat_ofNat]
    exact Nat.mod_eq_of_lt (by omega)
  rw [store, hoffset, List.getElem?_eq_none (by rw [LittleEndian.length_bytesOf]; omega)]
  rfl

end Memory

structure Machine (w : Width) where
  gpr : Gpr → Word w
  flag : Flag → Bool
  memory : Memory w

namespace Machine

variable {w : Width}

/-- The size of a stack slot. -/
def slot (w : Width) : Word w := BitVec.ofNat _ w.wordSize

/-- The flags word with the given flags; its bit 1 is always set. -/
def wordOfFlags (flag : Flag → Bool) : List Flag → Word w
  | [] => 2
  | f :: rest => (if flag f then BitVec.twoPow _ f.bit else 0) ||| wordOfFlags flag rest

def flagsWord (m : Machine w) : Word w := wordOfFlags m.flag Flag.all

def setGpr (m : Machine w) (r : Gpr) (v : Word w) : Machine w :=
  { m with gpr := Function.update m.gpr r v }

def push (m : Machine w) (v : Word w) : Machine w :=
  { m.setGpr .sp (m.gpr .sp - slot w) with memory := m.memory.store (m.gpr .sp - slot w) v }

/-- The word on top of the stack. -/
def top (m : Machine w) : Word w := m.memory.load (m.gpr .sp)

/-- The stack pointer behind the topmost word. -/
def drop (m : Machine w) : Machine w := m.setGpr .sp (m.gpr .sp + slot w)

/-- The part of a word that `ah` is of `ax`. -/
def highByte (w : Width) : Word w := (BitVec.allOnes 8).setWidth _ <<< 8

/-- Sets `ah` to the low byte of the flags word. -/
def loadAh (m : Machine w) : Machine w :=
  m.setGpr .ax ((m.gpr .ax &&& ~~~highByte w) ||| ((m.flagsWord <<< 8) &&& highByte w))

/-- Sets the low flags from `ah`. -/
def storeAh (m : Machine w) : Machine w :=
  { m with flag := fun f =>
      if .flag f ∈ RegSet.lowFlags then (m.gpr .ax).getLsbD (8 + f.bit) else m.flag f }

/-- The general purpose register of full width that an operand names. -/
def wordGpr? (w : Width) (o : Operand) : Option Gpr :=
  o.register?.bind fun r => if r.size = w.wordSize then r.gpr? else none

/-- The address that a memory operand forms from a base register alone. -/
def baseAddress? (m : Machine w) (o : Operand) : Option (Word w) :=
  match o.kind with
  | .memory ⟨some base, none, _, false⟩ =>
    (wordGpr? w (Operand.ofRegister base)).map fun r => m.gpr r + BitVec.ofInt _ o.value
  | _ => none

/-- What an instruction does that saves or restores. -/
def step (m : Machine w) (i : Instruction) : Option (Machine w) :=
  match i.mnemonic, i.operands with
  | "push", [o] => (wordGpr? w o).map fun r => m.push (m.gpr r)
  | "pop", [o] => (wordGpr? w o).map fun r => m.drop.setGpr r m.top
  | "pushf", [] => some (m.push m.flagsWord)
  | "popf", [] => some { m.drop with flag := fun f => m.top.getLsbD f.bit }
  | "lahf", [] => some m.loadAh
  | "sahf", [] => some m.storeAh
  | "lea", [o, source] =>
    (wordGpr? w o).bind fun r => (m.baseAddress? source).map fun a => m.setGpr r a
  | _, _ => none

/-- Executes one instruction after the other. -/
def run (m : Machine w) : List Instruction → Option (Machine w)
  | [] => some m
  | i :: rest => (m.step i).bind fun next => next.run rest

/-- The value of a register or flag. -/
def Agrees (m m' : Machine w) : Cell → Prop
  | .gpr r => m'.gpr r = m.gpr r
  | .flag f => m'.flag f = m.flag f

/-- Instructions of which only their writes are known have led from one state to another. Between
them the stack pointer may be anywhere, and memory may change. -/
inductive Inserted : List Instruction → Machine w → Machine w → Prop
  | nil (m : Machine w) : Inserted [] m m
  | cons {i : Instruction} {rest : List Instruction} {m m' m'' : Machine w}
      (writes : ∀ c ∉ i.defs, c ≠ .gpr .sp → m.Agrees m' c) (next : Inserted rest m' m'') :
      Inserted (i :: rest) m m''

/-- Nothing that the code does not write changes, the stack pointer apart. -/
theorem Inserted.agrees {is : List Instruction} {m m' : Machine w} (h : Inserted is m m') {c : Cell}
    (hc : ∀ i ∈ is, c ∉ i.defs) (hsp : c ≠ .gpr .sp) : m.Agrees m' c := by
  induction h with
  | nil m => cases c <;> rfl
  | cons writes next ih =>
      have hhead := writes c (hc _ List.mem_cons_self) hsp
      have hrest := ih fun i hi => hc i (List.mem_cons_of_mem _ hi)
      cases c with
      | gpr r => exact hrest.trans hhead
      | flag f => exact hrest.trans hhead

theorem run_append (m : Machine w) (is js : List Instruction) :
    m.run (is ++ js) = (m.run is).bind fun next => next.run js := by
  induction is generalizing m with
  | nil => rfl
  | cons i rest ih =>
      simp only [List.cons_append, run, ih, Option.bind_assoc]

@[simp] theorem gpr_setGpr_self (m : Machine w) (r : Gpr) (v : Word w) : (m.setGpr r v).gpr r = v :=
  Function.update_self ..

theorem gpr_setGpr_of_ne {r s : Gpr} (h : s ≠ r) (m : Machine w) (v : Word w) :
    (m.setGpr r v).gpr s = m.gpr s :=
  Function.update_of_ne h ..

@[simp] theorem flag_setGpr (m : Machine w) (r : Gpr) (v : Word w) :
    (m.setGpr r v).flag = m.flag := rfl

@[simp] theorem memory_setGpr (m : Machine w) (r : Gpr) (v : Word w) :
    (m.setGpr r v).memory = m.memory := rfl

theorem getLsbD_wordOfFlags (flag : Flag → Bool) (fs : List Flag) {n : Nat} (hn : n ≠ 1)
    (hlt : n < 8 * w.wordSize) :
    (wordOfFlags flag fs : Word w).getLsbD n = fs.any fun f => flag f && f.bit = n := by
  induction fs with
  | nil =>
      have htwo : (2 : Word w) = BitVec.twoPow _ 1 := by cases w <;> rfl
      simp [wordOfFlags, htwo, BitVec.getLsbD_twoPow, hn.symm]
  | cons f rest ih =>
      have hbit : (if flag f then BitVec.twoPow (8 * w.wordSize) f.bit else 0).getLsbD n =
          (flag f && f.bit = n) := by
        cases flag f <;> simp [hlt]
        omega
      rw [wordOfFlags, BitVec.getLsbD_or, hbit, ih, List.any_cons]

/-- The flags word holds every flag at its bit. -/
theorem getLsbD_flagsWord (m : Machine w) (f : Flag) : m.flagsWord.getLsbD f.bit = m.flag f := by
  have hne : f.bit ≠ 1 := by cases f <;> decide
  have hlt : f.bit < 8 * w.wordSize := by cases w <;> cases f <;> decide
  rw [flagsWord, getLsbD_wordOfFlags _ _ hne hlt]
  cases f <;> simp [Flag.all, Flag.bit]

/-- A low flag goes through `ah` unchanged. -/
theorem getLsbD_loadAh (m : Machine w) {f : Flag} (hf : .flag f ∈ RegSet.lowFlags) :
    (m.loadAh.gpr .ax).getLsbD (8 + f.bit) = m.flag f := by
  have hbit : f.bit < 8 := by
    revert hf
    cases f <;> decide
  have hlt : 8 + f.bit < 8 * w.wordSize := by cases w <;> simp only [Width.wordSize] <;> omega
  have hlow : ¬ 8 + f.bit < 8 := by omega
  have hmask : (highByte w).getLsbD (8 + f.bit) = true := by
    have hinner : f.bit < 8 * w.wordSize := by omega
    simp only [highByte, BitVec.getLsbD_shiftLeft, BitVec.getLsbD_setWidth, BitVec.getLsbD_allOnes,
      hlt, hlow, hinner, hbit, Nat.add_sub_cancel_left]
    decide
  have hshift : (m.flagsWord <<< 8).getLsbD (8 + f.bit) = m.flag f := by
    simp only [BitVec.getLsbD_shiftLeft, hlt, hlow, Nat.add_sub_cancel_left, m.getLsbD_flagsWord f]
    simp
  rw [loadAh, gpr_setGpr_self, BitVec.getLsbD_or, BitVec.getLsbD_and, BitVec.getLsbD_and,
    BitVec.getLsbD_not, hmask, hshift]
  simp

end Machine

end BinTrace
