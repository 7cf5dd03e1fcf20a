/-!
General purpose registers and the tracked flags, numbered as instructions and the flags word
number them.
-/

namespace BinTrace

inductive Gpr
  | ax | cx | dx | bx | sp | bp | si | di
  | r8 | r9 | r10 | r11 | r12 | r13 | r14 | r15
  deriving DecidableEq

namespace Gpr

def all : List Gpr :=
  [ax, cx, dx, bx, sp, bp, si, di, r8, r9, r10, r11, r12, r13, r14, r15]

/-- The number that an encoding gives the register. -/
def index : Gpr → Nat
  | ax => 0 | cx => 1 | dx => 2 | bx => 3 | sp => 4 | bp => 5 | si => 6 | di => 7
  | r8 => 8 | r9 => 9 | r10 => 10 | r11 => 11 | r12 => 12 | r13 => 13 | r14 => 14 | r15 => 15

def ofIndex? (n : Nat) : Option Gpr :=
  all[n]?

/-- The part of the number that fits into a ModRM field. -/
def low3 (r : Gpr) : Nat :=
  r.index % 8

/-- The registers `r8` to `r15`, which only a REX bit can name. -/
def isExtended (r : Gpr) : Bool :=
  8 ≤ r.index

theorem mem_all (r : Gpr) : r ∈ all := by
  cases r <;> decide

theorem ofIndex?_index (r : Gpr) : ofIndex? r.index = some r := by
  cases r <;> rfl

theorem index_lt (r : Gpr) : r.index < 16 := by
  cases r <;> decide

end Gpr

inductive Flag
  | carry | parity | adjust | zero | sign | trap | interrupt | direction | overflow
  deriving DecidableEq

namespace Flag

def all : List Flag :=
  [carry, parity, adjust, zero, sign, trap, interrupt, direction, overflow]

/-- Position among the tracked flags. -/
def index : Flag → Nat
  | carry => 0 | parity => 1 | adjust => 2 | zero => 3 | sign => 4
  | trap => 5 | interrupt => 6 | direction => 7 | overflow => 8

/-- The bit of the flags word that holds the flag. -/
def bit : Flag → Nat
  | carry => 0 | parity => 2 | adjust => 4 | zero => 6 | sign => 7
  | trap => 8 | interrupt => 9 | direction => 10 | overflow => 11

def name : Flag → String
  | carry => "CF" | parity => "PF" | adjust => "AF" | zero => "ZF" | sign => "SF"
  | trap => "TF" | interrupt => "IF" | direction => "DF" | overflow => "OF"

theorem mem_all (f : Flag) : f ∈ all := by
  cases f <;> decide

theorem index_lt (f : Flag) : f.index < 9 := by
  cases f <;> decide

end Flag

end BinTrace
