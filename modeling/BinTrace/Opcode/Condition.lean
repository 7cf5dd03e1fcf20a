import BinTrace.Register.RegSet

/-!
The sixteen conditions of conditional jumps, moves and byte stores, by their code.
-/

namespace BinTrace.Condition

def suffixes : List String :=
  ["o", "no", "b", "ae", "e", "ne", "be", "a", "s", "ns", "p", "np", "l", "ge", "le", "g"]

/-- The letters that a mnemonic ends with; codes repeat after sixteen. -/
def suffix (code : Nat) : String :=
  (suffixes[code % 16]?).getD ""

/-- The flags that the condition reads; a code and its odd neighbour read the same. -/
def flags (code : Nat) : RegSet :=
  match code % 16 / 2 with
  | 0 => RegSet.ofFlags [.overflow]
  | 1 => RegSet.ofFlags [.carry]
  | 2 => RegSet.ofFlags [.zero]
  | 3 => RegSet.ofFlags [.carry, .zero]
  | 4 => RegSet.ofFlags [.sign]
  | 5 => RegSet.ofFlags [.parity]
  | 6 => RegSet.ofFlags [.sign, .overflow]
  | _ => RegSet.ofFlags [.zero, .sign, .overflow]

def jumpMnemonic (code : Nat) : String := "j" ++ suffix code

end BinTrace.Condition
