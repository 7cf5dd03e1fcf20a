import BinTrace.Disassembly.Descent
import BinTrace.Text.Name

/-!
The two ways to take a function apart: recursive descent and linear sweep. A sweep takes one
instruction after the other from the first byte to the last. A byte that begins no instruction is
taken as invalid, so the instructions always cover all bytes.
-/

namespace BinTrace

def sweep (w : Width) (bytes : List UInt8) (address : Nat) : List Instruction :=
  match bytes with
  | [] => []
  | b :: rest =>
    let i := decodeOrInvalid w (b :: rest) address
    i :: sweep w (rest.drop (i.size - 1)) i.stop
termination_by bytes.length
decreasing_by simp only [List.length_drop, List.length_cons]; omega

inductive Strategy
  | linear
  | recursive
  deriving DecidableEq

namespace Strategy

def name : Strategy → String
  | linear => "Linear sweep"
  | recursive => "Recursive descent"

/-- Reads a name in letters of either case. -/
def ofName : String → Except UnknownName Strategy :=
  Text.named "strategy" [("linear", linear), ("recursive", recursive)]

/-- The instructions in the order of their addresses, and the jump tables that were found on the
way, also if the way ended in an error. -/
def disassemble (s : Strategy) (input : DescentInput) :
    Except DisassemblyError (List Instruction) × List JumpTable :=
  match s with
  | linear => (.ok (sweep input.width input.bytes input.base), [])
  | recursive => descend input

end Strategy

end BinTrace
