import BinTrace.Encode
import BinTrace.Function.Basic

/-!
Exchanging whole instructions of a function for others that need no more room.
-/

namespace BinTrace

/-- The shortest run of instructions from the front that has at least `needed` bytes, or all. -/
def coveringRun (needed : Nat) : List Instruction → List Instruction
  | [] => []
  | i :: rest => if needed = 0 then [] else i :: coveringRun (needed - i.size) rest

/-- Gives the instructions addresses one behind the other from `a` on. -/
def layOutFrom (a : Nat) : List Instruction → List Instruction
  | [] => []
  | i :: rest => { i with address := a } :: layOutFrom (a + i.size) rest

namespace Function

/-- Replaces the instructions from `a` on that cover the new ones, and fills up with no-ops. Returns
what was removed, and the function. -/
def swap (f : Function) (a : Nat) (replacements : List Instruction) :
    Except SwapFault (List Instruction × Function) := do
  let some g := f.graph | throw .notDigested
  let some number := g.blockContaining? a | throw (.noBlock a)
  let some b := g.block? number | throw (.noBlock a)
  let some start := b.indexAt? a | throw (.splitsInstruction a)
  let needed := totalSize replacements
  let removed := coveringRun needed (b.instructions.drop start)
  let covered := totalSize removed
  if covered < needed then throw (.noRoom covered a needed)
  let incoming := layOutFrom a (replacements ++ Encode.nops (covered - needed))
  let instructions :=
    b.instructions.take start ++ incoming ++ b.instructions.drop (start + removed.length)
  let changed := g.modifyBlock number fun b => { b with instructions }
  return (removed, { f with graph := some changed })

end Function

end BinTrace
