import BinTrace.Patch.PatchSet
import BinTrace.Program.Digest

/-!
Inserting a call at every basic block of a program's text.
-/

namespace BinTrace

/-- The text of a program with jumps in it, and the region that they lead to. -/
structure InstrumentedText where
  textBase : Nat
  text : List UInt8
  regionBase : Nat
  region : List UInt8
  placed : Nat
  dropped : Nat

/-- What to call at each block, and where. -/
structure BlockCall where
  target : Nat
  location : Location

namespace PatchSet

def addCall (s : PatchSet) (c : BlockCall) (b : Block) : PatchSet :=
  s.add { address := b.address, location := c.location, code := { body := .call c.target } }

end PatchSet

namespace DigestedProgram

/-- Blocks that execution may reach and that are not padding. -/
def isLive (b : Block) : Bool := !b.flags.isUnreachable && !b.flags.isPadding

/-- Places the calls of the functions in turn. -/
def instrumentAll (c : BlockCall) :
    List Function → Nat → PatchSet → Except ProgramError (Nat × PatchSet)
  | [], placed, s => .ok (placed, s)
  | f :: rest, placed, s =>
    match f.graph with
    | none => instrumentAll c rest placed s
    | some g =>
      match (PatchSet.instrument f f.liveness).run ((g.blocks.filter isLive).foldl (·.addCall c) s) with
      | .ok n s => instrumentAll c rest (placed + n) s
      | .error e _ => .error (.instrument f.name e)

/-- Inserts the call at every block of the functions in the text; the region lies behind all
sections unless `regionBase` is given. -/
def instrument (p : DigestedProgram) (c : BlockCall) (regionBase : Option Nat) :
    Except ProgramError InstrumentedText := do
  let some text := p.program.text? | throw .noText
  let some bytes := p.image.read text.address text.size | throw .absentText
  let base := regionBase.getD p.program.regionBase
  let functions := p.functions.filter fun f => text.range.contains f.base
  let (placed, patches) ← instrumentAll c functions 0 { width := p.width, regionBase := base }
  let dump := patches.dump bytes text.address
  match dump.region with
  | .error e => throw (.dump e)
  | .ok region =>
    return { textBase := text.address, text := dump.text, regionBase := base, region, placed,
             dropped := dump.patches.dropped }

end DigestedProgram

end BinTrace
