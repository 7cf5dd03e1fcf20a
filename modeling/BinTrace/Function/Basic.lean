import BinTrace.Disassembly.Strategy
import BinTrace.Flow.Loops
import BinTrace.Liveness

/-!
A function of the program: its name and bytes, and once it has been digested, its flow graph.
-/

namespace BinTrace

structure Function where
  name : String
  base : Nat
  bytes : List UInt8
  graph : Option FlowGraph := none
  /-- The way in which the instructions of the graph were found. -/
  strategy : Option Strategy := none
  /-- Where recursive descent failed. -/
  badAddress : Option Nat := none

namespace Function

/-- Size in bytes as the function is laid out now. -/
def size (f : Function) : Nat := (f.graph.map FlowGraph.size).getD f.bytes.length

def range (f : Function) : AddressRange := ⟨f.base, f.size⟩

def stop (f : Function) : Nat := f.base + f.size

def instructions (f : Function) : List Instruction := (f.graph.map FlowGraph.instructions).getD []

/-- Bytes of the function as it is laid out now. -/
def dump (f : Function) : List UInt8 := (f.graph.map FlowGraph.dump).getD f.bytes

def check (f : Function) : Except DisassemblyError Unit :=
  match f.graph with
  | some g => g.check.mapError .layout
  | none => .ok ()

/-- What digesting looks at besides the function. -/
structure Surroundings where
  width : Width
  image : Option Image := none
  reach : Nat := JumpTable.defaultReach

def descentInput (f : Function) (s : Surroundings) : DescentInput :=
  { width := s.width, bytes := f.bytes, base := f.base, image := s.image, reach := s.reach }

/-- The graph from one way of finding instructions, and the tables found with them. -/
def graphBy (f : Function) (s : Surroundings) (strategy : Strategy) :
    Except DisassemblyError FlowGraph × List JumpTable :=
  let (found, tables) := strategy.disassemble (f.descentInput s)
  let source : FlowGraph.Source := ⟨⟨f.base, f.bytes.length⟩, f.bytes, tables⟩
  (found.bind (FlowGraph.build source), tables)

/-- Finds instructions, graph and loops: by recursive descent, or if that fails by a linear sweep,
and then the place of the failure is kept. The result is the jump tables. -/
def digest (s : Surroundings) : EStateM DisassemblyError Function (List JumpTable) := do
  let f ← get
  match f.graphBy s .recursive with
  | (.ok g, tables) =>
    set { f with graph := some g.setLoops, strategy := some .recursive }
    return tables
  | (.error e, _) =>
    set { f with badAddress := some (e.address?.getD f.base) }
    match f.graphBy s .linear with
    | (.ok g, tables) =>
      modify fun f => { f with graph := some g.setLoops, strategy := some .linear }
      return tables
    | (.error e, _) => throw e

def isLeaf (f : Function) : Bool := !f.instructions.any Instruction.isCall

/-- Some call of the function has its target in `[low, high)`. -/
def callsInto (f : Function) (low high : Nat) : Bool :=
  ((f.graph.map FlowGraph.blocks).getD []).any fun b => b.callsInto low high

/-- An instruction other than a transfer of control refers to the function's own bytes. -/
def refersInside (f : Function) (i : Instruction) : Bool :=
  !i.isControl && i.relativeTarget?.any f.range.contains

/-- The function can be moved and changed: all of it was found by recursive descent, no call leads
behind its first byte, and no data lies in its range. -/
def isComplete (f : Function) : Bool :=
  f.graph.isSome && f.badAddress.isNone && !f.callsInto (f.base + 1) f.stop &&
    f.instructions.all fun i => !i.isInvalid && !f.refersInside i

/-- What is live in the function as it is now; nothing is known before it has been digested. -/
def liveness (f : Function) : Liveness :=
  match f.graph with
  | some g => Liveness.analyze g
  | none => ⟨[], 0⟩

def patchStart? (f : Function) (a size : Nat) (location : Location) : Option Nat := do
  let g ← f.graph
  let b ← g.block? (← g.blockContaining? a)
  b.patchStart? a size location

end Function

end BinTrace
