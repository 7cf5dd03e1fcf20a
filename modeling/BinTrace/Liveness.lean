import BinTrace.Flow.Graph

/-!
Which registers and flags are live around each instruction: read on some path before they are
written. Where control leaves the function other than through a return everything counts as live.
-/

namespace BinTrace

/-- One instruction of the analysis. -/
structure LivenessNode where
  address : Nat
  uses : RegSet
  defs : RegSet
  /-- Positions of the instructions that may be next. -/
  next : List Nat
  /-- What is live behind the instruction whatever comes next. -/
  boundary : RegSet

structure LivenessEntry where
  address : Nat
  liveIn : RegSet
  liveOut : RegSet

/-- The result for each instruction, in the order of the graph. -/
structure Liveness where
  entries : List LivenessEntry
  passes : Nat

namespace Liveness

/-- Positions of the first instructions of blocks, of which the first block's is `n`. -/
def firstPositions (n : Nat) : List Block → List Nat
  | [] => []
  | b :: rest => n :: firstPositions (n + b.instructions.length) rest

/-- Control may go on from the block to somewhere that is not known. -/
def leavesOpen (b : Block) : Bool :=
  !(b.instructions.getLast?.map Instruction.isReturn).getD false &&
    (b.flags.isExit || b.succs.isEmpty)

/-- The nodes of a block whose first instruction has position `n`; `starts` has the positions for
all blocks. -/
def blockNodes (starts : Array Nat) (b : Block) (n : Nat) : List Instruction → List LivenessNode
  | [] => []
  | [i] => [⟨i.address, i.uses, i.defs, b.succs.map fun s => starts.getD s 0,
      if leavesOpen b then RegSet.full else ∅⟩]
  | i :: rest => ⟨i.address, i.uses, i.defs, [n + 1], ∅⟩ :: blockNodes starts b (n + 1) rest

def nodes (g : FlowGraph) : List LivenessNode :=
  let starts := firstPositions 0 g.blocks
  let table := starts.toArray
  (g.blocks.zip starts).flatMap fun (b, n) => blockNodes table b n b.instructions

/-- Live sets of all positions, while they are being computed. -/
structure Sets where
  ins : Array RegSet
  outs : Array RegSet

def outOf (ins : Array RegSet) (node : LivenessNode) : RegSet :=
  node.next.foldl (fun set n => set ∪ ins.getD n ∅) node.boundary

def inOf (node : LivenessNode) (out : RegSet) : RegSet := node.uses ∪ (out \ node.defs)

/-- Recomputes one position; tells whether anything changed there or before. -/
def update (state : Sets × Bool) (node : LivenessNode) (position : Nat) : Sets × Bool :=
  let (sets, changed) := state
  let out := outOf sets.ins node
  let live := inOf node out
  if out = sets.outs.getD position ∅ ∧ live = sets.ins.getD position ∅ then (sets, changed)
  else (⟨sets.ins.setIfInBounds position live, sets.outs.setIfInBounds position out⟩, true)

def pass (nodes : List LivenessNode) (sets : Sets) : Sets × Bool :=
  nodes.zipIdx.foldr (fun (node, position) state => update state node position) (sets, false)

/-- Passes until one changes nothing. A pass that changes something adds a member to some set, so
`fuel` may be the number of members that all sets have room for. -/
def iterate (nodes : List LivenessNode) : Nat → Nat → Sets → Sets × Nat
  | 0, passes, sets => (sets, passes)
  | fuel + 1, passes, sets =>
    let (next, changed) := pass nodes sets
    if changed then iterate nodes fuel (passes + 1) next else (next, passes + 1)

/-- Room for members in all sets of the analysis. -/
def capacity (nodes : List LivenessNode) : Nat := 2 * Cell.all.length * nodes.length

def analyze (g : FlowGraph) : Liveness :=
  let nodes := nodes g
  let start : Sets :=
    ⟨(nodes.map fun _ => (∅ : RegSet)).toArray, (nodes.map LivenessNode.boundary).toArray⟩
  let (sets, passes) := iterate nodes (capacity nodes + 1) 0 start
  { entries := nodes.zipIdx.map fun (node, n) =>
      ⟨node.address, sets.ins.getD n ∅, sets.outs.getD n ∅⟩
    passes }

def at? (l : Liveness) (a : Nat) : Option LivenessEntry := l.entries.find? fun e => e.address = a

def liveAt? (l : Liveness) (a : Nat) (location : Location) : Option RegSet :=
  match location with
  | .before | .replace => (l.at? a).map LivenessEntry.liveIn
  | .after => (l.at? a).map LivenessEntry.liveOut

/-- What is live there, or everything if nothing is known about the address. -/
def liveAt (l : Liveness) (a : Nat) (location : Location) : RegSet :=
  (l.liveAt? a location).getD RegSet.full

/-- What inserted code must preserve of what it writes. -/
def protectSet (l : Liveness) (a : Nat) (location : Location) (defs : RegSet) : RegSet :=
  l.liveAt a location ∩ defs

end Liveness

/-- Steps to the first of `left` instructions that reads a member of `pending`; a member that is
overwritten on the way is dropped. -/
def stepsToUse? (pending : RegSet) (step left : Nat) (is : List Instruction) : Option Nat :=
  match left, is with
  | left + 1, i :: rest =>
    if i.uses ∩ pending ≠ ∅ then some step
    else
      let pending := pending \ i.defs
      if pending = ∅ then none else stepsToUse? pending (step + 1) left rest
  | _, _ => none

/-- For each instruction of a loop that writes a register other than the stack pointer, the number
of steps round the loop to the nearest read of a value that it wrote. -/
def defUseDistances (g : FlowGraph) (l : Loop) : List (Nat × Nat) :=
  let blocks := g.blocks.toArray
  let body := l.blocks.flatMap fun n => ((blocks[n]?).map Block.instructions).getD []
  let twice := body ++ body
  body.zipIdx.filterMap fun (i, p) =>
    let pending := i.defs.onlyGprs.erase (.gpr .sp)
    if pending = ∅ then none
    else (stepsToUse? pending 1 body.length (twice.drop (p + 1))).map fun d => (i.address, d)

end BinTrace
