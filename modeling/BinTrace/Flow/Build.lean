import BinTrace.Flow.Graph
import BinTrace.Flow.Reach
import BinTrace.JumpTable

/-!
Building a flow graph from the instructions of a function. A block starts where control can arrive:
at the first instruction, behind a gap or a transfer of control, and at targets inside the
function.
-/

namespace BinTrace.FlowGraph

structure Source where
  range : AddressRange
  bytes : List UInt8
  /-- Tables of indirect jumps. Of two tables for one jump the later one counts. -/
  tables : List JumpTable

namespace Source

def table? (s : Source) (i : Instruction) : Option JumpTable :=
  s.tables.reverse.find? fun t => t.branch = i.address

/-- Two instructions that follow each other in the order of addresses do not collide. -/
def checkOrder : List Instruction → Except DisassemblyError Unit
  | i :: j :: rest =>
    if i.address = j.address then .error (.duplicateAddress j.address)
    else if j.address < i.stop then .error (.overlap j.address)
    else checkOrder (j :: rest)
  | _ => .ok ()

def checkInside (s : Source) (is : List Instruction) : Except DisassemblyError Unit :=
  match is.find? fun i => i.address < s.range.base || s.range.stop < i.stop with
  | some i => .error (.layout (.strayInstruction i.address s.range.base s.range.stop))
  | none => .ok ()

/-- Addresses inside the function to which an instruction sends control, and the address behind it
if control may turn away. -/
def leadersAfter (s : Source) (i : Instruction) : List Nat :=
  (if i.isControl || !i.fallsThrough then [i.stop] else []) ++
    (i.controlTarget?.toList ++ ((s.table? i).map JumpTable.targets).getD []).filter
      s.range.contains

/-- Blocks begin at the leaders and behind gaps. -/
def splitBlocks (s : Source) (is : List Instruction) : List (List Instruction) :=
  let leaders := is.flatMap s.leadersAfter
  is.splitBy fun i j => i.stop = j.address && !leaders.contains j.address

/-- Addresses to which control can go from the last instruction of a block: the one behind it, the
targets of its table, or its own target inside the function. -/
def targets (s : Source) (last : Instruction) : List Nat :=
  (if last.fallsThrough then [last.stop] else []) ++
    match s.table? last with
    | some t => t.targets
    | none => last.controlTarget?.toList.filter s.range.contains

/-- Control can leave the function behind a block that ends with this instruction; `isStart` tells
the starts of blocks. -/
def leaves (s : Source) (isStart : Nat → Bool) (last : Instruction) : Bool :=
  last.isReturn ||
    match s.table? last with
    | some t => t.targets.any fun a => !isStart a
    | none =>
      last.isBranch &&
        match last.controlTarget? with
        | some a => !s.range.contains a
        | none => true

def startOf (is : List Instruction) : Nat := (is.head?.map Instruction.address).getD 0

/-- The block of a run of instructions; `starts` are the addresses of all blocks with their
numbers. -/
def block (s : Source) (starts : List (Nat × Nat)) (is : List Instruction) : Block :=
  let isPadding := is.all Instruction.isNop
  let draft : Block := { address := startOf is, instructions := is }
  match is.getLast? with
  | none => draft
  | some last =>
    let reached := s.targets last
    { draft with
      succs := (starts.filter fun (a, _) => reached.contains a).map Prod.snd
      flags := {
        isExit := s.leaves (fun a => starts.any fun start => start.1 = a) last
        isPadding := isPadding
        isOnlyControl := !isPadding && draft.containsOnlyControl } }

/-- The blocks of the given runs, with the edges at their sources. -/
def draftBlocks (s : Source) (runs : List (List Instruction)) : List Block :=
  runs.map (s.block (runs.map startOf).zipIdx)

def predecessors (blocks : List Block) (number : Nat) : List Nat :=
  (blocks.zipIdx.filter fun (b, _) => b.succs.contains number).map Prod.snd

/-- Records every edge at its target, too. -/
def link (blocks : List Block) : List Block :=
  blocks.zipIdx.map fun (b, number) => { b with preds := predecessors blocks number }

/-- The bytes from one address to another that belong to no instruction. -/
def gap (s : Source) (first stop : Nat) : RawBlock :=
  ⟨first, (s.bytes.drop (first - s.range.base)).take (stop - first)⟩

/-- Lays out blocks from `a` to the end of the function, with raw bytes between them. -/
def layOut (s : Source) (a : Nat) : List Block → List Piece
  | [] => if a < s.range.stop then [.raw (s.gap a s.range.stop)] else []
  | b :: rest =>
    let here := .code b :: layOut s b.stop rest
    if a < b.address then .raw (s.gap a b.address) :: here else here

def assemble (s : Source) (ordered : List Instruction) : FlowGraph :=
  let blocks := link (s.draftBlocks (s.splitBlocks ordered))
  { base := s.range.base, size := s.range.size, pieces := s.layOut s.range.base blocks }

end Source

def edges (g : FlowGraph) : Edges := (g.blocks.map Block.succs).toArray

/-- Marks the entry, and the blocks that cannot be reached from it. -/
def markReachable (g : FlowGraph) : FlowGraph :=
  match g.entryBlock? with
  | none => g
  | some entry =>
    let seen := Reach.reachable g.edges entry
    g.mapBlocks fun number b =>
      { b with flags := { b.flags with
          isEntry := number = entry
          isUnreachable := !seen.contains number } }

def build (s : Source) (instructions : List Instruction) : Except DisassemblyError FlowGraph := do
  let ordered := instructions.mergeSort fun i j => i.address ≤ j.address
  Source.checkOrder ordered
  s.checkInside ordered
  return markReachable (s.assemble ordered)

end BinTrace.FlowGraph
