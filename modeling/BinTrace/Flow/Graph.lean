import BinTrace.Flow.Block
import BinTrace.Image

/-!
The flow graph of a function. Its pieces lie one behind the other in the order of their addresses
and cover the function: basic blocks, and between them bytes that were not decoded. Blocks are
numbered in this order.
-/

namespace BinTrace

/-- Bytes of a function that were not decoded. -/
structure RawBlock where
  address : Nat
  bytes : List UInt8

inductive Piece
  | code (b : Block)
  | raw (r : RawBlock)

namespace Piece

def address : Piece → Nat
  | code b => b.address
  | raw r => r.address

def size : Piece → Nat
  | code b => b.size
  | raw r => r.bytes.length

def bytes : Piece → List UInt8
  | code b => b.bytes
  | raw r => r.bytes

def block? : Piece → Option Block
  | code b => some b
  | raw _ => none

def raw? : Piece → Option RawBlock
  | code _ => none
  | raw r => some r

@[simp] theorem block?_code (b : Block) : (code b).block? = some b := rfl

@[simp] theorem block?_raw (r : RawBlock) : (raw r).block? = none := rfl

end Piece

/-- A natural loop: the blocks from which control can reach the tail without passing the head. -/
structure Loop where
  head : Nat
  /-- The block that jumps back to the head. -/
  tail : Nat
  /-- Numbers of the blocks, in increasing order. -/
  blocks : List Nat
  deriving DecidableEq

namespace Loop

/-- The other loop lies inside this one. The blocks of both are in increasing order. -/
def encloses (l other : Loop) : Bool := other.blocks.isSublist l.blocks

/-- How many other loops of a list enclose this one. -/
def depth (l : Loop) (loops : List Loop) : Nat := loops.countP fun k => k ≠ l && k.encloses l

end Loop

structure FlowGraph where
  base : Nat
  size : Nat
  pieces : List Piece
  loops : List Loop := []

namespace FlowGraph

def range (g : FlowGraph) : AddressRange := ⟨g.base, g.size⟩

def blocks (g : FlowGraph) : List Block := g.pieces.filterMap Piece.block?

def rawBlocks (g : FlowGraph) : List RawBlock := g.pieces.filterMap Piece.raw?

def block? (g : FlowGraph) (number : Nat) : Option Block := g.blocks[number]?

/-- Instructions in the order of their addresses. -/
def instructions (g : FlowGraph) : List Instruction := g.blocks.flatMap Block.instructions

def spans (g : FlowGraph) : List (Nat × Nat) := g.pieces.map fun p => (p.address, p.size)

/-- The bytes of the function as it is laid out. -/
def dump (g : FlowGraph) : List UInt8 := g.pieces.flatMap Piece.bytes

/-- The block at the function's first byte, or else the first block. -/
def entryBlock? (g : FlowGraph) : Option Nat :=
  match g.blocks with
  | [] => none
  | bs => some ((bs.findIdx? fun b => b.address = g.base).getD 0)

def exitBlocks (g : FlowGraph) : List Nat :=
  (List.range g.blocks.length).filter fun n => (g.block? n).any fun b => b.flags.isExit

/-- The last block that starts at `a` or in front of it, if it holds the byte at `a`. -/
def blockContaining? (g : FlowGraph) (a : Nat) : Option Nat :=
  match (g.blocks.takeWhile fun b => b.address ≤ a).length with
  | 0 => none
  | n + 1 => if (g.block? n).any fun b => b.contains a then some n else none

def instructionAt? (g : FlowGraph) (a : Nat) : Option Instruction := do
  let b ← g.block? (← g.blockContaining? a)
  b.instructionAt? a

/-- Changes the block that has `number` blocks in front of it. -/
def modifyPieces (f : Block → Block) : Nat → List Piece → List Piece
  | _, [] => []
  | number, .raw r :: rest => .raw r :: modifyPieces f number rest
  | 0, .code b :: rest => .code (f b) :: rest
  | number + 1, .code b :: rest => .code b :: modifyPieces f number rest

def modifyBlock (g : FlowGraph) (number : Nat) (f : Block → Block) : FlowGraph :=
  { g with pieces := modifyPieces f number g.pieces }

/-- Changes every block, which is given with its number. -/
def mapPieces (f : Nat → Block → Block) : Nat → List Piece → List Piece
  | _, [] => []
  | number, .raw r :: rest => .raw r :: mapPieces f number rest
  | number, .code b :: rest => .code (f number b) :: mapPieces f (number + 1) rest

def mapBlocks (g : FlowGraph) (f : Nat → Block → Block) : FlowGraph :=
  { g with pieces := mapPieces f 0 g.pieces }

/-- The pieces lie one behind the other from `a` on; the result is where they stop. -/
def checkTiling (a : Nat) : List Piece → Except LayoutFault Nat
  | [] => .ok a
  | p :: rest =>
    if p.address = a then checkTiling (a + p.size) rest else .error (.misplacedBlock p.address a)

/-- Every successor of a block counts the block among its predecessors, which are given by
block. -/
def checkEdges (preds : Array (List Nat)) (number : Nat) (b : Block) : Except LayoutFault Unit :=
  match b.succs.find? fun s => !(preds.getD s []).contains number with
  | some s => .error (.unmatchedEdge number s)
  | none => .ok ()

/-- The pieces cover the function, and blocks and edges are in order. -/
def check (g : FlowGraph) : Except LayoutFault Unit := do
  let stop ← checkTiling g.base g.pieces
  if stop ≠ g.base + g.size then throw (.uncovered g.base stop g.size)
  let preds := (g.blocks.map Block.preds).toArray
  g.blocks.zipIdx.forM fun (b, number) => do
    b.check number
    checkEdges preds number b

end FlowGraph

end BinTrace
