import BinTrace.Encode
import BinTrace.Flow.Relayout
import BinTrace.Function.Basic

/-!
Making room in a function: no-ops are put in at chosen instructions, short branches get wide
displacements, and the function is laid out again.
-/

namespace BinTrace

/-- Room that is asked for at an instruction. -/
structure Expansion where
  address : Nat
  location : Location
  /-- Bytes of padding. -/
  size : Nat

namespace Expansion

/-- By address, and at one address the room behind the instruction last. -/
def precedes (e k : Expansion) : Bool :=
  e.address < k.address ||
    (e.address = k.address && (e.location ≠ .after || k.location = .after))

/-- Keeps the first of expansions that follow each other with one address and location. -/
def dropRepeated : List Expansion → List Expansion
  | [] => []
  | e :: rest =>
    match dropRepeated rest with
    | k :: kept =>
      if e.address = k.address ∧ e.location = k.location then e :: kept else e :: k :: kept
    | [] => [e]

def ordered (es : List Expansion) : List Expansion := dropRepeated (es.mergeSort precedes)

/-- No-ops that carry the address of the instruction they belong to. -/
def padding (e : Expansion) : List Instruction :=
  (Encode.nops e.size).map fun i => { i with address := e.address }

/-- Puts the padding in front of the instruction or behind it; an address at which no instruction
starts changes nothing. -/
def insertInto (e : Expansion) (b : Block) : Block :=
  match b.indexAt? e.address with
  | some index =>
    let position := if e.location = .after then index + 1 else index
    { b with
      instructions := b.instructions.take position ++ e.padding ++ b.instructions.drop position }
  | none => b

end Expansion

namespace FlowGraph

/-- Puts in all padding, from the greatest address down, into the blocks that hold the addresses
now. -/
def pad (g : FlowGraph) (es : List Expansion) : FlowGraph :=
  let placed := es.filterMap fun e => (g.blockContaining? e.address).map fun n => (n, e)
  placed.foldr (fun (n, e) g => g.modifyBlock n e.insertInto) g

/-- Branches, calls and system calls that can be moved get wide displacements. -/
def needsWidening (i : Instruction) : Bool := i.isControl && !i.isReturn && i.isRelocatable

def widenAll : List Instruction → List Instruction × Option EncodeError
  | [] => ([], none)
  | i :: rest =>
    if needsWidening i then
      match Instruction.widenTarget.run i with
      | .ok _ j =>
        let (widened, error?) := widenAll rest
        (j :: widened, error?)
      | .error e j => (j :: rest, some e)
    else
      let (widened, error?) := widenAll rest
      (i :: widened, error?)

def widenPieces : List Piece → List Piece × Option EncodeError
  | [] => ([], none)
  | .raw r :: rest =>
    let (widened, error?) := widenPieces rest
    (.raw r :: widened, error?)
  | .code b :: rest =>
    match widenAll b.instructions with
    | (instructions, some e) => (.code { b with instructions } :: rest, some e)
    | (instructions, none) =>
      let (widened, error?) := widenPieces rest
      (.code { b with instructions } :: widened, error?)

def widen : EStateM EncodeError FlowGraph Unit := do
  let g ← get
  let (pieces, error?) := widenPieces g.pieces
  set { g with pieces }
  match error? with
  | some e => throw e
  | none => pure ()

end FlowGraph

namespace Function

/-- Makes the room that is asked for and returns the new size. A failure leaves the function in the
state that it had reached. -/
def bloat (es : List Expansion) : EStateM DisassemblyError Function Nat := do
  let f ← get
  match f.graph with
  | none => return f.bytes.length
  | some g =>
    match (do FlowGraph.widen; FlowGraph.relayout).run (g.pad (Expansion.ordered es)) with
    | .ok _ g =>
      set { f with graph := some g }
      return g.size
    | .error e g =>
      set { f with graph := some g }
      throw (.encode e)

end Function

end BinTrace
