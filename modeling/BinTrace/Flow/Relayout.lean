import BinTrace.Flow.Graph

/-!
Laying a function out again after its instructions have changed. Relative operands keep what they
refer to: addresses inside the function move with the code or bytes that they belong to.
-/

namespace BinTrace.FlowGraph

/-- An old address and the new address of what was there. -/
structure Move where
  source : Nat
  target : Nat

def movesOf (a : Nat) : List Instruction → List Move
  | [] => []
  | i :: rest => ⟨i.address, a⟩ :: movesOf (a + i.size) rest

/-- Where everything goes if the pieces are laid out from `a` on. -/
def movesFrom (a : Nat) : List Piece → List Move
  | [] => []
  | .raw r :: rest => ⟨r.address, a⟩ :: movesFrom (a + r.bytes.length) rest
  | .code b :: rest => movesOf a b.instructions ++ movesFrom (a + b.size) rest

/-- The move with the greatest source up to `a`; of several the first, which belongs to padding
that stands in front of the instruction. -/
def nearestMove? (moves : List Move) (a : Nat) : Option Move :=
  moves.foldl (fun best m =>
    if m.source ≤ a ∧ best.all fun k => k.source < m.source then some m else best) none

/-- The new address of what an operand refers to. -/
def movedAddress (range : AddressRange) (moves : List Move) (a : Nat) : Nat :=
  if range.contains a then
    match nearestMove? moves a with
    | some m => m.target + (a - m.source)
    | none => a
  else a

/-- Gives an instruction its new address, and its relative operand the new address of what it
refers to. -/
def placeInstruction (move : Nat → Nat) (a : Nat) : Instruction.Edit Unit := do
  let i ← get
  set { i with address := a }
  match i.relativeTarget? with
  | some t => Instruction.setRelativeTarget (move t)
  | none => pure ()

/-- Places instructions from `a` on up to the first one that cannot be; that one and those behind
it come with the failure. -/
def placeAll (move : Nat → Nat) (a : Nat) :
    List Instruction → List Instruction × Option EncodeError
  | [] => ([], none)
  | i :: rest =>
    match (placeInstruction move a).run i with
    | .ok _ j =>
      let (placed, error?) := placeAll move (a + j.size) rest
      (j :: placed, error?)
    | .error e j => (j :: rest, some e)

/-- Gives the pieces their addresses, and the instructions theirs up to the first failure. -/
def placePieces (move : Nat → Nat) (a : Nat) (failed : Option EncodeError) :
    List Piece → List Piece × Option EncodeError
  | [] => ([], failed)
  | .raw r :: rest =>
    let (placed, error?) := placePieces move (a + r.bytes.length) failed rest
    (.raw { r with address := a } :: placed, error?)
  | .code b :: rest =>
    let (instructions, error?) :=
      if failed.isSome then (b.instructions, failed) else placeAll move a b.instructions
    let (placed, error?) := placePieces move (a + b.size) error? rest
    (.code { b with address := a, instructions } :: placed, error?)

/-- Lays all pieces out again from the function's base. If an operand cannot reach its target, the
pieces have moved and the instructions from there on have not; the size is then as before. -/
def relayout : EStateM EncodeError FlowGraph Unit := do
  let g ← get
  let moves := movesFrom g.base g.pieces
  let (pieces, error?) := placePieces (movedAddress g.range moves) g.base none g.pieces
  match error? with
  | some e =>
    set { g with pieces }
    throw e
  | none => set { g with pieces, size := (pieces.map Piece.size).sum }

end BinTrace.FlowGraph
