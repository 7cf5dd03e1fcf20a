import BinTrace.Encode
import BinTrace.Function.Swap
import BinTrace.Patch.Error
import BinTrace.Patch.Protection

/-!
Trampolines: code in a region of its own that runs inserted instructions, then the instructions
that had to make room for the jump to it, and jumps back. Instructions that refer to an address
are anchored to it, so that they can be made to refer to it once the trampoline has its place.
-/

namespace BinTrace

inductive AnchorTarget
  | address (a : Nat)
  /-- The first byte of the trampoline with this number. -/
  | trampoline (number : Nat)
  deriving DecidableEq

/-- What the relative operand of an instruction has to refer to. -/
structure Anchor where
  /-- Position of the instruction. -/
  owner : Nat
  target : AnchorTarget
  deriving DecidableEq

/-- The address of the target, given where the trampolines lie that have a place. -/
def Anchor.resolve? (places : List (Option Nat)) (a : Anchor) : Option Nat :=
  match a.target with
  | .address a => some a
  | .trampoline number => places[number]?.join

structure Trampoline where
  instructions : List Instruction
  anchors : List Anchor
  /-- Where it lies, once it has been placed. -/
  address : Option Nat := none

namespace Trampoline

def size (t : Trampoline) : Nat := totalSize t.instructions

def bytes (t : Trampoline) : List UInt8 := bytesOfAll t.instructions

def place (t : Trampoline) (a : Nat) : Trampoline :=
  { t with instructions := layOutFrom a t.instructions, address := some a }

def linkAnchor (places : List (Option Nat)) (a : Anchor) : EStateM PatchError Trampoline Unit := do
  let t ← get
  let some i := t.instructions[a.owner]? | return
  let some target := a.resolve? places | throw (.unresolvedAnchor i.address)
  match (Instruction.setRelativeTarget target).run i with
  | .ok _ i => set { t with instructions := t.instructions.set a.owner i }
  | .error e _ => throw (.encode e)

/-- Makes the anchored instructions refer to their targets, one after the other up to the first
failure. -/
def link (places : List (Option Nat)) : EStateM PatchError Trampoline Unit := do
  (← get).anchors.forM (linkAnchor places)

end Trampoline

/-- An instruction of a trampoline and the address that its relative operand has to refer to. -/
structure Emission where
  instruction : Instruction
  target : Option Nat := none

namespace Emission

def free (i : Instruction) : Emission := { instruction := i }

/-- Keeps what the instruction refers to. -/
def anchored (i : Instruction) : Emission := ⟨i, i.relativeTarget?⟩

end Emission

def Trampoline.ofEmissions (es : List Emission) : Trampoline where
  instructions := es.map Emission.instruction
  anchors := es.zipIdx.filterMap fun (e, n) => e.target.map fun a => ⟨n, .address a⟩

/-- What runs at a point. -/
inductive Insertion
  | call (target : Nat)
  | snippet (instructions : List Instruction)

namespace Insertion

def isCall : Insertion → Bool
  | call _ => true
  | snippet _ => false

def emit (w : Width) : Insertion → Except EncodeError (List Emission)
  | call target => (Encode.call w 0 0).map fun i => [⟨i, some target⟩]
  | snippet is => .ok (is.map .anchored)

end Insertion

/-- Inserted code with the instructions around it. -/
structure InsertedCode where
  body : Insertion
  /-- Run just in front of the body. -/
  precursors : List Instruction := []
  /-- Run just behind the body. -/
  postcursors : List Instruction := []

namespace InsertedCode

def defs (w : Width) (c : InsertedCode) : RegSet :=
  let body := match c.body with
    | .call _ => CallingConvention.callDefs w
    | .snippet is => is.foldl (fun set i => set ∪ i.defs) ∅
  (c.precursors ++ c.postcursors).foldl (fun set i => set ∪ i.defs) body

def emit (w : Width) (c : InsertedCode) : Except EncodeError (List Emission) := do
  let body ← c.body.emit w
  return c.precursors.map .anchored ++ body ++ c.postcursors.map .anchored

end InsertedCode

namespace FlagsProtection

/-- Code that puts a copy of the flags on the stack. -/
def push (w : Width) : FlagsProtection → Except EncodeError (List Instruction)
  | none => .ok []
  | light => (Encode.push w .ax).map fun i => [Encode.lahf, i]
  | full => .ok [Encode.pushf]

/-- Code that takes the flags from the stack. -/
def pop (w : Width) : FlagsProtection → Except EncodeError (List Instruction)
  | none => .ok []
  | light => (Encode.pop w .ax).map fun i => [i, Encode.sahf]
  | full => .ok [Encode.popf]

end FlagsProtection

namespace Protection

/-- Code that moves the stack pointer, if the bytes below it are to be left alone. -/
def moveStack (w : Width) (p : Protection) (delta : Int) : Except EncodeError (List Instruction) :=
  if p.skipRedZone then (Encode.adjustStack w delta).map fun i => [i] else .ok []

def enter (w : Width) (p : Protection) : Except EncodeError (List Instruction) := do
  let skip ← p.moveStack w (-redZone)
  let saves ← p.saves.mapM (Encode.push w)
  let flags ← p.flags.push w
  return skip ++ saves ++ flags

def leave (w : Width) (p : Protection) : Except EncodeError (List Instruction) := do
  let flags ← p.flags.pop w
  let saves ← p.saves.reverse.mapM (Encode.pop w)
  let skip ← p.moveStack w redZone
  return flags ++ saves ++ skip

end Protection

namespace Trampoline

/-- A copy of an instruction that can reach any target, anchored to what it refers to. -/
def moved (i : Instruction) : Except EncodeError Emission :=
  (Encode.edited Instruction.widenTarget i).map fun j => ⟨j, i.relativeTarget?⟩

/-- The displaced instructions, and the jump behind them if execution goes on there. -/
def tail (relocated : List Instruction) (resume : Option Nat) :
    Except EncodeError (List Emission) := do
  let code ← (relocated.filter fun i => !i.isNop).mapM moved
  match resume with
  | some a => return code ++ [⟨← Encode.jumpNear 0 0, some a⟩]
  | none => return code

/-- A trampoline in which the inserted code runs with what is to be preserved saved, and then the
displaced instructions run. -/
def build (w : Width) (p : Protection) (c : InsertedCode) (relocated : List Instruction)
    (resume : Option Nat) : Except EncodeError Trampoline := do
  let enter ← p.enter w
  let inserted ← c.emit w
  let leave ← p.leave w
  let tail ← tail relocated resume
  return ofEmissions (enter.map .free ++ inserted ++ leave.map .free ++ tail)

end Trampoline

end BinTrace
