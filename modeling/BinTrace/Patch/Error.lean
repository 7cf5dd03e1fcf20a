import BinTrace.Instruction.Retarget

/-!
How far a point has come, and why it cannot go on.
-/

namespace BinTrace

/-- The states of a point. Each step leads from one to the next. -/
inductive PatchStage
  | requested
  | analyzed
  | generated
  | placed
  | dumped
  deriving DecidableEq

def PatchStage.name : PatchStage → String
  | requested => "requested"
  | analyzed => "protection analyzed"
  | generated => "trampoline generated"
  | placed => "placed"
  | dumped => "dumped"

inductive PatchError
  | wrongStage (address : Nat) (found expected : PatchStage)
  /-- State could only be saved on a stack that must not be touched. -/
  | unprotectable (address : Nat)
  | noRoom (address : Nat) (needed : Nat)
  | invalidLocation (address : Nat)
  | notInFunction (address : Nat)
  | overlap (address : Nat)
  | unresolvedAnchor (address : Nat)
  | encode (e : EncodeError)
  | outOfBounds (address : Nat) (size : Nat)
  deriving DecidableEq

namespace PatchError

def kind : PatchError → String
  | wrongStage .. => "InvalidState"
  | unprotectable _ => "ProtectionInfeasible"
  | noRoom .. => "NoRoom"
  | invalidLocation _ => "InvalidLocation"
  | notInFunction _ => "NotInFunction"
  | overlap _ => "Overlap"
  | unresolvedAnchor _ => "UnresolvedAnchor"
  | encode _ => "Encode"
  | outOfBounds .. => "OutOfBounds"

def message : PatchError → String
  | wrongStage address found expected =>
    "point at " ++ Text.hex address ++ " is " ++ found.name ++ ", expected " ++ expected.name
  | unprotectable address =>
    "cannot protect state at " ++ Text.hex address ++ " without touching an unsafe stack"
  | noRoom address needed =>
    "no room for a " ++ toString needed ++ "-byte patch at " ++ Text.hex address
  | invalidLocation address =>
    "instrumentation cannot be placed at " ++ Text.hex address ++ " in that location"
  | notInFunction address => Text.hex address ++ " is not an instruction of the function"
  | overlap address => "patch at " ++ Text.hex address ++ " overlaps another point"
  | unresolvedAnchor address =>
    "anchor in instruction at " ++ Text.hex address ++ " refers to an unplaced trampoline"
  | encode e => "encoding error: " ++ e.message
  | outOfBounds address size =>
    toString size ++ " bytes at " ++ Text.hex address ++ " do not fit the output buffer"

/-- The point is given up and the others go on. -/
def dropsPoint : PatchError → Bool
  | unprotectable _ | noRoom _ _ | invalidLocation _ | notInFunction _ | overlap _ => true
  | wrongStage _ _ _ | unresolvedAnchor _ | encode _ | outOfBounds _ _ => false

end PatchError

end BinTrace
