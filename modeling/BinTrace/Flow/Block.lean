import BinTrace.Disassembly.Error
import BinTrace.Location

/-!
Basic blocks: runs of instructions that control enters at the first and leaves at the last.
-/

namespace BinTrace

structure BlockFlags where
  isEntry : Bool := false
  /-- Returns or leaves the function. -/
  isExit : Bool := false
  /-- Holds only no-ops. -/
  isPadding : Bool := false
  /-- No path leads here from the entry. -/
  isUnreachable : Bool := false
  /-- Holds only transfers of control and no-ops, and some transfer. -/
  isOnlyControl : Bool := false

/-- Blocks refer to each other by their position in the graph. -/
structure Block where
  address : Nat
  instructions : List Instruction
  flags : BlockFlags := {}
  preds : List Nat := []
  succs : List Nat := []
  /-- The immediate dominator, once dominators have been computed. -/
  idom : Option Nat := none

def totalSize (is : List Instruction) : Nat := (is.map Instruction.size).sum

def bytesOfAll (is : List Instruction) : List UInt8 := is.flatMap Instruction.bytes

@[simp] theorem totalSize_nil : totalSize [] = 0 := rfl

@[simp] theorem totalSize_cons (i : Instruction) (rest : List Instruction) :
    totalSize (i :: rest) = i.size + totalSize rest := by
  simp [totalSize]

@[simp] theorem totalSize_append (is js : List Instruction) :
    totalSize (is ++ js) = totalSize is + totalSize js := by
  simp [totalSize]

@[simp] theorem bytesOfAll_nil : bytesOfAll [] = [] := rfl

@[simp] theorem bytesOfAll_cons (i : Instruction) (rest : List Instruction) :
    bytesOfAll (i :: rest) = i.bytes ++ bytesOfAll rest := rfl

@[simp] theorem bytesOfAll_append (is js : List Instruction) :
    bytesOfAll (is ++ js) = bytesOfAll is ++ bytesOfAll js := by
  simp [bytesOfAll]

@[simp] theorem length_bytesOfAll (is : List Instruction) :
    (bytesOfAll is).length = totalSize is := by
  induction is with
  | nil => rfl
  | cons i rest ih => simp [ih, Instruction.size]

namespace Block

def size (b : Block) : Nat := totalSize b.instructions

def stop (b : Block) : Nat := b.address + b.size

def contains (b : Block) (a : Nat) : Bool := b.address ≤ a && a < b.stop

def bytes (b : Block) : List UInt8 := bytesOfAll b.instructions

def indexAt? (b : Block) (a : Nat) : Option Nat := b.instructions.findIdx? fun i => i.address = a

def instructionAt? (b : Block) (a : Nat) : Option Instruction :=
  b.instructions.find? fun i => i.address = a

/-- Execution may go on behind the last instruction. -/
def fallsThrough (b : Block) : Bool := (b.instructions.getLast?.map Instruction.fallsThrough).getD true

def containsOnlyControl (b : Block) : Bool := b.instructions.all fun i => i.isControl || i.isNop

/-- Some call in the block has its target in `[low, high)`. -/
def callsInto (b : Block) (low high : Nat) : Bool :=
  b.instructions.any fun i => i.isCall && i.controlTarget?.any fun t => low ≤ t && t < high

/-- Each instruction begins where the one before it stops, and the first one at `a`. -/
def checkContiguous (number : Nat) (a : Nat) : List Instruction → Except LayoutFault Unit
  | [] => .ok ()
  | i :: rest =>
    if i.address = a then checkContiguous number i.stop rest
    else .error (.misplacedInstruction number i.address a)

def isOwnTransfer (i : Instruction) : Bool := i.isControl && i.source = .application

/-- The block has instructions, they lie one behind the other, and only the last one may be a
transfer of control that belongs to the program. -/
def check (number : Nat) (b : Block) : Except LayoutFault Unit := do
  if b.instructions.isEmpty then throw (.emptyBlock number)
  checkContiguous number b.address b.instructions
  let transfers := b.instructions.countP isOwnTransfer
  if 1 < transfers then throw (.manyTransfers b.address transfers)
  if b.instructions.dropLast.any isOwnTransfer then throw (.earlyTransfer b.address)

/-- Whole instructions from the front, all of which can be moved, cover `needed` bytes. -/
def covers (needed : Nat) : List Instruction → Bool
  | [] => needed = 0
  | i :: rest => needed = 0 || (i.isRelocatable && covers (needed - i.size) rest)

/-- Position at which a patch for a point at `a` starts: at the instruction, or behind it. -/
def patchIndex? (b : Block) (a : Nat) (location : Location) : Option Nat := do
  let index ← b.indexAt? a
  match location with
  | .before | .replace => return index
  | .after =>
    let i ← b.instructions[index]?
    if b.stop ≤ i.stop then none else return index + 1

/-- Where `size` bytes of patch can start for a point at `a`. -/
def patchStart? (b : Block) (a size : Nat) (location : Location) : Option Nat := do
  let index ← b.patchIndex? a location
  let rest := b.instructions.drop index
  if covers size rest then rest.head?.map Instruction.address else none

end Block

end BinTrace
