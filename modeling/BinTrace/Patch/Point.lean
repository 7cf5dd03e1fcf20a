import BinTrace.Liveness
import BinTrace.Patch.Trampoline

/-!
A point: code that is to run at an instruction of a function. It is analysed, gets a trampoline,
the trampoline gets a place, and its bytes are written out. A step that fails keeps the point in
the state that it had reached.
-/

namespace BinTrace

/-- How a point is carried out: the instructions that give way to a jump, and the trampoline. -/
structure Detour where
  /-- Where the jump lies. -/
  site : Nat
  /-- The instructions that the jump overwrites. -/
  displaced : List Instruction
  protection : Protection
  trampoline : Trampoline

namespace Detour

def range (d : Detour) : AddressRange := ⟨d.site, totalSize d.displaced⟩

end Detour

inductive PatchProgress
  | requested
  | analyzed (protection : Protection)
  | generated (detour : Detour)
  | placed (detour : Detour)
  | dumped (detour : Detour)

namespace PatchProgress

def stage : PatchProgress → PatchStage
  | requested => .requested
  | analyzed _ => .analyzed
  | generated _ => .generated
  | placed _ => .placed
  | dumped _ => .dumped

def detour? : PatchProgress → Option Detour
  | requested | analyzed _ => none
  | generated d | placed d | dumped d => some d

/-- The detour of a point whose trampoline has a place. -/
def placedDetour? : PatchProgress → Option Detour
  | requested | analyzed _ | generated _ => none
  | placed d | dumped d => some d

def protection? : PatchProgress → Option Protection
  | requested => none
  | analyzed p => some p
  | generated d | placed d | dumped d => some d.protection

end PatchProgress

structure PatchPoint where
  address : Nat
  location : Location
  code : InsertedCode
  /-- The overflow flag need not be preserved. -/
  ignoresOverflow : Bool := false
  /-- Nothing may be pushed at this point in 32-bit code. -/
  hasUnsafeStack : Bool := false
  progress : PatchProgress := .requested

namespace PatchPoint

def stage (p : PatchPoint) : PatchStage := p.progress.stage

abbrev Step := EStateM PatchError PatchPoint

def wrongStage (p : PatchPoint) (expected : PatchStage) : PatchError :=
  .wrongStage p.address p.stage expected

/-- Code can be inserted there: behind an instruction only if execution goes on behind it, and in
the place of an instruction only if that is no transfer of control. -/
def admits (location : Location) (i : Instruction) : Bool :=
  match location with
  | .before => true
  | .after => i.fallsThrough
  | .replace => !i.isControl

/-- What is live at the point and written by the inserted code. -/
def atRisk (p : PatchPoint) (w : Width) (live : RegSet) : RegSet :=
  let risk := live ∩ p.code.defs w
  if p.ignoresOverflow then risk.erase (.flag .overflow) else risk

/-- The protection that the point needs where `live` is live. Whatever pushes in 64-bit code steps
over the red zone first. -/
def protectionFor (p : PatchPoint) (w : Width) (live : RegSet) : Except PatchError Protection :=
  let protection := Protection.covering live (p.atRisk w live)
  if protection.usesStack || p.code.body.isCall then
    match w with
    | .bits64 => .ok { protection with skipRedZone := true }
    | .bits32 => if p.hasUnsafeStack then .error (.unprotectable p.address) else .ok protection
  else .ok protection

def findProtection (p : PatchPoint) (w : Width) (f : Function) (l : Liveness) :
    Except PatchError Protection := do
  let some i := f.graph.bind fun g => g.instructionAt? p.address
    | throw (.notInFunction p.address)
  if !admits p.location i then throw (.invalidLocation p.address)
  p.protectionFor w (l.liveAt p.address p.location)

/-- Decides what has to be preserved. -/
def analyze (w : Width) (f : Function) (l : Liveness) : Step Unit := do
  let p ← get
  match p.progress with
  | .requested =>
    match p.findProtection w f l with
    | .ok protection => set { p with progress := .analyzed protection }
    | .error e => throw e
  | _ => throw (p.wrongStage .requested)

/-- The shortest run of whole instructions from `site` on that has room for a jump. -/
def displacedAt (b : Block) (site : Nat) : List Instruction :=
  coveringRun Encode.jumpSize (b.instructions.dropWhile fun i => i.address ≠ site)

/-- The displaced instructions that run in the trampoline. -/
def relocated (location : Location) (displaced : List Instruction) : List Instruction :=
  if location = .replace then displaced.tail else displaced

/-- Where execution goes on behind the relocated instructions, if it does. -/
def resume? (site : Nat) (displaced relocated : List Instruction) : Option Nat :=
  if (relocated.getLast?.map Instruction.fallsThrough).getD true then
    some (site + totalSize displaced)
  else none

/-- The detour of the point, with a trampoline that has no place yet. -/
def buildDetour (p : PatchPoint) (w : Width) (f : Function) (protection : Protection) :
    Except PatchError Detour := do
  let some site := f.patchStart? p.address Encode.jumpSize p.location
    | throw (.noRoom p.address Encode.jumpSize)
  let some b := f.graph.bind fun g => (g.blockContaining? site).bind g.block?
    | throw (.notInFunction site)
  let displaced := displacedAt b site
  let relocated := relocated p.location displaced
  let trampoline ←
    (Trampoline.build w protection p.code relocated (resume? site displaced relocated)).mapError
      .encode
  return { site, displaced, protection, trampoline }

def generate (w : Width) (f : Function) : Step Unit := do
  let p ← get
  match p.progress with
  | .analyzed protection =>
    match p.buildDetour w f protection with
    | .ok d => set { p with progress := .generated d }
    | .error e => throw e
  | _ => throw (p.wrongStage .analyzed)

/-- Gives the trampoline its place and returns its size. -/
def place (a : Nat) : Step Nat := do
  let p ← get
  match p.progress with
  | .generated d =>
    set { p with progress := .placed { d with trampoline := d.trampoline.place a } }
    return d.trampoline.size
  | _ => throw (p.wrongStage .generated)

/-- Writes bytes at an address into a buffer that begins at `base`. -/
def writeAt (buffer : List UInt8) (base a : Nat) (bytes : List UInt8) :
    Except PatchError (List UInt8) :=
  match if base ≤ a then Bytes.overwrite? buffer (a - base) bytes else none with
  | some buffer => .ok buffer
  | none => .error (.outOfBounds a bytes.length)

/-- Links the trampoline and writes it into the region that begins at `base`. -/
def dump (region : List UInt8) (base : Nat) (places : List (Option Nat)) : Step (List UInt8) := do
  let p ← get
  match p.progress with
  | .placed d =>
    match (Trampoline.link places).run d.trampoline with
    | .error e t =>
      set { p with progress := .placed { d with trampoline := t } }
      throw e
    | .ok _ t =>
      set { p with progress := .placed { d with trampoline := t } }
      match writeAt region base (t.address.getD base) t.bytes with
      | .error e => throw e
      | .ok region =>
        set { p with progress := .dumped { d with trampoline := t } }
        return region
  | _ => throw (p.wrongStage .placed)

end PatchPoint

end BinTrace
