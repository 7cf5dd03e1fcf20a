import BinTrace.Image

/-!
An executable file as it matters here: the machine it is for, its sections, and the functions that
its symbols name. The file's bytes are read by address through the sections.
-/

namespace BinTrace

inductive Architecture
  | x86 (w : Width)
  | unknown
  deriving DecidableEq

def Architecture.name : Architecture → String
  | x86 .bits32 => "x86-32"
  | x86 .bits64 => "x86-64"
  | unknown => "Unknown"

def Architecture.width? : Architecture → Option Width
  | x86 w => some w
  | unknown => none

structure Section where
  name : String
  address : Nat
  /-- Where the contents lie in the file. -/
  offset : Nat
  size : Nat
  isExecutable : Bool
  /-- The contents are in the file. -/
  hasContents : Bool := true

namespace Section

def range (s : Section) : AddressRange := ⟨s.address, s.size⟩

end Section

structure FunctionSymbol where
  name : String
  address : Nat
  size : Nat

structure Program where
  architecture : Architecture
  entry : Nat
  /-- In the order of the section table. -/
  sections : List Section
  /-- In the order of their addresses, one for each address. -/
  functions : List FunctionSymbol

namespace Program

def findSection? (p : Program) (name : String) : Option Section :=
  p.sections.find? fun s => s.name = name

/-- The first section that holds an address. One at address zero is not loaded and holds none. -/
def sectionAt? (p : Program) (a : Nat) : Option Section :=
  p.sections.find? fun s => s.address ≠ 0 && s.range.contains a

def text? (p : Program) : Option Section := p.findSection? ".text"

/-- The bytes of the file by address. What is read must lie in one section. -/
def image (p : Program) (file : List UInt8) : Image where
  read a length :=
    match p.sectionAt? a with
    | some s =>
      let start := a - s.address
      if s.hasContents && start + length ≤ s.size then
        Bytes.slice? file (s.offset + start) length
      else none
    | none => none

/-- Regions that are added to a program begin at a multiple of this. -/
def pageSize : Nat := 0x1000

/-- The first page behind all sections. -/
def regionBase (p : Program) : Nat :=
  let stop := (p.sections.map fun s => s.range.stop).foldl max 0
  (stop + pageSize - 1) / pageSize * pageSize

end Program

end BinTrace
