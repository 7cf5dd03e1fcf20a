import BinTrace.Elf.File
import BinTrace.Function.Basic
import BinTrace.Patch.Error

/-!
Taking all functions of an executable file apart.
-/

namespace BinTrace

/-- Why a program cannot be taken apart or instrumented. -/
inductive ProgramError
  | malformed
  | unsupported (a : Architecture)
  | unverified (function : String) (base : Nat) (e : DisassemblyError)
  | noText
  /-- The contents of the section with the program text are not in the file. -/
  | absentText
  | instrument (function : String) (e : PatchError)
  | dump (e : PatchError)

namespace ProgramError

def message : ProgramError → String
  | malformed => "Failed to parse the executable"
  | unsupported a => "Cannot decode " ++ a.name ++ " code"
  | unverified function base _ => function ++ " at " ++ Text.hex base ++ " failed verification"
  | noText => "The executable has no .text section"
  | absentText => "The .text section has no file contents"
  | instrument function _ => "Failed to instrument " ++ function
  | dump _ => "Failed to write the trampoline region"

/-- The error that led to this one. -/
def cause? : ProgramError → Option (DisassemblyError ⊕ PatchError)
  | malformed => some (.inl .malformedFile)
  | unsupported _ => some (.inl .unsupportedArchitecture)
  | unverified _ _ e => some (.inl e)
  | noText | absentText => none
  | instrument _ e | dump e => some (.inr e)

end ProgramError

/-- A program of a known machine and its functions. -/
structure DigestedProgram where
  program : Program
  width : Width
  image : Image
  functions : List Function
  /-- The functions that are left out, and why. -/
  skipped : List (String × String)

namespace DigestedProgram

def absentBytes : String := "bytes are not in the file"

def digestSymbol (w : Width) (image : Image) (s : FunctionSymbol) : Except String Function :=
  match image.read s.address s.size with
  | none => .error absentBytes
  | some bytes =>
    let f : Function := { name := s.name, base := s.address, bytes }
    match (Function.digest { width := w, image := some image }).run f with
    | .ok _ f => .ok f
    | .error e _ => .error e.message

/-- Takes apart the symbols' functions, and keeps the reasons for those that are left out. -/
def digestAll (w : Width) (image : Image) :
    List FunctionSymbol → List Function × List (String × String)
  | [] => ([], [])
  | s :: rest =>
    let (functions, skipped) := digestAll w image rest
    match digestSymbol w image s with
    | .ok f => (f :: functions, skipped)
    | .error reason => (functions, (s.name, reason) :: skipped)

def checkAll (functions : List Function) : Except ProgramError Unit :=
  functions.forM fun f => f.check.mapError (.unverified f.name f.base)

/-- The program in a file and its functions; with `verify`, none of them may fail its check. -/
def ofFile (file : List UInt8) (verify : Bool) : Except ProgramError DigestedProgram := do
  let some program := Elf.program? file | throw .malformed
  let some width := program.architecture.width? | throw (.unsupported program.architecture)
  let image := program.image file
  let (functions, skipped) := digestAll width image program.functions
  if verify then checkAll functions
  return { program, width, image, functions, skipped }

end DigestedProgram

end BinTrace
