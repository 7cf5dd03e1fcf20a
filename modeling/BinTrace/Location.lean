import BinTrace.Text.Name

/-!
Where inserted code runs relative to an instruction.
-/

namespace BinTrace

inductive Location
  | before
  | after
  /-- In the place of the instruction. -/
  | replace
  deriving DecidableEq

namespace Location

def name : Location → String
  | before => "before"
  | after => "after"
  | replace => "replace"

/-- Position in the order of points at one address. -/
def rank : Location → Nat
  | before => 0
  | after => 1
  | replace => 2

/-- Reads a name in letters of either case; `prior` is another word for `before`. -/
def ofName : String → Except UnknownName Location :=
  Text.named "location"
    [("before", before), ("prior", before), ("after", after), ("replace", replace)]

end Location

end BinTrace
