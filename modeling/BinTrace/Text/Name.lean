/-!
Names of settings.
-/

namespace BinTrace

/-- A name that no setting of its sort has. -/
structure UnknownName where
  sort : String
  name : String
  deriving DecidableEq

def UnknownName.message (e : UnknownName) : String := "Unknown " ++ e.sort ++ ": " ++ e.name

namespace Text

/-- What a name in letters of either case stands for in a table. -/
def named {α : Type} (sort : String) (table : List (String × α)) (name : String) :
    Except UnknownName α :=
  match table.lookup name.toLower with
  | some a => .ok a
  | none => .error ⟨sort, name⟩

end Text

end BinTrace
