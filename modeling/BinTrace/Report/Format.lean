import BinTrace.Text.Name

/-!
The forms in which reports and functions are written.
-/

namespace BinTrace

inductive ReportFormat
  | text
  | json
  | csv
  deriving DecidableEq

namespace ReportFormat

def name : ReportFormat → String
  | text => "text"
  | json => "json"
  | csv => "csv"

/-- Reads a name in letters of either case; `txt` is another word for `text`. -/
def ofName : String → Except UnknownName ReportFormat :=
  Text.named "report format" [("text", text), ("txt", text), ("json", json), ("csv", csv)]

end ReportFormat

end BinTrace
