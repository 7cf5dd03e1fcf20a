import BinTrace.Json.Value
import BinTrace.Text.Number

/-!
Writing JSON documents over several lines: an item or field has a line of its own, two more blanks
than its surroundings stand in front of it, and empty lists and objects have no inner lines.
-/

namespace BinTrace.JsonValue

/-- Quotes, backslashes and control characters are escaped, all else stands for itself. -/
def escapeCode (code : Nat) : String :=
  match code with
  | 0x22 => "\\\""
  | 0x5c => "\\\\"
  | 0x08 => "\\b"
  | 0x09 => "\\t"
  | 0x0a => "\\n"
  | 0x0c => "\\f"
  | 0x0d => "\\r"
  | _ =>
    if code < 0x20 then "\\u" ++ Text.paddedHexDigits 4 code
    else (Char.ofNat code).toString

def quoted (codes : List Nat) : String :=
  "\"" ++ String.join (codes.map escapeCode) ++ "\""

def newLine (depth : Nat) : String := "\n" ++ String.ofList (List.replicate (2 * depth) ' ')

/-- Lines between two brackets, separated by commas. -/
def bracketed (first last : String) (depth : Nat) (lines : List String) : String :=
  if lines.isEmpty then first ++ last
  else
    first ++ newLine (depth + 1) ++ ("," ++ newLine (depth + 1)).intercalate lines ++
      newLine depth ++ last

mutual

/-- The text of a value that stands `depth` levels deep. -/
def prettyAt (depth : Nat) : JsonValue → String
  | null => "null"
  | bool b => if b then "true" else "false"
  | number n => n.text
  | string codes => quoted codes
  | array items => bracketed "[" "]" depth (prettyItems (depth + 1) items)
  | object fields => bracketed "\x7b" "\x7d" depth (prettyFields (depth + 1) fields)

def prettyItems (depth : Nat) : List JsonValue → List String
  | [] => []
  | v :: rest => prettyAt depth v :: prettyItems depth rest

def prettyFields (depth : Nat) : List (List Nat × JsonValue) → List String
  | [] => []
  | (name, v) :: rest => (quoted name ++ ": " ++ prettyAt depth v) :: prettyFields depth rest

end

def pretty (v : JsonValue) : String := prettyAt 0 v

end BinTrace.JsonValue
