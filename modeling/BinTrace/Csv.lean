/-!
Records of comma separated values. A field that begins with quotes goes on to the closing quotes,
and two quotes stand for one there. Blank lines are no records, and neither are lines that begin
with a number sign, unless such a line has no end: then it is a record with one empty field. Every
record that is written ends with a line feed.
-/

namespace BinTrace.Csv

/-- Where a reader stands. -/
inductive Place
  /-- Before the first character of a record. -/
  | recordStart
  | comment
  | fieldStart
  | plain
  | quoted
  /-- Behind quotes that were opened; they are closed, or the first of two. -/
  | quotedEnd
  deriving DecidableEq

structure Reader where
  place : Place := .recordStart
  /-- The characters of the field so far, the last one first. -/
  field : List Char := []
  /-- The finished fields of the record, the last one first. -/
  fields : List (List Char) := []
  /-- The finished records, the last one first. -/
  records : List (List (List Char)) := []

namespace Reader

def isBreak (c : Char) : Bool := c = '\n' || c = '\r'

def put (r : Reader) (place : Place) (c : Char) : Reader :=
  { r with place, field := c :: r.field }

def endField (r : Reader) : Reader :=
  { r with place := .fieldStart, field := [], fields := r.field.reverse :: r.fields }

def endRecord (r : Reader) : Reader :=
  { records := r.endField.fields.reverse :: r.records }

def stepPlain (r : Reader) (c : Char) : Reader :=
  if c = ',' then r.endField
  else if isBreak c then r.endRecord
  else r.put .plain c

def stepStart (r : Reader) (c : Char) : Reader :=
  if c = '"' then { r with place := .quoted } else r.stepPlain c

def step (r : Reader) (c : Char) : Reader :=
  match r.place with
  | .recordStart =>
    if isBreak c then r
    else if c = '#' then { r with place := .comment }
    else r.stepStart c
  | .comment => if c = '\n' then { r with place := .recordStart } else r
  | .fieldStart => r.stepStart c
  | .plain => r.stepPlain c
  | .quoted => if c = '"' then { r with place := .quotedEnd } else r.put .quoted c
  | .quotedEnd => if c = '"' then r.put .quoted c else r.stepPlain c

/-- All records at the end of the text, which also ends the last one. A comment that goes on to the
end of the text has no characters, and ends as a record too. -/
def finish (r : Reader) : List (List (List Char)) :=
  match r.place with
  | .recordStart => r.records.reverse
  | _ => r.endRecord.records.reverse

end Reader

/-- The fields of all records of a text. A mark of the byte order in front of it does not count. -/
def records (s : List Char) : List (List (List Char)) :=
  let s := match s with
    | '\ufeff' :: rest => rest
    | _ => s
  (s.foldl Reader.step {}).finish

/-- A field that holds one of these characters is written in quotes. -/
def needsQuotes (c : Char) : Bool := c = ',' || c = '"' || c = '\r' || c = '\n'

def doubleQuotes : List Char → List Char
  | [] => []
  | c :: rest => if c = '"' then '"' :: '"' :: doubleQuotes rest else c :: doubleQuotes rest

def field (s : String) : String :=
  if s.toList.any needsQuotes then "\"" ++ String.ofList (doubleQuotes s.toList) ++ "\"" else s

def record (fields : List String) : String := ",".intercalate (fields.map field) ++ "\n"

end BinTrace.Csv
