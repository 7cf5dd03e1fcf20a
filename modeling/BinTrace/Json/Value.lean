import BinTrace.Json.Number

/-!
JSON documents. A number is kept as it is written, and a string as its code points, among which a
document may have surrogates that stand alone; `textOf?` refuses those.
-/

namespace BinTrace

inductive JsonValue
  | null
  | bool (b : Bool)
  | number (n : JsonNumber)
  | string (codes : List Nat)
  | array (items : List JsonValue)
  | object (fields : List (List Nat × JsonValue))

namespace JsonValue

def codesOf (s : String) : List Nat := s.toList.map Char.toNat

def isSurrogate (code : Nat) : Bool := 0xd800 ≤ code && code ≤ 0xdfff

/-- The string of the code points, if all of them are characters. -/
def textOf? (codes : List Nat) : Option String :=
  if codes.any isSurrogate then none else some (String.ofList (codes.map Char.ofNat))

def ofString (s : String) : JsonValue := string (codesOf s)

def ofNat (n : Nat) : JsonValue := number (.ofNat n)

def ofDouble (x : Float) : JsonValue := ((JsonNumber.ofDouble? x).map number).getD null

/-- An object whose fields have the given names. -/
def record (fields : List (String × JsonValue)) : JsonValue :=
  object (fields.map fun (name, value) => (codesOf name, value))

end JsonValue

end BinTrace
