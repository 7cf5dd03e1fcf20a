import BinTrace.Json.Value
import BinTrace.Text.Number

/-!
Reading JSON documents. Nothing may follow a document but blanks.
-/

namespace BinTrace.JsonValue

def isSpace (c : Char) : Bool := c = ' ' || c = '\n' || c = '\t' || c = '\r'

def skipSpace (s : List Char) : List Char := s.dropWhile isSpace

/-- The code point that an escape of one letter stands for. -/
def letterEscape? : Char → Option Nat
  | '"' => some 0x22
  | '\\' => some 0x5c
  | '/' => some 0x2f
  | 'b' => some 0x08
  | 'f' => some 0x0c
  | 'n' => some 0x0a
  | 'r' => some 0x0d
  | 't' => some 0x09
  | _ => none

def isLeading (code : Nat) : Bool := 0xd800 ≤ code && code < 0xdc00

def isTrailing (code : Nat) : Bool := 0xdc00 ≤ code && code < 0xe000

/-- Code points with one in front. Two surrogates that belong together become one character. -/
def joinCode (code : Nat) : List Nat → List Nat
  | [] => [code]
  | next :: rest =>
    if isLeading code && isTrailing next then
      (0x10000 + 0x400 * (code - 0xd800) + (next - 0xdc00)) :: rest
    else code :: next :: rest

/-- The code points up to the closing quotes, and what follows those. -/
def readString : List Char → Option (List Nat × List Char)
  | [] => none
  | '"' :: rest => some ([], rest)
  | '\\' :: 'u' :: a :: b :: c :: d :: rest => do
    let code ← Text.ofHexDigits? [a, b, c, d]
    let (codes, rest) ← readString rest
    return (joinCode code codes, rest)
  | '\\' :: c :: rest => do
    let code ← letterEscape? c
    let (codes, rest) ← readString rest
    return (code :: codes, rest)
  | c :: rest => do
    if c.toNat < 0x20 then none
    let (codes, rest) ← readString rest
    return (c.toNat :: codes, rest)

/-- Digits, of which there must be one, and what follows them. -/
def readDigits (s : List Char) : Option (List Char × List Char) :=
  match s.span Char.isDigit with
  | ([], _) => none
  | result => some result

/-- A number does not begin with zero unless that is all it has before the point. -/
def readWhole : List Char → Option (List Char × List Char)
  | '0' :: rest => some (['0'], rest)
  | s => readDigits s

def readFraction : List Char → Option (List Char × List Char)
  | '.' :: rest => readDigits rest
  | s => some ([], s)

def readExponent : List Char → Option (Option Int × List Char)
  | 'e' :: rest | 'E' :: rest => do
    let (isNegative, rest) := match rest with
      | '-' :: rest => (true, rest)
      | '+' :: rest => (false, rest)
      | _ => (false, rest)
    let (digits, rest) ← readDigits rest
    let size : Nat := (Text.ofDigits? digits).getD 0
    return (some (if isNegative then -size else size), rest)
  | s => some (none, s)

def readNumber (s : List Char) : Option (JsonNumber × List Char) := do
  let (isNegative, s) := match s with
    | '-' :: rest => (true, rest)
    | _ => (false, s)
  let (whole, s) ← readWhole s
  let (fraction, s) ← readFraction s
  let (exponent, s) ← readExponent s
  return ({ isNegative, whole, fraction, exponent }, s)

mutual

def readValue (fuel : Nat) (s : List Char) : Option (JsonValue × List Char) :=
  match fuel with
  | 0 => none
  | fuel + 1 =>
    match skipSpace s with
    | '"' :: rest => (readString rest).map fun (codes, rest) => (string codes, rest)
    | '[' :: rest =>
      match skipSpace rest with
      | ']' :: rest => some (array [], rest)
      | rest => (readItems fuel rest).map fun (items, rest) => (array items, rest)
    | '\x7b' :: rest =>
      match skipSpace rest with
      | '\x7d' :: rest => some (object [], rest)
      | rest => (readFields fuel rest).map fun (fields, rest) => (object fields, rest)
    | 'n' :: 'u' :: 'l' :: 'l' :: rest => some (null, rest)
    | 't' :: 'r' :: 'u' :: 'e' :: rest => some (bool true, rest)
    | 'f' :: 'a' :: 'l' :: 's' :: 'e' :: rest => some (bool false, rest)
    | s => (readNumber s).map fun (n, rest) => (number n, rest)

/-- Items up to the closing bracket. -/
def readItems (fuel : Nat) (s : List Char) : Option (List JsonValue × List Char) :=
  match fuel with
  | 0 => none
  | fuel + 1 =>
    match readValue fuel s with
    | none => none
    | some (v, rest) =>
      match skipSpace rest with
      | ',' :: rest => (readItems fuel rest).map fun (items, rest) => (v :: items, rest)
      | ']' :: rest => some ([v], rest)
      | _ => none

def readFields (fuel : Nat) (s : List Char) :
    Option (List (List Nat × JsonValue) × List Char) :=
  match fuel with
  | 0 => none
  | fuel + 1 =>
    match skipSpace s with
    | '"' :: rest =>
      match (readString rest).map fun (name, rest) => (name, skipSpace rest) with
      | some (name, ':' :: rest) =>
        match readValue fuel rest with
        | none => none
        | some (v, rest) =>
          match skipSpace rest with
          | ',' :: rest =>
            (readFields fuel rest).map fun (fields, rest) => ((name, v) :: fields, rest)
          | '\x7d' :: rest => some ([(name, v)], rest)
          | _ => none
      | _ => none
    | _ => none

end

/-- The document that a text is. Every second step takes a character. -/
def ofText? (s : List Char) : Option JsonValue := do
  let (v, rest) ← readValue (2 * s.length + 2) s
  if (skipSpace rest).isEmpty then some v else none

end BinTrace.JsonValue
