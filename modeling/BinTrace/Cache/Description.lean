import BinTrace.Cache.Hierarchy
import BinTrace.Text.Blank
import BinTrace.Text.Number

/-!
Descriptions of cache hierarchies, one on a line: its id, the number of its levels, and for each
level its size, associativity, line size and policy. Sizes may end in a multiplier. From the first
policy with the mark of a victim level on, all levels are victim levels. What follows a number
sign is a comment.
-/

namespace BinTrace.Cache

/-- What is wrong with a line. -/
inductive LineFault
  | tooShort
  | badSysid (word : String)
  | badLevelCount (word : String)
  | wordCount (levels found : Nat)
  | badSize (word : String)
  | badAssociativity (word : String)
  | badLineSize (word : String)
  | unknownPolicy (e : UnknownName)
  | unevenLineSize (size : Nat)
  | lessThanOneSet (level : Nat)
  deriving DecidableEq

/-- Fields of each level of a line, and fields before them. -/
def wordsFor (levels : Nat) : Nat := levels * 4 + 2

namespace LineFault

def bad (what word : String) : String := "bad " ++ what ++ " '" ++ word ++ "'"

def message : LineFault → String
  | tooShort => "expected a sysid and a level count"
  | badSysid word => bad "sysid" word
  | badLevelCount word => bad "level count" word
  | wordCount levels found =>
    toString levels ++ " levels need " ++ toString (wordsFor levels) ++ " tokens, found " ++
      toString found
  | badSize word => bad "size" word
  | badAssociativity word => bad "associativity" word
  | badLineSize word => bad "line size" word
  | unknownPolicy e => e.message
  | unevenLineSize size => "line size " ++ toString size ++ " is not a power of two"
  | lessThanOneSet level => "level " ++ toString level ++ " holds less than one set"

end LineFault

/-- Why a description cannot be used. -/
inductive DescriptionError
  | malformed (line : Nat) (fault : LineFault)
  | invalid (line sysid : Nat) (fault : HierarchyFault)
  | empty
  deriving DecidableEq

def DescriptionError.kind : DescriptionError → String
  | malformed .. => "Malformed"
  | invalid .. => "Invalid"
  | empty => "Empty"

def DescriptionError.message : DescriptionError → String
  | malformed line fault => "line " ++ toString line ++ ": " ++ fault.message
  | invalid line sysid fault =>
    "line " ++ toString line ++ ": sysid " ++ toString sysid ++ " is not a valid hierarchy: " ++
      fault.message
  | empty => "no cache hierarchy described"

namespace Description

/-- The digits of a size, and what to multiply them with. -/
def multiplier (word : List Char) : List Char × Nat :=
  match word.getLast? with
  | some 'k' => (word.dropLast, 2 ^ 10)
  | some 'm' => (word.dropLast, 2 ^ 20)
  | some 'g' => (word.dropLast, 2 ^ 30)
  | _ => (word, 1)

/-- A number of 32 bits that is not less than `least`, with a multiplier and the letter of bytes at
its end. -/
def size? (least : Nat) (word : List Char) : Option Nat :=
  let lower := Text.lowerCase word
  let body := if lower.getLast? = some 'b' then lower.dropLast else lower
  let (digits, factor) := multiplier body
  ((Text.natural? (2 ^ 64) digits).map (· * factor)).filter fun n => least ≤ n && n < 2 ^ 32

def require {α : Type} (fault : String → LineFault) (read : List Char → Option α)
    (word : List Char) : Except LineFault α :=
  match read word with
  | some a => .ok a
  | none => .error (fault (String.ofList word))

def isPowerOfTwo (n : Nat) : Bool := n = 2 ^ n.log2

/-- The levels that words describe, numbered from `number` on; `victim` tells whether a level
before them was a victim level. -/
def levels (number : Nat) (victim : Bool) : List (List Char) → Except LineFault (List Level)
  | size :: associativity :: lineSize :: name :: rest => do
    let size ← require .badSize (size? 1) size
    let ways ← require .badAssociativity (size? 1) associativity
    let lineSize ← require .badLineSize (size? 1) lineSize
    let policy ← (Policy.ofName name).mapError .unknownPolicy
    if !isPowerOfTwo lineSize then throw (.unevenLineSize lineSize)
    if size < lineSize * ways then throw (.lessThanOneSet number)
    let victim := victim || Policy.marksVictim name
    let kind := if victim then .victim else .inclusive
    let rest ← levels (number + 1) victim rest
    return Level.new number size ways lineSize policy kind :: rest
  | _ => .ok []

def hierarchy : List (List Char) → Except LineFault Hierarchy
  | sysid :: count :: rest => do
    let sysid ← require .badSysid (size? 0) sysid
    let count ← require .badLevelCount (size? 1) count
    let found := rest.length + 2
    if found ≠ wordsFor count then throw (.wordCount count found)
    return Hierarchy.new sysid (← levels 0 false rest)
  | _ => .error .tooShort

/-- The hierarchy that a line describes; a line without words describes none. -/
def ofLine (line : List Char) (number : Nat) : Except DescriptionError (Option Hierarchy) :=
  match Text.words (line.takeWhile (· ≠ '#')) with
  | [] => .ok none
  | words =>
    match hierarchy words with
    | .error fault => .error (.malformed number fault)
    | .ok h =>
      match h.faults with
      | [] => .ok (some h)
      | fault :: _ => .error (.invalid number h.sysid fault)

def ofText (text : List Char) : Except DescriptionError (List Hierarchy) := do
  let lines := (Text.lines text).zipIdx 1
  let found ← lines.mapM fun (line, number) => ofLine line number
  match found.filterMap id with
  | [] => throw .empty
  | hierarchies => return hierarchies

end Description

end BinTrace.Cache
