/-!
Blank characters of all scripts, the words between them, lines, and lines of tables whose columns
are set apart by tabs.
-/

namespace BinTrace.Text

def isBlank (c : Char) : Bool :=
  ('\t' ≤ c && c ≤ '\r') || c = ' ' || c = '\x85' || c = '\xa0' || c = '\u1680' ||
    ('\u2000' ≤ c && c ≤ '\u200a') || c = '\u2028' || c = '\u2029' || c = '\u202f' ||
    c = '\u205f' || c = '\u3000'

/-- The pieces of a text between the characters that break it. -/
def pieces (isBreak : Char → Bool) : List Char → List (List Char)
  | [] => [[]]
  | c :: rest =>
    if isBreak c then [] :: pieces isBreak rest
    else
      match pieces isBreak rest with
      | piece :: more => (c :: piece) :: more
      | [] => [[c]]

def words (s : List Char) : List (List Char) :=
  (pieces isBlank s).filter fun word => !word.isEmpty

/-- A text without the blanks at its ends. -/
def trim (s : List Char) : List Char :=
  ((s.dropWhile isBlank).reverse.dropWhile isBlank).reverse

def lines (s : List Char) : List (List Char) :=
  let all := pieces (· = '\n') s
  if all.getLast? = some [] then all.dropLast else all

def tabLine (fields : List String) : String := "\t".intercalate fields ++ "\n"

end BinTrace.Text
