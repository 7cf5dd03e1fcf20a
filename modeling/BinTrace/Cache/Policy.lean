import BinTrace.Text.LowerCase
import BinTrace.Text.Name

/-!
Which line of a full set gives way to a new one, and how the levels of a hierarchy work together.
-/

namespace BinTrace.Cache

inductive Policy
  /-- The line that was used least recently. -/
  | leastRecent
  /-- The line behind the one that was used last. -/
  | afterMostRecent
  | random
  /-- The first line of the set. -/
  | first
  deriving DecidableEq

namespace Policy

def name : Policy → String
  | leastRecent => "truelru"
  | afterMostRecent => "nmru"
  | random => "random"
  | first => "direct"

/-- What a name ends in that makes its level a victim level. -/
def victimMark : List Char := "_vc".toList

/-- The name in lower case without the mark of a victim level. -/
def plainName (s : List Char) : List Char :=
  let s := Text.lowerCase s
  if victimMark.isSuffixOf s then s.take (s.length - victimMark.length) else s

def marksVictim (s : List Char) : Bool := victimMark.isSuffixOf (Text.lowerCase s)

/-- The policy that a name begins with. Each has names of its own and those of descriptions. -/
def ofName (s : List Char) : Except UnknownName Policy :=
  let s := plainName s
  let begins (names : List String) : Bool := names.any fun name => name.toList.isPrefixOf s
  if begins ["trulru", "truelru"] then .ok leastRecent
  else if begins ["lru", "nmru"] then .ok afterMostRecent
  else if begins ["rand"] then .ok random
  else if begins ["dir"] then .ok first
  else .error ⟨"replacement policy", String.ofList s⟩

end Policy

inductive Kind
  /-- Is filled with every line that misses. -/
  | inclusive
  /-- Holds lines that had to leave the level above. -/
  | victim
  deriving DecidableEq

def Kind.name : Kind → String
  | inclusive => "inclusive"
  | victim => "victim"

end BinTrace.Cache
