import BinTrace.Cache.LineSet
import BinTrace.Random.WordStream

/-!
A cache level: sets of ways that hold lines of memory.
-/

namespace BinTrace.Cache

structure Level where
  /-- Its place in the hierarchy. -/
  number : Nat
  /-- In bytes. -/
  size : Nat
  ways : Nat
  /-- In bytes. -/
  lineSize : Nat
  policy : Policy
  kind : Kind
  /-- The sets that have been used. -/
  sets : KeyMap LineSet := .empty
  /-- Where random choices come from. -/
  words : Random.WordStream

namespace Level

def defaultSeed : Nat := 0x5eed

def seeded (number seed : Nat) : Random.WordStream := .ofSeed (seed ^^^ number)

/-- An empty level. Lines and sets have at least one byte and one way. -/
def new (number size ways lineSize : Nat) (policy : Policy) (kind : Kind) : Level :=
  { number, size, ways := max 1 ways, lineSize := max 1 lineSize, policy, kind,
    words := seeded number defaultSeed }

def withSeed (l : Level) (seed : Nat) : Level := { l with words := seeded l.number seed }

def setCount (l : Level) : Nat := max 1 (l.size / (l.lineSize * l.ways))

/-- Sets with this many ways look lines up in an index. -/
def indexedWays : Nat := 256

def isIndexed (l : Level) : Bool := indexedWays ≤ l.ways

/-- How many low bits of an address tell bytes of a line apart: the zeros at the end of the size. -/
def lineBits (l : Level) : Nat := ((List.range 32).find? l.lineSize.testBit).getD 32

def lineOf (l : Level) (address : Nat) : Nat := address / 2 ^ l.lineBits

def setOf (l : Level) (line : Nat) : Nat := line % l.setCount

def lineSet (l : Level) (set : Nat) : LineSet := (l.sets.get? set).getD .empty

def modifySet (l : Level) (set : Nat) (s : LineSet) : Level :=
  { l with sets := l.sets.insert set s }

def wayIn? (l : Level) (set line : Nat) : Option Nat :=
  let s := l.lineSet set
  if l.isIndexed then s.index.get? line else s.scan? line

def search (l : Level) (line : Nat) : Nat × Option Nat :=
  (l.setOf line, l.wayIn? (l.setOf line) line)

def victimWay (l : Level) (set : Nat) : Nat × Level :=
  match l.policy with
  | .leastRecent => ((l.lineSet set).recent, l)
  | .afterMostRecent => (((l.lineSet set).recent + 1) % l.ways, l)
  | .random =>
    let (way, words) := l.words.draw l.ways
    (way, { l with words })
  | .first => (0, l)

def markUsed (l : Level) (set way : Nat) : Level :=
  l.modifySet set ((l.lineSet set).markUsed l.policy l.ways way)

/-- Puts a line, or nothing, into a way and returns what was there. -/
def replace (l : Level) (line : Option Nat) (set way : Nat) : Option Nat × Level :=
  let (old, s) := (l.lineSet set).store l.isIndexed line way
  let s := if line.isSome then s.markUsed l.policy l.ways way else s
  (old, l.modifySet set s)

/-- Puts a line into the way of its set that the policy chooses. -/
def fill (l : Level) (line : Nat) : Option Nat × Level :=
  let set := l.setOf line
  let (way, l) := l.victimWay set
  l.replace (some line) set way

def resident (l : Level) : Nat := (l.sets.values.map fun s => s.lines.size).sum

/-- Its fields, set apart by tabs. -/
def describe (l : Level) : String :=
  "\t".intercalate [toString l.number, toString l.size, toString l.ways, toString l.lineSize,
    l.policy.name, l.kind.name]

end Level

end BinTrace.Cache
