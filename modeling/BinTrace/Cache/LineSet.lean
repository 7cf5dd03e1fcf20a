import BinTrace.Cache.Policy
import BinTrace.KeyMap

/-!
One set of a cache level: the lines in its ways, and what its replacement policy remembers. Only
what differs from the state at the start is stored. The ways of a set form a ring in the order of
their last use, in which `recent` is the oldest. Sets with many ways look lines up in an index.
-/

namespace BinTrace.Cache

/-- The neighbours of a way in the ring. -/
structure Link where
  prev : Nat
  next : Nat
  deriving DecidableEq

structure LineSet where
  /-- The lines, by way. -/
  lines : KeyMap Nat := .empty
  /-- The way that was used last, or for `leastRecent` the one that was not used for longest. -/
  recent : Nat := 0
  /-- The links that have been changed, by way. -/
  links : KeyMap Link := .empty
  /-- The ways, by line. -/
  index : KeyMap Nat := .empty

namespace LineSet

def empty : LineSet := {}

/-- At the start each way is linked with those of the numbers around it. -/
def firstLink (ways way : Nat) : Link := ⟨(way + ways - 1) % ways, (way + 1) % ways⟩

def link (s : LineSet) (ways way : Nat) : Link := (s.links.get? way).getD (firstLink ways way)

def setLink (s : LineSet) (way : Nat) (l : Link) : LineSet :=
  { s with links := s.links.insert way l }

def setPrev (s : LineSet) (ways way prev : Nat) : LineSet :=
  s.setLink way { s.link ways way with prev }

def setNext (s : LineSet) (ways way next : Nat) : LineSet :=
  s.setLink way { s.link ways way with next }

/-- Takes a way out of its place in the ring and puts it behind the youngest. -/
def moveToEnd (s : LineSet) (ways way : Nat) : LineSet :=
  let l := s.link ways way
  if s.recent = way then { s with recent := l.next }
  else
    let s := (s.setPrev ways l.next l.prev).setNext ways l.prev l.next
    let last := (s.link ways s.recent).prev
    ((s.setLink way ⟨last, s.recent⟩).setPrev ways s.recent way).setNext ways last way

/-- Remembers that a way was used. -/
def markUsed (s : LineSet) (policy : Policy) (ways way : Nat) : LineSet :=
  match policy with
  | .leastRecent => s.moveToEnd ways way
  | .afterMostRecent => { s with recent := way }
  | .random | .first => s

def scan? (s : LineSet) (line : Nat) : Option Nat :=
  (s.lines.entries.find? fun e => e.2 = line).map Prod.fst

/-- Puts a line, or nothing, into a way and returns what was there. -/
def store (s : LineSet) (isIndexed : Bool) (line : Option Nat) (way : Nat) :
    Option Nat × LineSet :=
  let old := s.lines.get? way
  let lines := match line with
    | some line => s.lines.insert way line
    | none => s.lines.erase way
  if isIndexed then
    let index := match old with
      | some old => s.index.erase old
      | none => s.index
    let index := match line with
      | some line => index.insert line way
      | none => index
    (old, { s with lines, index })
  else (old, { s with lines })

end LineSet

end BinTrace.Cache
