import BinTrace.Cache.Counts
import BinTrace.Cache.Level

/-!
Hierarchies of cache levels. A reference looks for its line in the inclusive levels one after the
other, and every one that does not have it is filled. Victim levels follow them. They share the
lines between them: a line that is found in one of them moves to the first, and the lines that
have to give way move one level down, as far as the place that became free.
-/

namespace BinTrace.Cache

/-- What is wrong with the levels of a hierarchy. -/
inductive HierarchyFault
  | noLevels (sysid : Nat)
  | notVictim (sysid level : Nat)
  | unequalSets (sysid : Nat)
  deriving DecidableEq

def HierarchyFault.message : HierarchyFault → String
  | noLevels sysid => "sysid " ++ toString sysid ++ " has no levels"
  | notVictim sysid level =>
    "sysid " ++ toString sysid ++ " level " ++ toString level ++
      " follows a victim level but is not one"
  | unequalSets sysid =>
    "sysid " ++ toString sysid ++ " has victim levels with different set counts"

structure Hierarchy where
  sysid : Nat
  /-- The levels before the first victim level. -/
  inclusive : List Level
  /-- The first victim level and all levels behind it. -/
  victims : List Level
  totals : List Counts

/-- The place of a line that was found in a victim level. -/
structure Place where
  /-- How many victim levels come before its level. -/
  depth : Nat
  set : Nat
  way : Nat

namespace Hierarchy

def new (sysid : Nat) (levels : List Level) : Hierarchy :=
  let (inclusive, victims) := levels.span fun l => l.kind ≠ .victim
  { sysid, inclusive, victims, totals := levels.map fun _ => {} }

def levels (h : Hierarchy) : List Level := h.inclusive ++ h.victims

def withSeed (h : Hierarchy) (seed : Nat) : Hierarchy :=
  { h with
    inclusive := h.inclusive.map fun l => l.withSeed seed
    victims := h.victims.map fun l => l.withSeed seed }

def levelFaults (sysid sets : Nat) (l : Level) : List HierarchyFault :=
  (if l.kind ≠ .victim then [.notVictim sysid l.number] else []) ++
    (if l.setCount ≠ sets then [.unequalSets sysid] else [])

def faults (h : Hierarchy) : List HierarchyFault :=
  let sets := (h.victims.head?.map Level.setCount).getD 0
  (if h.levels.isEmpty then [.noLevels h.sysid] else []) ++
    h.victims.flatMap (levelFaults h.sysid sets)

/-- Looks for an address in inclusive levels, and fills those that do not have it. The result is
how many levels come before the one that had it. -/
def lookUp (address : Nat) : List Level → Option Nat × List Level
  | [] => (none, [])
  | l :: rest =>
    let line := l.lineOf address
    match l.search line with
    | (set, some way) => (some 0, l.markUsed set way :: rest)
    | (_, none) =>
      let (hit, rest) := lookUp address rest
      (hit.map (· + 1), (l.fill line).2 :: rest)

def find (address : Nat) : List Level → Option (Nat × Place) × List Level
  | [] => (none, [])
  | l :: rest =>
    let line := l.lineOf address
    match l.search line with
    | (set, some way) => (some (line, ⟨0, set, way⟩), l.markUsed set way :: rest)
    | (_, none) =>
      let (found, rest) := find address rest
      (found.map fun (line, p) => (line, { p with depth := p.depth + 1 }), l :: rest)

/-- Puts the line that is under way, or nothing, into the free place of a level. A line of another
set takes the way of its set that the policy chooses. -/
def settle (l : Level) (line : Option Nat) (set way : Nat) : Level :=
  match line with
  | none => (l.replace none set way).2
  | some line =>
    if l.setOf line = set then (l.replace (some line) set way).2
    else (l.fill line).2

/-- Puts a line into the first level and the line that gives way to it into the next, until a way
was empty or the free place is reached. -/
def rotate (line : Option Nat) (free : Option Place) : List Level → List Level
  | [] => []
  | l :: rest =>
    match free with
    | some ⟨0, set, way⟩ => settle l line set way :: rest
    | some ⟨depth + 1, set, way⟩ =>
      match line with
      | some line =>
        let (old, l) := l.fill line
        l :: rotate old (some ⟨depth, set, way⟩) rest
      | none => l :: rotate none (some ⟨depth, set, way⟩) rest
    | none =>
      match line with
      | some line =>
        let (old, l) := l.fill line
        l :: rotate old none rest
      | none => l :: rest

/-- A reference that missed in the inclusive levels. -/
def lookUpVictims (address : Nat) (levels : List Level) : Option Nat × List Level :=
  match find address levels with
  | (some (_, ⟨0, _, _⟩), levels) => (some 0, levels)
  | (some (line, place), levels) => (some place.depth, rotate (some line) (some place) levels)
  | (none, levels) =>
    (none, rotate (levels.head?.map fun l => l.lineOf address) none levels)

/-- Simulates a reference and counts it. The result is the number of the level that had the line,
or none if it came from memory. -/
def process (h : Hierarchy) (address : Nat) : Option Nat × Hierarchy :=
  match lookUp address h.inclusive with
  | (some n, inclusive) =>
    (some n, { h with inclusive, totals := Counts.record h.totals (some n) })
  | (none, inclusive) =>
    let (hit, victims) := lookUpVictims address h.victims
    let hit := hit.map (· + inclusive.length)
    (hit, { h with inclusive, victims, totals := Counts.record h.totals hit })

def summary (h : Hierarchy) : String := Counts.summary h.sysid h.totals

end Hierarchy

end BinTrace.Cache
