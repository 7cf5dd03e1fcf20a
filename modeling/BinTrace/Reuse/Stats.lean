import BinTrace.Arithmetic
import BinTrace.KeyMap

/-!
Histograms of reuse distances. A distance is counted in a bin of its own or in one with others, or
as a miss if it is too great.
-/

namespace BinTrace.Reuse

/-- How distances are counted. Zero stands for no limit. -/
structure BinRule where
  /-- Distances up to this one have bins of their own. -/
  individual : Nat
  /-- Distances beyond this one count as misses. -/
  maxTracking : Nat
  deriving DecidableEq

/-- The limit of single bins if no other is asked for. -/
def defaultIndividual : Nat := 32

/-- The last bin, which collects what no power of two in range is great enough for. -/
def lastBin : Nat := 2 ^ 64 - 1

/-- The least power of two that is not less than `n`, or the last bin. -/
def powerBin (n : Nat) : Nat :=
  if 2 ^ 63 < n then lastBin else 2 ^ ((n - 1).log2 + 1)

namespace BinRule

/-- The bin of a distance, which is the greatest distance that is counted there. -/
def bin? (r : BinRule) (distance : Nat) : Option Nat :=
  if r.maxTracking ≠ 0 ∧ r.maxTracking < distance then none
  else if r.individual ≠ 0 ∧ r.individual < distance then some (powerBin distance)
  else some distance

/-- The least distance that is counted in a bin. -/
def lowerBound (r : BinRule) (bin : Nat) : Nat :=
  if r.individual = 0 ∨ bin ≤ r.individual then bin else bin / 2 + 1

end BinRule

/-- The references of one id. -/
structure Stats where
  id : Nat
  rule : BinRule
  accesses : Nat := 0
  misses : Nat := 0
  bins : KeyMap Nat := .empty

/-- A row of a histogram: how many distances were counted from `lower` to `upper`. -/
structure BinRow where
  lower : Nat
  upper : Nat
  count : Nat
  deriving DecidableEq

namespace Stats

/-- Counts a reference; a cold one has no distance. -/
def record (s : Stats) (distance : Option Nat) : Stats :=
  let s := { s with accesses := s.accesses + 1 }
  match distance.bind s.rule.bin? with
  | some bin => { s with bins := s.bins.alter bin 0 (· + 1) }
  | none => { s with misses := s.misses + 1 }

/-- The last bin with a reference, or zero. -/
def maximum (s : Stats) : Nat := s.bins.keys.getLast?.getD 0

def count (s : Stats) (bin : Nat) : Nat := (s.bins.get? bin).getD 0

def distances (s : Stats) : List Nat := s.bins.keys

def histogram (s : Stats) : List BinRow :=
  (s.bins.entries.filter fun (_, count) => 0 < count).map fun (bin, count) =>
    ⟨s.rule.lowerBound bin, bin, count⟩

end Stats

/-- The statistics of all ids that have been seen. -/
structure Log where
  rule : BinRule
  byId : KeyMap Stats := .empty

namespace Log

def record (l : Log) (id : Nat) (distance : Option Nat) : Log :=
  { l with byId := l.byId.alter id { id, rule := l.rule } fun s => s.record distance }

def stats? (l : Log) (id : Nat) : Option Stats := l.byId.get? id

end Log

end BinTrace.Reuse
