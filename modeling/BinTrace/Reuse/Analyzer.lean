import BinTrace.Reuse.Approximate
import BinTrace.Reuse.Exact
import BinTrace.Reuse.Spatial
import BinTrace.Reuse.Summary

/-!
The three ways to measure the locality of a stream of references.
-/

namespace BinTrace.Reuse

inductive Analyzer
  | exact (e : Exact)
  | approximate (a : Approximate)
  | spatial (s : Spatial)

namespace Analyzer

def process (a : Analyzer) (id address : Nat) : Option Nat × Analyzer :=
  match a with
  | exact e =>
    let (distance, e) := e.process id address
    (distance, exact e)
  | approximate a =>
    let (distance, a) := a.process id address
    (distance, approximate a)
  | spatial s =>
    let (distance, s) := s.process id address
    (distance, spatial s)

def skip (a : Analyzer) (amount : Nat) : Analyzer :=
  match a with
  | exact e => exact (e.skip amount)
  | approximate a => approximate (a.skip amount)
  | spatial s => spatial s.skip

def active : Analyzer → List Nat
  | exact e => e.active
  | approximate a => a.active
  | spatial s => s.active

def log : Analyzer → Log
  | exact e => e.log
  | approximate a => a.log
  | spatial s => s.log

def tag : Analyzer → String
  | exact _ | approximate _ => "REUSE"
  | spatial _ => "SPATIAL"

def capacity : Analyzer → Nat
  | exact e => e.capacity
  | approximate _ => 0
  | spatial s => s.capacity

def summary (a : Analyzer) : Summary :=
  { tag := a.tag, capacity := a.capacity, rule := a.log.rule, stats := a.log.byId.values }

end Analyzer

end BinTrace.Reuse
