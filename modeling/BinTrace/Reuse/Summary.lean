import BinTrace.Reuse.Stats
import BinTrace.Text.Blank

/-!
The written form of reuse statistics: lines with fields that are set apart by tabs.
-/

namespace BinTrace.Reuse

open Text (tabLine)

/-- What a report on a stream of references shows. -/
structure Summary where
  /-- The word that its lines begin with. -/
  tag : String
  capacity : Nat
  rule : BinRule
  /-- In the order of their ids. -/
  stats : List Stats

def Stats.writeBins (s : Stats) : String :=
  String.join (s.histogram.map fun r =>
    tabLine ["", "", toString r.lower, toString r.upper, toString r.count])

namespace Summary

def legend (tag : String) : String :=
  tabLine ["# " ++ tag ++ "STATS", "<window_size>", "<bin_indiv>", "<max_track>", "<id_count>",
    "<tot_access>", "<tot_miss>"] ++
  tabLine ["# ", tag ++ "ID", "<id>", "<id_access>", "<id_miss>"] ++
  tabLine ["# ", "", "<bin_lower_bound>", "<bin_upper_bound>", "<bin_count>"]

def writeStats (tag : String) (s : Stats) : String :=
  tabLine ["", tag ++ "ID", toString s.id, toString s.accesses, toString s.misses] ++ s.writeBins

/-- The totals and, for each id, its histogram; with `annotate`, the names of the columns first. -/
def write (s : Summary) (annotate : Bool) : String :=
  let totals := [s.capacity, s.rule.individual, s.rule.maxTracking, s.stats.length,
    (s.stats.map Stats.accesses).sum, (s.stats.map Stats.misses).sum]
  (if annotate then legend s.tag else "") ++
    tabLine ((s.tag ++ "STATS") :: totals.map toString) ++
    String.join (s.stats.map (writeStats s.tag))

end Summary

end BinTrace.Reuse
