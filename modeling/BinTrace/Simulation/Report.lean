import BinTrace.Csv
import BinTrace.Decimal.Double
import BinTrace.Json.Printer
import BinTrace.Report.Format
import BinTrace.Simulation.Context

/-!
What was measured on a stream, and its written forms: tables, a JSON document, and one row for each
block and cache level.
-/

namespace BinTrace.Simulation

open JsonValue (ofNat ofDouble ofString)
open Text (tabLine)

structure HierarchyReport where
  sysid : Nat
  levels : List Cache.Counts

structure BlockReport where
  block : Nat
  visits : Nat
  accesses : Nat
  saturation : Float
  levels : List (List Cache.Counts)

structure Report where
  stream : Nat
  total : Nat
  sampled : Nat
  sampling : Sampling
  hierarchies : List HierarchyReport
  /-- The blocks that were executed or made references. -/
  blocks : List BlockReport
  reuse : Option Reuse.Summary
  spatial : Option Reuse.Summary

namespace Context

def blockReports (c : Context) : List BlockReport :=
  c.blocks.entries.map fun (block, b) =>
    { block, visits := b.visits, accesses := b.accesses, saturation := b.saturation c.total,
      levels := b.levels }

def report (c : Context) : Report :=
  { stream := c.stream, total := c.total, sampled := c.sampled, sampling := c.config.sampling
    hierarchies := c.hierarchies.map fun h => ⟨h.sysid, h.totals⟩
    blocks := c.blockReports
    reuse := c.reuse.map Reuse.Analyzer.summary
    spatial := c.spatial.map Reuse.Analyzer.summary }

end Context

namespace HierarchyReport

def columns (h : HierarchyReport) : List String :=
  h.levels.zipIdx.flatMap fun (_, n) =>
    let level := "<sys" ++ toString h.sysid ++ "_l" ++ toString n
    [level ++ "_hits>", level ++ "_misses>"]

end HierarchyReport

namespace BlockReport

def saturationText (b : BlockReport) : String := Decimal.fixed 3 b.saturation

def text (b : BlockReport) : String :=
  tabLine (["BLK", toString b.block, toString b.visits, b.saturationText] ++
    b.levels.flatten.flatMap fun l => [toString l.hits, toString l.misses])

def csv (stream : Nat) (hierarchies : List HierarchyReport) (b : BlockReport) : String :=
  String.join <| (hierarchies.zip b.levels).flatMap fun (h, levels) =>
    levels.zipIdx.map fun (l, n) =>
      Csv.record [toString stream, toString b.block, toString b.visits, toString b.accesses,
        b.saturationText, toString h.sysid, toString n, toString l.hits, toString l.misses]

end BlockReport

def countsJson (l : Cache.Counts) : JsonValue :=
  .record [("hits", ofNat l.hits), ("misses", ofNat l.misses)]

def levelsJson (levels : List Cache.Counts) : JsonValue := .array (levels.map countsJson)

def samplingJson (s : Sampling) : JsonValue :=
  .record [("access_limit", ofNat s.accessLimit), ("sample_on", ofNat s.on),
    ("sample_off", ofNat s.off)]

def hierarchyJson (h : HierarchyReport) : JsonValue :=
  .record [("sysid", ofNat h.sysid), ("levels", levelsJson h.levels)]

def blockJson (b : BlockReport) : JsonValue :=
  .record [("id", ofNat b.block), ("visits", ofNat b.visits), ("accesses", ofNat b.accesses),
    ("saturation", ofDouble b.saturation), ("levels", .array (b.levels.map levelsJson))]

def statsJson (s : Reuse.Stats) : JsonValue :=
  .record [("id", ofNat s.id), ("bin_individual", ofNat s.rule.individual),
    ("max_tracking", ofNat s.rule.maxTracking), ("accesses", ofNat s.accesses),
    ("misses", ofNat s.misses),
    ("bins", .record (s.bins.entries.map fun (bin, count) => (toString bin, ofNat count)))]

def summaryJson (s : Reuse.Summary) : JsonValue :=
  .record [("kind", ofString s.tag), ("capacity", ofNat s.capacity),
    ("bin_individual", ofNat s.rule.individual), ("max_tracking", ofNat s.rule.maxTracking),
    ("stats", .array (s.stats.map statsJson))]

namespace Report

/-- Totals of the hierarchies, the names of the columns, and a line for each block. -/
def cacheText (r : Report) : String :=
  String.join (r.hierarchies.map fun h => Cache.Counts.summary h.sysid h.levels ++ "\n") ++
    tabLine (["# BLK", "<id>", "<visits>", "<saturation>"] ++
      r.hierarchies.flatMap HierarchyReport.columns) ++
    String.join (r.blocks.map BlockReport.text)

/-- All tables; with `annotate`, those of the distances have the names of their columns. -/
def text (r : Report) (annotate : Bool) : String :=
  r.cacheText ++
    String.join ((r.reuse.toList ++ r.spatial.toList).map fun s => s.write annotate)

def json (r : Report) : JsonValue :=
  .record [("stream", ofNat r.stream), ("total_accesses", ofNat r.total),
    ("sampled_accesses", ofNat r.sampled), ("sampling", samplingJson r.sampling),
    ("hierarchies", .array (r.hierarchies.map hierarchyJson)),
    ("blocks", .array (r.blocks.map blockJson)),
    ("reuse", (r.reuse.map summaryJson).getD .null),
    ("spatial", (r.spatial.map summaryJson).getD .null)]

def csv (r : Report) : String :=
  Csv.record ["stream", "block", "visits", "accesses", "saturation", "sysid", "level", "hits",
    "misses"] ++
    String.join (r.blocks.map (BlockReport.csv r.stream r.hierarchies))

def write (r : Report) : ReportFormat → String
  | .text => r.text false
  | .json => r.json.pretty
  | .csv => r.csv

end Report

end BinTrace.Simulation
