import BinTrace.Cache.Hierarchy
import BinTrace.Reuse.Analyzer
import BinTrace.Simulation.Config

/-!
The simulation of a stream of references. References are collected in a buffer and simulated when
it is full. What the sampling leaves out is only counted; the windows of reuse distances forget
their addresses when the next reference is simulated.
-/

namespace BinTrace.Simulation

/-- A reference to memory by a block of code. -/
structure Reference where
  block : Nat
  address : Nat
  deriving DecidableEq

/-- What is counted for a block. -/
structure BlockCounters where
  visits : Nat := 0
  accesses : Nat := 0
  /-- How many references of the stream came before the visit that exceeded the limit. -/
  saturatedAt : Option Nat := none
  /-- For each hierarchy, the hits and misses of its levels. -/
  levels : List (List Cache.Counts)

namespace BlockCounters

/-- Counters of a block before anything is counted. -/
def fresh (hierarchies : List Cache.Hierarchy) : BlockCounters where
  levels := hierarchies.map fun h => h.levels.map fun _ => {}

/-- How much of a stream came before the block exceeded the limit, in percent. -/
def saturation (b : BlockCounters) (total : Nat) : Float :=
  match b.saturatedAt with
  | some count => if 0 < total then Float.ofNat count * 100 / Float.ofNat total else 100
  | none => 100

end BlockCounters

structure Context where
  stream : Nat
  config : Config
  hierarchies : List Cache.Hierarchy
  reuse : Option Reuse.Analyzer
  spatial : Option Reuse.Analyzer
  /-- The blocks below this number have counters from the beginning, and others once they occur. -/
  announced : Nat
  /-- The counters of the blocks that have occurred. -/
  blocks : KeyMap BlockCounters := .empty
  buffer : Array Reference := #[]
  total : Nat := 0
  sampled : Nat := 0
  /-- How many were left out since the last one that was simulated. -/
  skipped : Nat := 0

namespace Context

def reuseAnalyzer (c : Config) : Reuse.Analyzer :=
  match c.errorRate with
  | some rate => .approximate (.new (.ofRate rate) c.reuseIndividual)
  | none => .exact (.new c.reuseCapacity c.reuseIndividual)

def spatialAnalyzer (c : Config) : Reuse.Analyzer :=
  .spatial (.new c.spatialCapacity c.spatialIndividual c.spatialMaxTracking)

def new (stream : Nat) (config : Config) (hierarchies : List Cache.Hierarchy) (announced : Nat) :
    Context :=
  let hierarchies := match config.seed with
    | some seed => hierarchies.map fun h => h.withSeed seed
    | none => hierarchies
  { stream, config, hierarchies, announced
    reuse := if config.measuresReuse then some (reuseAnalyzer config) else none
    spatial := if config.measuresSpatial then some (spatialAnalyzer config) else none }

def counters (c : Context) (block : Nat) : BlockCounters :=
  (c.blocks.get? block).getD (.fresh c.hierarchies)

/-- The block was announced or has occurred. -/
def knows (c : Context) (block : Nat) : Bool :=
  block < c.announced || (c.blocks.get? block).isSome

/-- The numbers of the blocks that occurred without having been announced. -/
def unannounced (c : Context) : List Nat := c.blocks.keys.filter fun block => c.announced ≤ block

/-- The numbers of all blocks that have counters, in increasing order. -/
def ids (c : Context) : List Nat := List.range c.announced ++ c.unannounced

def modifyBlock (c : Context) (block : Nat) (f : BlockCounters → BlockCounters) : Context :=
  { c with blocks := c.blocks.insert block (f (c.counters block)) }

def visit (c : Context) (block : Nat) : Context :=
  c.modifyBlock block fun b =>
    let visits := b.visits + 1
    { b with
      visits
      saturatedAt := b.saturatedAt.or
        (if c.config.sampling.exceedsLimit visits then some c.total else none) }

/-- Makes the analyzers forget what came before references that were left out. -/
def catchUp (c : Context) : Context :=
  if c.skipped = 0 then c
  else
    { c with
      reuse := c.reuse.map fun a => a.skip c.skipped
      spatial := c.spatial.map fun a => a.skip c.skipped
      skipped := 0 }

/-- Passes a reference to the caches and the analyzers. -/
def observe (c : Context) (r : Reference) : Context :=
  let steps := c.hierarchies.map fun h => h.process r.address
  let hits := steps.map Prod.fst
  let c := c.modifyBlock r.block fun b =>
    { b with levels := List.zipWith Cache.Counts.record b.levels hits }
  { c with
    sampled := c.sampled + 1
    hierarchies := steps.map Prod.snd
    reuse := c.reuse.map fun a => (a.process r.block r.address).2
    spatial := c.spatial.map fun a => (a.process r.block r.address).2 }

/-- Counts a reference and simulates it, unless the sampling leaves it out. -/
def simulate (c : Context) (r : Reference) : Context :=
  let isSampled := (c.counters r.block).saturatedAt.isNone && c.config.sampling.samples c.total
  let c := c.modifyBlock r.block fun b => { b with accesses := b.accesses + 1 }
  let c := { c with total := c.total + 1 }
  if isSampled then c.catchUp.observe r else { c with skipped := c.skipped + 1 }

def drain (c : Context) : Context := c.buffer.foldl simulate { c with buffer := #[] }

def record (c : Context) (r : Reference) : Context :=
  let c := { c with buffer := c.buffer.push r }
  if max 1 c.config.bufferCapacity ≤ c.buffer.size then c.drain else c

def processTrace (c : Context) (trace : List Reference) : Context := (trace.foldl record c).drain

/-- The state in short. -/
def describe (c : Context) : String :=
  let field (name : String) (n : Nat) : String := name ++ ": " ++ toString n
  "SimulationContext \x7b " ++ ", ".intercalate [field "stream" c.stream,
    field "hierarchies" c.hierarchies.length, field "blocks" (c.announced + c.unannounced.length),
    field "total" c.total, field "sampled" c.sampled] ++ " \x7d"

end Context

/-- Simulates a trace in each context. Contexts and traces that are left over stay as they are. -/
def simulateStreams : List Context → List (List Reference) → List Context
  | c :: contexts, trace :: traces => c.processTrace trace :: simulateStreams contexts traces
  | contexts, _ => contexts

end BinTrace.Simulation
