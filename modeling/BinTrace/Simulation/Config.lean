import BinTrace.Json.Reader
import BinTrace.Json.Record
import BinTrace.Reuse.Spatial

/-!
Which measurements run, and how great they are. Of a stream `on` references are simulated, then `off`
of them not, and so on, and blocks that have been executed more often than a limit are left out
altogether. A configuration is written as a JSON document, in which all fields have defaults.
-/

namespace BinTrace.Simulation

structure Sampling where
  /-- Zero stands for no limit. -/
  accessLimit : Nat := 0
  on : Nat := 1
  off : Nat := 0
  deriving DecidableEq

structure Config where
  sampling : Sampling := {}
  measuresReuse : Bool := false
  /-- How many addresses the window of reuse distances holds; zero stands for no limit. -/
  reuseCapacity : Nat := 0
  reuseIndividual : Nat := Reuse.defaultIndividual
  /-- Reuse distances may have this relative error. -/
  errorRate : Option Float := none
  measuresSpatial : Bool := false
  spatialCapacity : Nat := Reuse.Spatial.defaultCapacity
  spatialIndividual : Nat := Reuse.defaultIndividual
  spatialMaxTracking : Nat := 0
  /-- How many references are collected before they are simulated. -/
  bufferCapacity : Nat := 2 ^ 16
  seed : Option Nat := none

namespace Sampling

/-- The reference that comes after `count` others is simulated. A period that has more than 64 bits
does not come round. -/
def samples (s : Sampling) (count : Nat) : Bool :=
  if s.on + s.off < 2 ^ 64 then count % (s.on + s.off) < s.on else count < s.on

def exceedsLimit (s : Sampling) (count : Nat) : Bool := 0 < s.accessLimit && s.accessLimit < count

def fieldNames : List String := ["access_limit", "sample_on", "sample_off"]

def ofJson? (v : JsonValue) : Option Sampling := do
  let fields ← v.fields? fieldNames
  let word (name : String) (default : Nat) := JsonValue.fieldOr fields name JsonValue.word? default
  let d : Sampling := {}
  return {
    accessLimit := ← word "access_limit" d.accessLimit
    on := ← word "sample_on" d.on
    off := ← word "sample_off" d.off }

end Sampling

namespace Config

def fieldNames : List String :=
  ["sampling", "reuse", "reuse_capacity", "reuse_bin_individual", "approx_error_rate", "spatial",
   "spatial_window", "spatial_bin_individual", "spatial_max_tracking", "buffer_capacity", "seed"]

def ofJson? (v : JsonValue) : Option Config := do
  let fields ← v.fields? fieldNames
  let field {α : Type} (name : String) (read : JsonValue → Option α) (default : α) : Option α :=
    JsonValue.fieldOr fields name read default
  let d : Config := {}
  return {
    sampling := ← field "sampling" Sampling.ofJson? d.sampling
    measuresReuse := ← field "reuse" JsonValue.bool? d.measuresReuse
    reuseCapacity := ← field "reuse_capacity" JsonValue.word? d.reuseCapacity
    reuseIndividual := ← field "reuse_bin_individual" JsonValue.word? d.reuseIndividual
    errorRate := ← field "approx_error_rate" (JsonValue.optional? JsonValue.double?) d.errorRate
    measuresSpatial := ← field "spatial" JsonValue.bool? d.measuresSpatial
    spatialCapacity := ← field "spatial_window" JsonValue.word? d.spatialCapacity
    spatialIndividual := ← field "spatial_bin_individual" JsonValue.word? d.spatialIndividual
    spatialMaxTracking := ← field "spatial_max_tracking" JsonValue.word? d.spatialMaxTracking
    bufferCapacity := ← field "buffer_capacity" JsonValue.word? d.bufferCapacity
    seed := ← field "seed" (JsonValue.optional? JsonValue.word?) d.seed }

def ofText? (s : List Char) : Option Config := JsonValue.ofText? s >>= ofJson?

end Config

end BinTrace.Simulation
