import BinTrace.Cache.Description
import BinTrace.Simulation.Report
import BinTrace.Simulation.Trace

/-!
Simulations of files: a configuration, a description of the caches, and the trace of each stream.
-/

namespace BinTrace.Simulation

/-- A file, and its text unless it cannot be read. -/
structure Document where
  path : String
  text : Option String

/-- Why a file is of no use. -/
inductive InputFault
  | unreadable
  | malformedConfig
  | description (e : Cache.DescriptionError)
  deriving DecidableEq

def InputFault.text : InputFault → String
  | unreadable => "Io"
  | malformedConfig => "Json"
  | description e => e.kind ++ ": " ++ e.message

inductive InputError
  | config (path : String) (fault : InputFault)
  | caches (path : String) (fault : InputFault)
  | missingTrace (path : String)
  | badRecord (path : String) (number : Nat)
  deriving DecidableEq

namespace InputError

def message : InputError → String
  | config path _ => "Failed to load simulation config " ++ path
  | caches path _ => "Failed to load cache description " ++ path
  | missingTrace path => "Failed to open trace " ++ path
  | badRecord path number => path ++ ": bad trace record " ++ toString number

def fault? : InputError → Option InputFault
  | config _ fault | caches _ fault => some fault
  | missingTrace _ | badRecord _ _ => none

end InputError

namespace Document

def config (d : Document) : Except InputError Config :=
  match d.text with
  | none => .error (.config d.path .unreadable)
  | some s =>
    match Config.ofText? s.toList with
    | none => .error (.config d.path .malformedConfig)
    | some c => .ok c

def caches (d : Document) : Except InputError (List Cache.Hierarchy) :=
  match d.text with
  | none => .error (.caches d.path .unreadable)
  | some s =>
    (Cache.Description.ofText s.toList).mapError fun e => .caches d.path (.description e)

def trace (d : Document) : Except InputError (List Reference) :=
  match d.text with
  | none => .error (.missingTrace d.path)
  | some s => (readTrace s.toList).mapError fun e => .badRecord d.path e.number

end Document

/-- The files of a simulation. Without a configuration the defaults hold, and without a description
there are no caches. -/
structure Session where
  config : Option Document
  caches : Option Document
  /-- One for each stream. -/
  traces : List Document
  announced : Nat

/-- Simulates every trace as a stream of its own. -/
def Session.run (s : Session) : Except InputError (List Report) := do
  let config ← match s.config with
    | some d => d.config
    | none => .ok {}
  let hierarchies ← match s.caches with
    | some d => d.caches
    | none => .ok []
  let traces ← s.traces.mapM Document.trace
  let contexts := traces.zipIdx.map fun (_, n) => Context.new n config hierarchies s.announced
  return (simulateStreams contexts traces).map Context.report

end BinTrace.Simulation
