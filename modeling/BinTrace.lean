import BinTrace.Function.Bloat
import BinTrace.Program.Instrument
import BinTrace.Report.FunctionListing
import BinTrace.Simulation.Session
import BinTrace.Proofs.Flow.Dominators
import BinTrace.Proofs.Function.Digest
import BinTrace.Proofs.Patch.Preservation
import BinTrace.Proofs.Patch.Rewrite
import BinTrace.Proofs.Flow.Places
import BinTrace.Proofs.Liveness.Passes
import BinTrace.Proofs.Liveness.Paths
import BinTrace.Proofs.Liveness.Analysis
import BinTrace.Proofs.Disassembly.Tables
import BinTrace.Proofs.Flow.Edges
import BinTrace.Proofs.Liveness.Escapes
import BinTrace.Proofs.Reuse.History
import BinTrace.Proofs.Reuse.WeightTree
import BinTrace.Proofs.Reuse.Exact
import BinTrace.Proofs.Reuse.Scale
import BinTrace.Proofs.Reuse.Approximate
import BinTrace.Proofs.Cache.Recency
import BinTrace.Proofs.Cache.Origin
import BinTrace.Proofs.Cache.Exclusion
import BinTrace.Proofs.Decode.Retarget
import BinTrace.Proofs.Decode.PrefixFree
import BinTrace.Proofs.Function.Histories
import BinTrace.Proofs.Encode.Requests
import BinTrace.Proofs.Patch.Targets
import BinTrace.Proofs.Patch.Dumps
import BinTrace.Proofs.Patch.RedZone
import BinTrace.Proofs.Patch.Agreement
import BinTrace.Proofs.Flow.Transfers
import BinTrace.Proofs.Simulation.Buffering
import BinTrace.Proofs.Simulation.Totals
import BinTrace.Proofs.Simulation.Windows
import BinTrace.Proofs.Splay.Refinement
import BinTrace.Proofs.Encode.Moves
import BinTrace.Proofs.Decode.Widen
import BinTrace.Proofs.Disassembly.Closure
import BinTrace.Proofs.Flow.Loops
import BinTrace.Proofs.Reuse.Histogram
import BinTrace.Proofs.Reuse.Spatial
import BinTrace.Proofs.Cache.Representation
import BinTrace.Proofs.Decode.Operands
import BinTrace.Proofs.Liveness.Distances
import BinTrace.Proofs.Program.Image
