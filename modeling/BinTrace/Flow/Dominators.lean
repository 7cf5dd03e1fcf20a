import BinTrace.Flow.Build
import BinTrace.Flow.Numbering

/-!
Dominators. A block dominates another if all paths from the entry to the other lead through it. The
semidominator of a node is the node with the least number from which a path leads there through
greater numbers. Semidominators are found from the last number to the first, in a forest that grows
by one edge of the depth-first tree at a time; the immediate dominators follow from them.
-/

namespace BinTrace

/-- A part of a depth-first tree. From each node a pointer leads to some node above it, or nowhere
if the node is the root of its tree. -/
structure Forest (n : Nat) where
  /-- The numbers of the semidominators, as far as they are known. -/
  semi : Vector Nat n
  ancestor : Vector (Option Nat) n := Vector.replicate n none
  /-- Of the nodes that a pointer passes over one with the least semidominator, its start included. -/
  label : Vector Nat n := Vector.range n

namespace Forest

variable {n : Nat}

/-- Nodes without a number have none that is less than another. -/
def semiOf (f : Forest n) (v : Nat) : Nat := f.semi[v]?.getD n

def ancestor? (f : Forest n) (v : Nat) : Option Nat := f.ancestor[v]?.join

def labelOf (f : Forest n) (v : Nat) : Nat := f.label[v]?.getD v

/-- Hangs the tree of `v` below its parent. -/
def link (f : Forest n) (parent v : Nat) : Forest n :=
  { f with ancestor := f.ancestor.setIfInBounds v (some parent) }

/-- The nodes on the way up from `v` that have a pointer to a node which is no root. The way has to
come to its end within `fuel` steps. -/
def trail (f : Forest n) : Nat → Nat → Option (List Nat)
  | 0, _ => none
  | fuel + 1, v =>
    match f.ancestor? v with
    | none => some []
    | some a =>
      if (f.ancestor? a).isSome then (trail f fuel a).map fun path => v :: path else some []

/-- Lets the pointer of `v` pass over the node that it leads to. -/
def shorten (v : Nat) (f : Forest n) : Forest n :=
  match f.ancestor? v with
  | none => f
  | some a =>
    { f with
      label :=
        if f.semiOf (f.labelOf a) < f.semiOf (f.labelOf v) then
          f.label.setIfInBounds v (f.labelOf a)
        else f.label
      ancestor := f.ancestor.setIfInBounds v (f.ancestor? a) }

/-- Lets the pointers on the way up from `v` lead to the root, beginning with the upper ones. -/
def compress (f : Forest n) (v : Nat) : Option (Forest n) :=
  (f.trail n v).map fun path => path.foldr shorten f

/-- A node with the least semidominator between the root and `v`; for a root the root itself. -/
def eval (f : Forest n) (v : Nat) : Option (Forest n × Nat) :=
  match f.ancestor? v with
  | none => some (f, v)
  | some _ => (f.compress v).map fun f => (f, f.labelOf v)

/-- Lowers the semidominator of `w` to what the edge from `v` to `w` gives. -/
def relax (w : Nat) (f : Forest n) (v : Nat) : Option (Forest n) := do
  let (f, u) ← f.eval v
  return if f.semiOf u < f.semiOf w then
    { f with semi := f.semi.setIfInBounds w (f.semiOf u) }
  else f

end Forest

/-- The way from the last number to the first. -/
structure SemiPass (n : Nat) where
  forest : Forest n
  /-- For each node those that wait for it, which is their semidominator. -/
  bucket : Vector (List Nat) n := Vector.replicate n []
  /-- The immediate dominator, or another node with the same one that has a lesser number. -/
  idom : Vector (Option Nat) n := Vector.replicate n none

namespace SemiPass

variable {n : Nat}

def start (t : Numbering n) : SemiPass n where
  forest := { semi := t.number.map fun number => number.getD n }

def bucketOf (s : SemiPass n) (v : Nat) : List Nat := s.bucket[v]?.getD []

/-- Decides about a node that waits for `p`. -/
def settle (p : Nat) (s : SemiPass n) (v : Nat) : Option (SemiPass n) := do
  let (f, u) ← s.forest.eval v
  let idom := s.idom.setIfInBounds v (some (if f.semiOf u < f.semiOf v then u else p))
  return { s with forest := f, idom }

/-- Lets `v` wait for its semidominator. -/
def enqueue (d v : Nat) (s : SemiPass n) : SemiPass n :=
  { s with bucket := s.bucket.setIfInBounds d (s.bucketOf d ++ [v]) }

/-- Decides about all nodes that wait for `p`. -/
def release (p : Nat) (s : SemiPass n) : Option (SemiPass n) :=
  (s.bucketOf p).foldlM (settle p) { s with bucket := s.bucket.setIfInBounds p [] }

def findSemi (t : Numbering n) (preds : Edges) (w : Nat) (s : SemiPass n) :
    Option (SemiPass n) := do
  let sources := (preds.getD w []).filter fun v => (t.number? v).isSome
  let forest ← sources.foldlM (Forest.relax w) s.forest
  return { s with forest }

/-- The work for the node with number `i`. -/
def process (t : Numbering n) (preds : Edges) (i : Nat) (s : SemiPass n) : Option (SemiPass n) := do
  let w := t.nodeAt i
  let s ← s.findSemi t preds w
  let s := s.enqueue (t.nodeAt (s.forest.semiOf w)) w
  match t.parent? w with
  | none => return s
  | some p => release p { s with forest := s.forest.link p w }

/-- The work for the nodes from number `i` down to the first, which is left out. -/
def down (t : Numbering n) (preds : Edges) : Nat → SemiPass n → Option (SemiPass n)
  | 0, s => some s
  | i + 1, s => s.process t preds (i + 1) >>= down t preds i

/-- Takes the immediate dominator from the node that has the same one. -/
def correct (t : Numbering n) (semi : Nat → Nat) (idom : Vector (Option Nat) n) (w : Nat) :
    Vector (Option Nat) n :=
  let d := idom[w]?.join
  if d = some (t.nodeAt (semi w)) then idom
  else idom.setIfInBounds w (d.bind fun d => idom[d]?.join)

end SemiPass

/-- The immediate dominators of the nodes that can be reached from the entry. The entry and the
nodes that cannot be reached have none. -/
def immediateDominators (edges preds : Edges) (entry : Nat) :
    Option (Vector (Option Nat) edges.size) := do
  let t := Numbering.ofEntry edges entry
  let s ← (SemiPass.start t).down t preds (t.nodes.size - 1)
  let idom := (t.nodes.toList.drop 1).foldl (SemiPass.correct t s.forest.semiOf) s.idom
  return t.number.zipWith (fun number d => if number.getD 0 = 0 then none else d) idom

namespace FlowGraph

def backwardEdges (g : FlowGraph) : Edges := (g.blocks.map Block.preds).toArray

def setDominators (g : FlowGraph) : FlowGraph :=
  match g.entryBlock?.bind (immediateDominators g.edges g.backwardEdges) with
  | none => g
  | some idom => g.mapBlocks fun number b => { b with idom := idom[number]?.join }

def idoms (g : FlowGraph) : Array (Option Nat) := (g.blocks.map Block.idom).toArray

/-- Follows immediate dominators in search of `a`, which has to come to its end within `fuel`
blocks. -/
def dominatesWithin (idoms : Array (Option Nat)) (a : Nat) : Nat → Nat → Option Bool
  | 0, _ => none
  | fuel + 1, b =>
    if b = a then some true
    else
      match idoms.getD b none with
      | some d => dominatesWithin idoms a fuel d
      | none => some false

/-- By the immediate dominators, `a` dominates `b`. Every block dominates itself. -/
def dominatesBy (idoms : Array (Option Nat)) (a b : Nat) : Option Bool :=
  dominatesWithin idoms a (idoms.size + 1) b

def dominates (g : FlowGraph) (a b : Nat) : Bool := (dominatesBy g.idoms a b).getD false

end FlowGraph

end BinTrace
