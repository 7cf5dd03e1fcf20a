import BinTrace.Reuse.WeightTree

/-!
Weighted trees in an array. The nodes refer to each other by their places, and to their parents as
well; places that have become free are used again. Every search for a key rotates the node at which
it ends to the root, so that the ways to keys which are asked for often stay short. What is asked of
such a tree is answered as by a `WeightTree` with the same entries.

There is no result where a place is referred to that is not there, where a weight grows beyond the
greatest one, or where a loop does not end: nothing bounds the loops but the links that they follow.
-/

namespace BinTrace

/-- Takes one turn after another until one gives a result. There is none if a turn fails, or if the
turns do not end. -/
def loop {σ β : Type} (s : σ) (f : σ → Option (σ ⊕ β)) : Option β := do
  match ← f s with
  | .inl s => some s >>= loop (f := f)
  | .inr result => return result
partial_fixpoint

/-- The two children of a node. -/
inductive Side
  | left
  | right
  deriving DecidableEq

def Side.other : Side → Side
  | left => right
  | right => left

structure SplayNode (α : Type) where
  key : Nat
  value : α
  weight : Nat
  /-- The weight of the node and of all nodes below it. -/
  total : Nat
  left : Option Nat := none
  right : Option Nat := none
  parent : Option Nat := none

namespace SplayNode

variable {α : Type}

def child (node : SplayNode α) : Side → Option Nat
  | .left => node.left
  | .right => node.right

def withChild (node : SplayNode α) (side : Side) (n : Option Nat) : SplayNode α :=
  match side with
  | .left => { node with left := n }
  | .right => { node with right := n }

def withParent (node : SplayNode α) (n : Option Nat) : SplayNode α := { node with parent := n }

def withTotal (node : SplayNode α) (total : Nat) : SplayNode α := { node with total }

end SplayNode

/-- All nodes, by their places. -/
abbrev SplayNodes (α : Type) := Array (SplayNode α)

namespace SplayNodes

variable {α : Type}

/-- The sum of two weights, which has to be a weight too. -/
def addWeights (a b : Nat) : Option Nat :=
  if a + b ≤ WeightTree.maxWeight then some (a + b) else none

def change (ns : SplayNodes α) (n : Nat) (f : SplayNode α → SplayNode α) : Option (SplayNodes α) :=
  if n < ns.size then some (ns.modify n f) else none

/-- Changes the node that a link leads to, if it leads to one. -/
def changeAt (ns : SplayNodes α) (link : Option Nat) (f : SplayNode α → SplayNode α) :
    Option (SplayNodes α) :=
  match link with
  | none => some ns
  | some n => ns.change n f

/-- The weight of all nodes from a link on. -/
def total (ns : SplayNodes α) : Option Nat → Option Nat
  | none => some 0
  | some n => SplayNode.total <$> ns[n]?

/-- Sums up the weight of a node and the nodes below it. -/
def update (ns : SplayNodes α) (n : Nat) : Option (SplayNodes α) := do
  let node ← ns[n]?
  let left ← ns.total node.left
  let right ← ns.total node.right
  let sum ← addWeights (← addWeights node.weight left) right
  ns.change n (·.withTotal sum)

/-- Links two nodes with each other, if there are two. -/
def setChild (ns : SplayNodes α) (parent : Option Nat) (side : Side) (child : Option Nat) :
    Option (SplayNodes α) := do
  let ns ← ns.changeAt parent (·.withChild side child)
  ns.changeAt child (·.withParent parent)

/-- On which side of its parent a node is; one without a parent counts as a right child. -/
def sideOf (ns : SplayNodes α) (n : Nat) : Option Side := do
  match (← ns[n]?).parent with
  | none => return .right
  | some p => return if (← ns[p]?).left = some n then .left else .right

/-- Links a node and its parent the other way round: the parent becomes the child on the other
side. -/
def exchange (ns : SplayNodes α) (x p : Nat) : Option (SplayNodes α) := do
  let node ← ns[x]?
  let above := (← ns[p]?).parent
  let side ← ns.sideOf x
  let parentSide ← ns.sideOf p
  let ns ← ns.setChild (some p) side (node.child side.other)
  let ns ← ns.setChild (some x) side.other (some p)
  let ns ← ns.change x (·.withParent above)
  if above.isSome then ns.setChild above parentSide (some x) else return ns

/-- Rotates a node up by one step. -/
def rotate (ns : SplayNodes α) (x : Nat) : Option (SplayNodes α) := do
  let p ← (← ns[x]?).parent
  let ns ← ns.exchange x p
  let ns ← ns.update p
  ns.update x

/-- Rotates a node up by two steps, or by one if its parent has no parent. -/
def climb (ns : SplayNodes α) (x p : Nat) : Option (SplayNodes α) := do
  let ns ←
    if (← ns[p]?).parent.isSome then
      ns.rotate (if (← ns.sideOf x) = (← ns.sideOf p) then p else x)
    else some ns
  ns.rotate x

/-- Rotates a node up until it has no parent. -/
def splay (ns : SplayNodes α) (x : Nat) : Option (SplayNodes α) :=
  loop ns fun ns => do
    match (← ns[x]?).parent with
    | none => return .inr ns
    | some p => return .inl (← ns.climb x p)

/-- The way down to a key: the node that has it, if there is one, and the last node of the way. -/
def descend (ns : SplayNodes α) (key : Nat) (n last : Option Nat) :
    Option (Option Nat × Option Nat) :=
  loop (n, last) fun (n, last) => do
    match n with
    | none => return .inr (none, last)
    | some n =>
      let node ← ns[n]?
      if key = node.key then return .inr (some n, some n)
      return .inl (node.child (if key < node.key then .left else .right), some n)

/-- The last node from a node on, always on one side. -/
def outermost (ns : SplayNodes α) (side : Side) (n : Nat) : Option Nat :=
  loop n fun n => do
    match (← ns[n]?).child side with
    | none => return .inr n
    | some n => return .inl n

/-- Adds up the weights of all keys greater than `key` on one way down. -/
def sumAbove (ns : SplayNodes α) (key : Nat) (n : Option Nat) (sum : Nat) : Option Nat :=
  loop (n, sum) fun (n, sum) => do
    match n with
    | none => return .inr sum
    | some n =>
      let node ← ns[n]?
      if key < node.key then
        let weight ← addWeights node.weight (← ns.total node.right)
        return .inl (node.left, ← addWeights sum weight)
      return .inl (node.right, sum)

/-- What a search among the keys makes of one: whether it is the best key so far, and on which side
the search goes on, if it does. -/
structure Turn where
  isBetter : Bool
  next : Option Side

def seek (ns : SplayNodes α) (turn : Nat → Turn) (n best : Option Nat) : Option (Option Nat) :=
  loop (n, best) fun (n, best) => do
    match n with
    | none => return .inr best
    | some n =>
      let node ← ns[n]?
      let best := if (turn node.key).isBetter then some node.key else best
      match (turn node.key).next with
      | none => return .inr best
      | some side => return .inl (node.child side, best)

/-- Goes down on the left and puts the nodes on a stack. -/
def stackLeft (ns : SplayNodes α) (n : Option Nat) (stack : List Nat) : Option (List Nat) :=
  loop (n, stack) fun (n, stack) => do
    match n with
    | none => return .inr stack
    | some n => return .inl ((← ns[n]?).left, n :: stack)

/-- Puts out what lies from a link on, and then what lies behind the nodes of a stack. -/
def walk (ns : SplayNodes α) (n : Option Nat) (stack : List Nat) (out : Array (WeightEntry α)) :
    Option (Array (WeightEntry α)) :=
  loop (n, stack, out) fun (n, stack, out) => do
    match ← ns.stackLeft n stack with
    | [] => return .inr out
    | n :: stack =>
      let node ← ns[n]?
      return .inl (node.right, stack, out.push ⟨node.key, node.value, node.weight⟩)

end SplayNodes

structure SplayTree (α : Type) where
  nodes : SplayNodes α := #[]
  /-- The places that are not in use, the one that is used next in front. -/
  free : List Nat := []
  root : Option Nat := none
  size : Nat := 0

namespace SplayTree

variable {α : Type}

def totalWeight (t : SplayTree α) : Option Nat := t.nodes.total t.root

/-- Puts a node into a free place, or behind all others. -/
def allocate (t : SplayTree α) (node : SplayNode α) : Option (Nat × SplayTree α) :=
  match t.free with
  | [] => some (t.nodes.size, { t with nodes := t.nodes.push node })
  | n :: free => do return (n, { t with nodes := ← t.nodes.change n fun _ => node, free })

/-- The node of a key. It becomes the root; if there is none then the last node on the way does. -/
def find (t : SplayTree α) (key : Nat) : Option (Option Nat × SplayTree α) := do
  let (found, last) ← t.nodes.descend key t.root none
  match last with
  | none => return (found, t)
  | some n => return (found, { t with nodes := ← t.nodes.splay n, root := last })

/-- Puts a new node above the root, with the part of the tree on one side of the root below it. -/
def splitRoot (ns : SplayNodes α) (r n : Nat) (side : Side) : Option (SplayNodes α) := do
  let beyond := (← ns[r]?).child side
  let ns ← ns.change r (·.withChild side none)
  let ns ← ns.update r
  let ns ← ns.setChild (some n) side beyond
  let ns ← ns.setChild (some n) side.other (some r)
  let ns ← ns.change n (·.withParent none)
  ns.update n

/-- Adds weight to a key and sets its value, or makes a node for it. -/
def insert (t : SplayTree α) (key : Nat) (value : α) (weight : Nat) : Option (SplayTree α) := do
  let (found, t) ← t.find key
  match found with
  | some n =>
    let sum ← SplayNodes.addWeights (← t.nodes[n]?).weight weight
    let nodes ← t.nodes.change n fun node => { node with weight := sum, value }
    return { t with nodes := ← nodes.update n }
  | none =>
    let (n, t) ← t.allocate { key, value, weight, total := weight }
    let t := { t with size := t.size + 1 }
    match t.root with
    | none => return { t with root := some n }
    | some r =>
      -- After the search no key lies between that of the root and the new one.
      let side := if key < (← t.nodes[r]?).key then .left else .right
      return { t with nodes := ← splitRoot t.nodes r n side, root := some n }

/-- Joins two trees whose roots have no parents; all keys of the left one are less than those of
the right one. -/
def joinRoots (ns : SplayNodes α) (left right : Option Nat) :
    Option (Option Nat × SplayNodes α) :=
  match left with
  | none => some (right, ns)
  | some l => do
    let m ← ns.outermost .right l
    let ns ← ns.splay m
    let ns ← ns.setChild (some m) .right right
    return (some m, ← ns.update m)

/-- Takes a key out; its weight and its value are returned. -/
def remove (t : SplayTree α) (key : Nat) : Option (Option (Nat × α) × SplayTree α) := do
  let (found, t) ← t.find key
  match found with
  | none => return (none, t)
  | some n =>
    let node ← t.nodes[n]?
    let nodes ← t.nodes.changeAt node.left (·.withParent none)
    let nodes ← nodes.changeAt node.right (·.withParent none)
    let (root, nodes) ← joinRoots nodes node.left node.right
    let node ← nodes[n]?
    return (some (node.weight, node.value),
      { nodes, free := n :: t.free, root, size := t.size - 1 })

def weight? (t : SplayTree α) (key : Nat) : Option (Option Nat × SplayTree α) := do
  let (found, t) ← t.find key
  match found with
  | none => return (none, t)
  | some n => return (some (← t.nodes[n]?).weight, t)

/-- Changes the weight of a key, which stops at zero and at the greatest weight, and returns it. -/
def adjust (t : SplayTree α) (key : Nat) (delta : Int) :
    Option (Option Nat × SplayTree α) := do
  let (found, t) ← t.find key
  match found with
  | none => return (none, t)
  | some n =>
    let weight := min WeightTree.maxWeight ((← t.nodes[n]?).weight + delta).toNat
    let nodes ← t.nodes.change n fun node => { node with weight }
    return (some weight, { t with nodes := ← nodes.update n })

/-- The weight of all keys greater than `key`. -/
def weightAbove (t : SplayTree α) (key : Nat) : Option (Nat × SplayTree α) := do
  let (found, t) ← t.find key
  match found with
  | some n => return (← t.nodes.total (← t.nodes[n]?).right, t)
  | none => return (← t.nodes.sumAbove key t.root 0, t)

/-- The least key from `key` on. -/
def ceiling? (t : SplayTree α) (key : Nat) : Option (Option Nat) :=
  t.nodes.seek (fun k =>
    if k = key then ⟨true, none⟩
    else if key < k then ⟨true, some .left⟩ else ⟨false, some .right⟩) t.root none

/-- The greatest key less than `key`. -/
def predecessor? (t : SplayTree α) (key : Nat) : Option (Option Nat) :=
  t.nodes.seek (fun k => if k < key then ⟨true, some .right⟩ else ⟨false, some .left⟩) t.root none

/-- The least key greater than `key`. -/
def successor? (t : SplayTree α) (key : Nat) : Option (Option Nat) :=
  t.nodes.seek (fun k => if key < k then ⟨true, some .left⟩ else ⟨false, some .right⟩) t.root none

def minKey? (t : SplayTree α) : Option (Option Nat) :=
  match t.root with
  | none => some none
  | some n => do return some (← t.nodes[← t.nodes.outermost .left n]?).key

/-- In the order of their keys. -/
def entries (t : SplayTree α) : Option (List (WeightEntry α)) := do
  return (← t.nodes.walk t.root [] #[]).toList

end SplayTree

end BinTrace
