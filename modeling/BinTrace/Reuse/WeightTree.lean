import BinTrace.Arithmetic

/-!
Search trees whose entries carry weights. Every tree stores the sum of its weights, so that the
weight of all keys above a given one is found on one way down. An entry that is inserted, changed
or removed is rotated to the root first, which keeps the ways short on average. The entries of a
tree in the order of their keys are its view: no rotation changes them.
-/

namespace BinTrace

structure WeightEntry (α : Type) where
  key : Nat
  value : α
  weight : Nat
  deriving DecidableEq

inductive WeightTree (α : Type)
  | leaf
  /-- The last argument is the weight of the whole tree. -/
  | node (left : WeightTree α) (entry : WeightEntry α) (right : WeightTree α) (total : Nat)

namespace WeightTree

variable {α : Type}

/-- Weights stop here instead of growing on. -/
def maxWeight : Nat := 2 ^ 64 - 1

def totalWeight : WeightTree α → Nat
  | leaf => 0
  | node _ _ _ total => total

/-- A tree with its weight. -/
def join (left : WeightTree α) (e : WeightEntry α) (right : WeightTree α) : WeightTree α :=
  node left e right (e.weight + left.totalWeight + right.totalWeight)

/-- In the order of their keys. -/
def entries : WeightTree α → List (WeightEntry α)
  | leaf => []
  | node left e right _ => left.entries ++ e :: right.entries

def size : WeightTree α → Nat
  | leaf => 0
  | node left _ right _ => left.size + 1 + right.size

/-- A step of the way from the root to a place in the tree. -/
inductive Step (α : Type)
  /-- To the left of an entry, past what lies to its right. -/
  | left (e : WeightEntry α) (right : WeightTree α)
  /-- To the right of an entry, past what lies to its left. -/
  | right (left : WeightTree α) (e : WeightEntry α)

/-- The way down to a key: the subtree that has it at its root, or the leaf where it belongs, and
the steps from there back to the root. -/
def descend (k : Nat) : WeightTree α → List (Step α) → WeightTree α × List (Step α)
  | leaf, way => (leaf, way)
  | node left e right total, way =>
    if k = e.key then (node left e right total, way)
    else if k < e.key then descend k left (.left e right :: way)
    else descend k right (.right left e :: way)

/-- What lies to the left and to the right of a place, given its two subtrees, once the place has
been rotated up to the root, two steps at a time. -/
def raise : List (Step α) → WeightTree α → WeightTree α → WeightTree α × WeightTree α
  | [], a, b => (a, b)
  | [.left p c], a, b => (a, join b p c)
  | [.right c p], a, b => (join c p a, b)
  | .left p c :: .left g d :: way, a, b => raise way a (join b p (join c g d))
  | .left p c :: .right d g :: way, a, b => raise way (join d g a) (join b p c)
  | .right c p :: .left g d :: way, a, b => raise way (join c p a) (join b g d)
  | .right c p :: .right d g :: way, a, b => raise way (join (join d g c) p a) b

/-- Makes the entry of a key the root, changed by `f`, and returns it; nothing changes if there is
none. -/
def modify (t : WeightTree α) (k : Nat) (f : WeightEntry α → WeightEntry α) :
    Option (WeightEntry α) × WeightTree α :=
  match descend k t [] with
  | (leaf, _) => (none, t)
  | (node left e right _, way) =>
    let (a, b) := raise way left right
    (some (f e), join a (f e) b)

/-- Adds weight to a key and sets its value, or makes an entry for it. -/
def insert (t : WeightTree α) (k : Nat) (value : α) (weight : Nat) : WeightTree α :=
  match descend k t [] with
  | (leaf, way) =>
    let (a, b) := raise way leaf leaf
    join a ⟨k, value, weight⟩ b
  | (node left e right _, way) =>
    let (a, b) := raise way left right
    join a ⟨k, value, e.weight + weight⟩ b

/-- The way down to the last entry. -/
def descendLast : WeightTree α → List (Step α) → Option (WeightTree α × WeightEntry α × List (Step α))
  | leaf, _ => none
  | node left e leaf _, way => some (left, e, way)
  | node left e right _, way => descendLast right (.right left e :: way)

def append (t u : WeightTree α) : WeightTree α :=
  match descendLast t [] with
  | none => u
  | some (left, e, way) => join (raise way left leaf).1 e u

def remove (t : WeightTree α) (k : Nat) : Option (WeightEntry α) × WeightTree α :=
  match descend k t [] with
  | (leaf, _) => (none, t)
  | (node left e right _, way) =>
    let (a, b) := raise way left right
    (some e, append a b)

def find? (t : WeightTree α) (k : Nat) : Option (WeightEntry α) :=
  match t with
  | leaf => none
  | node left e right _ =>
    if k = e.key then some e else if k < e.key then left.find? k else right.find? k

def weight? (t : WeightTree α) (k : Nat) : Option Nat := (t.find? k).map WeightEntry.weight

/-- Changes the weight of a key, which stops at zero and at the greatest weight, and returns it. -/
def adjust (t : WeightTree α) (k : Nat) (delta : Int) : Option Nat × WeightTree α :=
  let (e?, t) :=
    t.modify k fun e => { e with weight := min maxWeight (e.weight + delta).toNat }
  (e?.map WeightEntry.weight, t)

/-- The weight of all keys greater than `k`. -/
def weightAbove (t : WeightTree α) (k : Nat) : Nat :=
  match t with
  | leaf => 0
  | node left e right _ =>
    if k = e.key then right.totalWeight
    else if k < e.key then left.weightAbove k + e.weight + right.totalWeight
    else right.weightAbove k

/-- The least key from `k` on. -/
def ceiling? (t : WeightTree α) (k : Nat) : Option Nat :=
  match t with
  | leaf => none
  | node left e right _ =>
    if k = e.key then some k
    else if k < e.key then (left.ceiling? k).or (some e.key)
    else right.ceiling? k

/-- The greatest key less than `k`. -/
def predecessor? (t : WeightTree α) (k : Nat) : Option Nat :=
  match t with
  | leaf => none
  | node left e right _ =>
    if e.key < k then (right.predecessor? k).or (some e.key) else left.predecessor? k

/-- The least key greater than `k`. -/
def successor? (t : WeightTree α) (k : Nat) : Option Nat :=
  match t with
  | leaf => none
  | node left e right _ =>
    if k < e.key then (left.successor? k).or (some e.key) else right.successor? k

def minKey? : WeightTree α → Option Nat
  | leaf => none
  | node left e _ _ => left.minKey?.or (some e.key)

def isEmpty : WeightTree α → Bool
  | leaf => true
  | node _ _ _ _ => false

/-- The entries to the left of a place, given its way. -/
def entriesLeft : List (Step α) → List (WeightEntry α)
  | [] => []
  | .left _ _ :: way => entriesLeft way
  | .right t e :: way => entriesLeft way ++ t.entries ++ [e]

/-- The entries to the right of a place, given its way. -/
def entriesRight : List (Step α) → List (WeightEntry α)
  | [] => []
  | .left e t :: way => e :: t.entries ++ entriesRight way
  | .right _ _ :: way => entriesRight way

theorem entries_join (t u : WeightTree α) (e : WeightEntry α) :
    (join t e u).entries = t.entries ++ e :: u.entries := rfl

theorem entries_raise (way : List (Step α)) (a b : WeightTree α) :
    (raise way a b).1.entries = entriesLeft way ++ a.entries ∧
      (raise way a b).2.entries = b.entries ++ entriesRight way := by
  fun_induction raise way a b <;> simp_all [entriesLeft, entriesRight, entries_join]

theorem entries_descend (k : Nat) (t : WeightTree α) (way : List (Step α)) :
    entriesLeft (descend k t way).2 ++ (descend k t way).1.entries ++
      entriesRight (descend k t way).2 = entriesLeft way ++ t.entries ++ entriesRight way := by
  fun_induction descend k t way <;> simp_all [entriesLeft, entriesRight, entries]

theorem length_entries (t : WeightTree α) : t.entries.length = t.size := by
  induction t with
  | leaf => rfl
  | node left e right total ihl ihr =>
    simp only [entries, size, List.length_append, List.length_cons, ihl, ihr]
    omega

end WeightTree

end BinTrace
