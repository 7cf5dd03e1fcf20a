import BinTrace.Reuse.Stats
import BinTrace.Reuse.WeightTree

/-!
Reuse distances with a bounded error in little memory. Instead of one entry for each address the
tree has nodes that stand for runs of times, and the weight of a node is the number of addresses
whose last reference lies in its run. Nodes are merged as long as their weight stays small beside
the weight of the nodes after them.
-/

namespace BinTrace.Reuse

/-- When nodes may be merged, and when they have to be. -/
structure ScaleRule where
  /-- The greatest weight of a merged node, given the weight of the nodes after it. -/
  maxSize : Nat → Nat
  /-- There are too many nodes for the number of addresses that have been seen. -/
  isCrowded : (nodes : Nat) → (distinct : Nat) → Bool

namespace ScaleRule

/-- The distance between one and the next number. -/
def leastRate : Float := Float.ofBits 0x3cb0000000000000

/-- The rate within the limits in which it makes sense. -/
def clampRate (rate : Float) : Float :=
  if rate < leastRate then leastRate else if rate > 0.5 then 0.5 else rate

/-- The rule that keeps the relative error of a distance below a rate. -/
def ofRate (rate : Float) : ScaleRule :=
  let rate := clampRate rate
  { maxSize := fun after => max 1 (Float.ofNat after * rate).toUInt64.toNat
    isCrowded := fun nodes distinct =>
      let distinct := Float.ofNat (max 1 distinct)
      let limit := 4.0 * distinct.log / (1.0 / (1.0 - rate)).log + 4.0
      Float.ofNat nodes > limit }

end ScaleRule

structure Approximate where
  rule : ScaleRule
  /-- The time of the next reference. -/
  time : Nat := 1
  /-- How many cold references there were. -/
  distinct : Nat := 0
  /-- The time of the last reference to each address. -/
  lastAccess : KeyMap Nat := .empty
  scale : WeightTree Unit := .leaf
  compactions : Nat := 0
  log : Log

namespace Approximate

def new (rule : ScaleRule) (individual : Nat) : Approximate :=
  { rule, log := { rule := ⟨individual, 0⟩ } }

/-- Merges the node before `key` into it if the weight of both is at most `limit`. -/
def mergePrevious (t : WeightTree Unit) (key remaining limit : Nat) : WeightTree Unit :=
  match t.predecessor? key with
  | some previous =>
    let weight := (t.weight? previous).getD 0
    if weight + remaining ≤ limit then ((t.remove previous).2.adjust key weight).2 else t
  | none => t

/-- Merges a node into the one after it if the rule allows it, where `after` is the weight of all
nodes after the first. -/
def mergeNext (rule : ScaleRule) (t : WeightTree Unit) (key after : Nat) : WeightTree Unit :=
  let remaining := (t.weight? key).getD 0
  match t.successor? key with
  | some next =>
    let weight := (t.weight? next).getD 0
    if weight + remaining ≤ rule.maxSize (after - weight) then
      ((t.remove key).2.adjust next remaining).2
    else t
  | none => t

/-- The distance to a reference that was made at a time, and the nodes without it. -/
def takeOut (rule : ScaleRule) (t : WeightTree Unit) (last : Nat) :
    Option Nat × WeightTree Unit :=
  match t.ceiling? last with
  | none => (none, t)
  | some key =>
    let after := t.weightAbove key
    let weight := (t.weight? key).getD 0
    let distance := some (weight / 2 + after)
    let (remaining?, t) := t.adjust key (-1)
    let remaining := remaining?.getD 0
    let limit := rule.maxSize after
    if remaining = 0 then (distance, (t.remove key).2)
    else if limit / 2 < remaining then (distance, t)
    else (distance, mergeNext rule (mergePrevious t key remaining limit) key after)

/-- Merges each node, from the latest on, with the nodes before it as far as the rule allows,
where `newer` is the weight of the nodes after `key`. The result has the latest node last. -/
def mergeRuns (rule : ScaleRule) (key weight newer : Nat) :
    List (WeightEntry Unit) → List (WeightEntry Unit) → List (WeightEntry Unit)
  | [], kept => ⟨key, (), weight⟩ :: kept
  | e :: older, kept =>
    if weight + e.weight ≤ rule.maxSize newer then
      mergeRuns rule key (weight + e.weight) newer older kept
    else mergeRuns rule e.key e.weight (newer + weight) older (⟨key, (), weight⟩ :: kept)

/-- The nodes that are left after all merging, in the order of their times. -/
def merged (rule : ScaleRule) (t : WeightTree Unit) : List (WeightEntry Unit) :=
  match t.entries.reverse with
  | [] => []
  | e :: older => mergeRuns rule e.key e.weight 0 older []

def compact (a : Approximate) : Approximate :=
  { a with
    scale := (merged a.rule a.scale).foldl (fun t e => t.insert e.key () e.weight) .leaf
    compactions := a.compactions + 1 }

def process (a : Approximate) (id address : Nat) : Option Nat × Approximate :=
  let (distance, scale, distinct) :=
    match a.lastAccess.get? address with
    | some last =>
      let (distance, scale) := takeOut a.rule a.scale last
      (distance, scale, a.distinct)
    | none => (none, a.scale, a.distinct + 1)
  let a := { a with
    lastAccess := a.lastAccess.insert address a.time
    distinct
    scale := scale.insert a.time () 1
    time := a.time + 1
    log := a.log.record id distance }
  (distance, if a.rule.isCrowded a.scale.size a.distinct then a.compact else a)

/-- Forgets all references because of some that were not observed. -/
def skip (a : Approximate) (amount : Nat) : Approximate :=
  { a with time := a.time + amount, lastAccess := .empty, scale := .leaf }

/-- The addresses that are remembered, the one that was used last at the end. -/
def active (a : Approximate) : List Nat :=
  (a.lastAccess.entries.mergeSort fun e f => e.2 ≤ f.2).map Prod.fst

end Approximate

end BinTrace.Reuse
