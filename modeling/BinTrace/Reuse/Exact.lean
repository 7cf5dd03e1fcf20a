import BinTrace.Reuse.Stats
import BinTrace.Reuse.WeightTree

/-!
Reuse distances: how many other addresses have been referenced since the last reference to the
same address. The window holds the addresses that were used last; a reference to any other
address is cold.
-/

namespace BinTrace.Reuse

structure Exact where
  /-- How many addresses the window holds; zero stands for no limit. -/
  capacity : Nat
  /-- The number of the next reference. -/
  sequence : Nat := 1
  /-- The number of the last reference to each address of the window. -/
  window : KeyMap Nat := .empty
  /-- The addresses of the window by the number of their last reference. -/
  order : WeightTree Nat := .leaf
  log : Log

namespace Exact

def new (capacity individual : Nat) : Exact :=
  { capacity, log := { rule := ⟨individual, capacity⟩ } }

/-- Takes the oldest address out of a window that is full. -/
def evict (e : Exact) : Exact :=
  if e.capacity ≠ 0 ∧ e.capacity ≤ e.window.size then
    match e.order.minKey? with
    | some oldest =>
      match e.order.remove oldest with
      | (some victim, order) => { e with order, window := e.window.erase victim.value }
      | (none, order) => { e with order }
    | none => e
  else e

def touch (e : Exact) (address : Nat) : Exact :=
  { e with
    window := e.window.insert address e.sequence
    order := e.order.insert e.sequence address 1
    sequence := e.sequence + 1 }

def process (e : Exact) (id address : Nat) : Option Nat × Exact :=
  match e.window.get? address with
  | some last =>
    let distance := some (e.order.weightAbove last)
    let e := { e with order := (e.order.remove last).2, log := e.log.record id distance }
    (distance, e.touch address)
  | none =>
    let e := e.evict
    (none, { e with log := e.log.record id none }.touch address)

/-- Forgets the window because of references that were not observed. -/
def skip (e : Exact) (amount : Nat) : Exact :=
  { e with sequence := e.sequence + amount, window := .empty, order := .leaf }

/-- The addresses of the window, the one that was used last at the end. -/
def active (e : Exact) : List Nat := e.order.entries.map WeightEntry.value

end Exact

end BinTrace.Reuse
