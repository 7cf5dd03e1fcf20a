import BinTrace.Reuse.Stats

/-!
Spatial locality: how far from the nearest of the last references a reference lies.
-/

namespace BinTrace.Reuse

structure Spatial where
  /-- How many references the window holds. -/
  capacity : Nat
  /-- The references of the window, the oldest first. -/
  recent : List Nat := []
  resident : KeyMap Nat := .empty
  log : Log

namespace Spatial

def defaultCapacity : Nat := 64

def new (capacity individual maxTracking : Nat) : Spatial :=
  { capacity := max 1 capacity, log := { rule := ⟨individual, maxTracking⟩ } }

/-- The distance to the nearest address of the window. -/
def nearest? (s : Spatial) (address : Nat) : Option Nat :=
  match s.resident.floor? address, s.resident.ceiling? address with
  | some below, some above => some (min (address - below) (above - address))
  | some below, none => some (address - below)
  | none, some above => some (above - address)
  | none, none => none

def evict (s : Spatial) : Spatial :=
  match s.recent with
  | [] => s
  | oldest :: recent =>
    match s.resident.get? oldest with
    | some count =>
      let resident :=
        if count ≤ 1 then s.resident.erase oldest else s.resident.insert oldest (count - 1)
      { s with recent, resident }
    | none => { s with recent }

def process (s : Spatial) (id address : Nat) : Option Nat × Spatial :=
  let distance := s.nearest? address
  let s := { s with log := s.log.record id distance }
  let s := if s.capacity ≤ s.recent.length then s.evict else s
  (distance, { s with
    recent := s.recent ++ [address]
    resident := s.resident.alter address 0 (· + 1) })

/-- Forgets the window because of references that were not observed. -/
def skip (s : Spatial) : Spatial := { s with recent := [], resident := .empty }

/-- The addresses of the window in increasing order. -/
def active (s : Spatial) : List Nat := s.resident.keys

end Spatial

end BinTrace.Reuse
