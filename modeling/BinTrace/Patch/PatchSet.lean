import BinTrace.Patch.Point

/-!
The points of many functions. Their trampolines are placed one behind the other in a new region,
and each function or a text of several functions gets the jumps to them.
-/

namespace BinTrace

structure PatchSet where
  width : Width
  regionBase : Nat
  /-- Bytes of the trampolines that have been placed. -/
  regionSize : Nat := 0
  points : List PatchPoint := []
  dropped : Nat := 0

/-- The ranges have an address in common. -/
def AddressRange.overlaps (r s : AddressRange) : Bool := r.base < s.stop && s.base < r.stop

namespace PatchSet

def add (s : PatchSet) (p : PatchPoint) : PatchSet := { s with points := s.points ++ [p] }

/-- By address, and at one address by the rank of the location. -/
def precedes (p q : PatchPoint) : Bool :=
  p.address < q.address || (p.address = q.address && p.location.rank ≤ q.location.rank)

/-- What the points of one function share while they are placed. -/
structure Placement where
  width : Width
  function : Function
  liveness : Liveness
  regionBase : Nat
  regionSize : Nat
  /-- Ranges that jumps have been given so far. -/
  taken : List AddressRange
  placed : Nat := 0

/-- What became of a point. -/
inductive Verdict
  | kept
  | dropped
  | failed (e : PatchError)

/-- Analyses a point and builds its detour, which must not touch a range that is taken. -/
def prepare (c : Placement) : PatchPoint.Step AddressRange := do
  PatchPoint.analyze c.width c.function c.liveness
  PatchPoint.generate c.width c.function
  let p ← get
  let range := (p.progress.detour?.map Detour.range).getD ⟨p.address, 0⟩
  if c.taken.any range.overlaps then throw (.overlap p.address)
  return range

def concerns (f : Function) (p : PatchPoint) : Bool :=
  p.stage = .requested && f.range.contains p.address

/-- Takes a point that nothing has been done for to its place behind the trampolines so far. -/
def advance (c : Placement) (p : PatchPoint) : Placement × PatchPoint × Verdict :=
  if !concerns c.function p then (c, p, .kept)
  else
    let step : PatchPoint.Step (AddressRange × Nat) := do
      let range ← prepare c
      return (range, ← PatchPoint.place (c.regionBase + c.regionSize))
    match step.run p with
    | .ok (range, size) p =>
      ({ c with
        taken := c.taken ++ [range], regionSize := c.regionSize + size, placed := c.placed + 1 },
        p, .kept)
    | .error e p => (c, p, if e.dropsPoint then .dropped else .failed e)

/-- Takes the points on one after the other, up to a failure that is more than a dropped point. -/
def advanceAll (c : Placement) : List PatchPoint → Placement × List (PatchPoint × Verdict)
  | [] => (c, [])
  | p :: rest =>
    match advance c p with
    | (c, p, .failed e) => (c, (p, .failed e) :: rest.map fun q => (q, .kept))
    | (c, p, verdict) =>
      let (c, done) := advanceAll c rest
      (c, (p, verdict) :: done)

def failure? (done : List (PatchPoint × Verdict)) : Option PatchError :=
  done.findSome? fun (_, verdict) =>
    match verdict with
    | .failed e => some e
    | _ => none

/-- Detours in the function's range, which new ones must not touch. -/
def takenIn (f : Function) (points : List PatchPoint) : List AddressRange :=
  points.filterMap fun p =>
    (p.progress.detour?.map Detour.range).filter fun r => f.range.contains r.base

/-- Places all points of a function for which nothing has been done, in the order of their
addresses, and returns their number. Points that cannot be carried out are dropped; after another
failure all points are kept as they are. -/
def instrument (f : Function) (l : Liveness) : EStateM PatchError PatchSet Nat := do
  let s ← get
  let points := s.points.mergeSort precedes
  let start : Placement :=
    { width := s.width, function := f, liveness := l, regionBase := s.regionBase,
      regionSize := s.regionSize, taken := takenIn f points }
  let (c, done) := advanceAll start points
  match failure? done with
  | some e =>
    set { s with points := done.map Prod.fst, regionSize := c.regionSize }
    throw e
  | none =>
    let kept := done.filter fun (_, verdict) => verdict matches .kept
    set { s with
      points := kept.map Prod.fst
      regionSize := c.regionSize
      dropped := s.dropped + (done.length - kept.length) }
    return c.placed

def places (s : PatchSet) : List (Option Nat) :=
  s.points.map fun p => p.progress.detour?.bind fun d => d.trampoline.address

/-- The jump from the site of a detour to its trampoline. -/
def siteJump (d : Detour) : Except PatchError Instruction :=
  match d.trampoline.address with
  | some a => (Encode.jumpNear d.site a).mapError .encode
  | none => .error (.unresolvedAnchor d.site)

/-- The instructions for the range of a detour: the jump, and no-ops for the rest. -/
def sitePatch (d : Detour) : Except PatchError (List Instruction) := do
  let jump ← siteJump d
  return layOutFrom d.site (jump :: Encode.nops (d.range.size - Encode.jumpSize))

/-- The detour of a point that has been placed and not yet written. -/
def pending? (p : PatchPoint) : Option Detour :=
  match p.progress with
  | .placed d => some d
  | _ => none

/-- Writes the trampolines of all pending points into the region, up to the first failure. -/
def dumpPoints (base : Nat) (places : List (Option Nat)) (region : List UInt8) :
    List PatchPoint → List PatchPoint × Except PatchError (List UInt8)
  | [] => ([], .ok region)
  | p :: rest =>
    if (pending? p).isNone then
      let (done, result) := dumpPoints base places region rest
      (p :: done, result)
    else
      match (PatchPoint.dump region base places).run p with
      | .error e p => (p :: rest, .error e)
      | .ok region p =>
        let (done, result) := dumpPoints base places region rest
        (p :: done, result)

/-- Writes the patches into the text, up to the first that lies outside. -/
def writePatches (text : List UInt8) (base : Nat) :
    List (Nat × List Instruction) → List UInt8 × Except PatchError Unit
  | [] => (text, .ok ())
  | (site, patch) :: rest =>
    match PatchPoint.writeAt text base site (bytesOfAll patch) with
    | .ok text => writePatches text base rest
    | .error e => (text, .error e)

structure Dump where
  patches : PatchSet
  text : List UInt8
  region : Except PatchError (List UInt8)

/-- Writes the pending trampolines into a region of zeros and the jumps to them into the text,
which begins at `base`. -/
def dump (s : PatchSet) (text : List UInt8) (base : Nat) : Dump :=
  match (s.points.filterMap pending?).mapM fun d => do return (d.site, ← sitePatch d) with
  | .error e => ⟨s, text, .error e⟩
  | .ok sites =>
    let (points, region) :=
      dumpPoints s.regionBase s.places (List.replicate s.regionSize 0) s.points
    let s := { s with points }
    match region with
    | .error e => ⟨s, text, .error e⟩
    | .ok region =>
      let (text, written) := writePatches text base sites
      ⟨s, text, written.map fun _ => region⟩

/-- Puts a jump into a function. -/
def patchSite (d : Detour) : EStateM PatchError Function Unit := do
  let f ← get
  match siteJump d with
  | .error e => throw e
  | .ok jump =>
    match f.swap d.site [jump] with
    | .ok (_, f) => set f
    | .error _ => throw (.notInFunction d.site)

def patchFunction (s : PatchSet) : EStateM PatchError Function Nat := do
  let f ← get
  let sites := (s.points.filterMap fun p => p.progress.placedDetour?).filter fun d =>
    f.range.contains d.site
  sites.forM patchSite
  return sites.length

end PatchSet

end BinTrace
