import BinTrace.Decimal.Double

/-!
Hits and misses of the levels of a hierarchy.
-/

namespace BinTrace.Cache

structure Counts where
  hits : Nat := 0
  misses : Nat := 0
  deriving DecidableEq

namespace Counts

def accesses (c : Counts) : Nat := c.hits + c.misses

def hitRate (c : Counts) : Float :=
  if c.accesses = 0 then 0 else Float.ofNat c.hits * 100 / Float.ofNat c.accesses

def hitRateText (c : Counts) : String := Decimal.fixed 3 c.hitRate

/-- Counts an access at each level that it came to: a hit at the level that held the line, and
misses at those before it; without a hit, misses at all levels. -/
def record : List Counts → Option Nat → List Counts
  | [], _ => []
  | c :: rest, none => { c with misses := c.misses + 1 } :: record rest none
  | c :: rest, some 0 => { c with hits := c.hits + 1 } :: rest
  | c :: rest, some (n + 1) => { c with misses := c.misses + 1 } :: record rest (some n)

def levelText (c : Counts) (level : Nat) : String :=
  " l" ++ toString level ++ "[" ++ toString c.hits ++ "/" ++ toString c.accesses ++ "(" ++
    c.hitRateText ++ ")]"

/-- Hits, accesses and hit rate of all levels. -/
def summary (sysid : Nat) (totals : List Counts) : String :=
  "# sysid" ++ toString sysid ++ String.join (totals.zipIdx.map fun (c, n) => c.levelText n)

end Counts

end BinTrace.Cache
