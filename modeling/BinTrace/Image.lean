import BinTrace.Bytes
import BinTrace.LittleEndian
import BinTrace.Width

/-!
The memory of a loaded program, read by address, and ranges of addresses.
-/

namespace BinTrace

/-- The addresses from `base` on, `size` in number. -/
structure AddressRange where
  base : Nat
  size : Nat

namespace AddressRange

def stop (r : AddressRange) : Nat := r.base + r.size

def contains (r : AddressRange) (a : Nat) : Bool := r.base ≤ a && a < r.stop

theorem contains_iff (r : AddressRange) (a : Nat) :
    r.contains a = true ↔ r.base ≤ a ∧ a < r.base + r.size := by
  simp only [contains, Bool.and_eq_true, decide_eq_true_eq]
  rfl

end AddressRange

/-- Memory that is read by address. A read gives all bytes that were asked for, or none. -/
structure Image where
  read : Nat → Nat → Option (List UInt8)

namespace Image

def flat (base : Nat) (bytes : List UInt8) : Image where
  read address length :=
    if base ≤ address then Bytes.slice? bytes (address - base) length else none

/-- A word of four or eight bytes. -/
def readWord (image : Image) (address width : Nat) : Option Nat :=
  if width = 4 ∨ width = 8 then (image.read address width).map LittleEndian.value else none

end Image

end BinTrace
