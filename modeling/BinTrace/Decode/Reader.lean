/-!
Reading an instruction byte by byte. A reader works on the bytes that are left and counts those
that it took; it stops when a byte is missing or when no instruction can begin with what it saw.
-/

namespace BinTrace.Decode

inductive Fault
  | invalid
  | endOfInput
  deriving DecidableEq

structure Cursor where
  unread : List UInt8
  position : Nat := 0

abbrev ByteReader := StateT Cursor (Except Fault)

namespace ByteReader

def reject {α : Type} : ByteReader α := throw .invalid

/-- The next byte, which stays unread. -/
def peek : ByteReader Nat := do
  match (← get).unread with
  | b :: _ => return b.toNat
  | [] => throw .endOfInput

def byte : ByteReader Nat := do
  let c ← get
  match c.unread with
  | b :: rest =>
    set (Cursor.mk rest (c.position + 1))
    return b.toNat
  | [] => throw .endOfInput

/-- Takes `width` bytes, and tells where they begin. -/
def field (width : Nat) : ByteReader (List UInt8 × Nat) := do
  let c ← get
  if c.unread.length < width then throw .endOfInput
  set (Cursor.mk (c.unread.drop width) (c.position + width))
  return (c.unread.take width, c.position)

end ByteReader

end BinTrace.Decode
