import BinTrace.Bytes
import BinTrace.LittleEndian
import BinTrace.Width

/-!
What ELF files are made of. They store numbers in two forms, records of numbers, and tables of names:
strings in UTF-8 that end in a zero byte, referred to by where they begin. A reference into the
middle of a string is the rest of it. Segments are the parts of a file that are loaded into memory,
or that the loader reads.
-/

namespace BinTrace.Elf

inductive ByteOrder
  | littleEndian
  | bigEndian
  deriving DecidableEq

/-- How a file stores its numbers: the size of an address, and the order of bytes. -/
structure Encoding where
  width : Width
  order : ByteOrder

def ByteOrder.value (order : ByteOrder) (bytes : List UInt8) : Nat :=
  match order with
  | .littleEndian => LittleEndian.value bytes
  | .bigEndian => LittleEndian.value bytes.reverse

/-- Numbers of the given sizes, one behind the other, if all of them are there. -/
def numbers? (order : ByteOrder) : List Nat → List UInt8 → Option (List Nat)
  | [], _ => some []
  | size :: sizes, bytes =>
    if size ≤ bytes.length then
      (numbers? order sizes (bytes.drop size)).map (order.value (bytes.take size) :: ·)
    else none

/-- The record with numbers of the given sizes that begins at an offset of the file. -/
def record? (order : ByteOrder) (sizes : List Nat) (file : List UInt8) (offset : Nat) :
    Option (List Nat) :=
  (Bytes.slice? file offset sizes.sum).bind (numbers? order sizes)

/-- Records one behind the other. A table that cannot be in the file because of its size alone is
not looked at. -/
def records? (order : ByteOrder) (sizes : List Nat) (file : List UInt8) (offset count : Nat) :
    Option (List (List Nat)) :=
  if file.length / sizes.sum < count then none
  else (List.range count).mapM fun n => record? order sizes file (offset + n * sizes.sum)

structure StringTable where
  bytes : List UInt8

namespace StringTable

def utf8? (bytes : List UInt8) : Option String := String.fromUTF8? (ByteArray.mk bytes.toArray)

/-- The table in a part of the file, all of whose strings must be valid. -/
def ofFile? (file : List UInt8) (offset size : Nat) : Option StringTable := do
  let bytes ← Bytes.slice? file offset size
  let _ ← utf8? bytes
  return ⟨bytes⟩

/-- The last string has no zero byte behind it, so that a reference to its end is one too. -/
def isOpen (t : StringTable) : Bool := t.bytes.getLast?.any fun b => b ≠ 0

def get? (t : StringTable) (start : Nat) : Option String :=
  if start < t.bytes.length || (start = t.bytes.length && t.isOpen) then
    utf8? ((t.bytes.drop start).takeWhile (· ≠ 0))
  else none

end StringTable

structure Segment where
  kind : Nat
  offset : Nat
  address : Nat
  fileSize : Nat
  memorySize : Nat

def loadedKind : Nat := 1

def segmentFields : Width → List Nat
  | .bits32 => [4, 4, 4, 4, 4, 4, 4, 4]
  | .bits64 => [4, 4, 8, 8, 8, 8, 8, 8]

def segment? (w : Width) (fields : List Nat) : Option Segment :=
  match w, fields with
  | .bits32, [kind, offset, address, _, fileSize, memorySize, _, _] =>
    some { kind, offset, address, fileSize, memorySize }
  | .bits64, [kind, _, offset, address, _, fileSize, memorySize, _] =>
    some { kind, offset, address, fileSize, memorySize }
  | _, _ => none

def segments? (e : Encoding) (file : List UInt8) (offset count : Nat) : Option (List Segment) := do
  let records ← records? e.order (segmentFields e.width) file offset count
  records.mapM (segment? e.width)

namespace Segment

def holds (s : Segment) (a : Nat) : Bool := s.address ≤ a && a - s.address < s.memorySize

/-- The offset in the file that belongs to an address: the first loaded segment with the address
says where. -/
def offsetOf? (segments : List Segment) (a : Nat) : Option Nat := do
  let s ← segments.find? fun s => s.kind = loadedKind ∧ s.holds a
  let offset := s.offset + (a - s.address)
  if offset < addressSpace then some offset else none

end Segment

end BinTrace.Elf
