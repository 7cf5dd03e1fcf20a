import BinTrace.Elf.Record

/-!
The dynamic entries of a file, which tell the loader where its tables lie: names, relocations,
and symbols, whose number the relocations and the hash table of the symbols imply. A file is only
sound if it holds all of them.
-/

namespace BinTrace.Elf

/-- Bytes from an offset on, which must lie inside the file even if none are asked for. -/
def part? (file : List UInt8) (offset size : Nat) : Option (List UInt8) :=
  if offset < file.length then Bytes.slice? file offset size else none

def symbolFields : Width → List Nat
  | .bits32 => [4, 4, 4, 1, 1, 2]
  | .bits64 => [4, 1, 1, 2, 8, 8]

/-- The bytes of a table of symbols. -/
def symbolTable? (w : Width) (file : List UInt8) (offset count : Nat) : Option (List UInt8) :=
  part? file offset (count * (symbolFields w).sum)

/-- The number of four bytes at an offset. -/
def word? (order : ByteOrder) (file : List UInt8) (offset : Nat) : Option Nat :=
  (Bytes.slice? file offset 4).map order.value

def dynamicKind : Nat := 2

inductive DynamicTag
  | jumpRelocationsSize
  | hashTable
  | strings
  | symbols
  | addendRelocations
  | addendRelocationsSize
  | stringsSize
  | relocations
  | relocationsSize
  | jumpRelocationsForm
  | jumpRelocations
  | filteredHashTable

def DynamicTag.number : DynamicTag → Nat
  | jumpRelocationsSize => 2
  | hashTable => 4
  | strings => 5
  | symbols => 6
  | addendRelocations => 7
  | addendRelocationsSize => 8
  | stringsSize => 10
  | relocations => 17
  | relocationsSize => 18
  | jumpRelocationsForm => 20
  | jumpRelocations => 23
  | filteredHashTable => 0x6ffffef5

/-- The entries in front of the one that ends them, as tags and values, and the segments that their
addresses refer to. -/
structure Dynamic where
  entries : List (Nat × Nat)
  segments : List Segment

def pair? : List Nat → Option (Nat × Nat)
  | [tag, value] => some (tag, value)
  | _ => none

/-- The entries in the first segment of their kind. There are none if there is no such segment. -/
def dynamic? (e : Encoding) (file : List UInt8) (segments : List Segment) : Option Dynamic := do
  match segments.find? fun s => s.kind = dynamicKind with
  | none => return ⟨[], segments⟩
  | some s =>
    if s.fileSize = 0 then return ⟨[], segments⟩
    let bytes ← Bytes.slice? file s.offset s.fileSize
    let fields := [e.width.wordSize, e.width.wordSize]
    let records ← records? e.order fields bytes 0 (bytes.length / fields.sum)
    let entries ← records.mapM pair?
    return ⟨entries.takeWhile fun entry => entry.1 ≠ 0, segments⟩

namespace Dynamic

/-- The value of the last entry with a tag. -/
def value? (d : Dynamic) (t : DynamicTag) : Option Nat :=
  (d.entries.reverse.find? fun entry => entry.1 = t.number).map Prod.snd

/-- A size, or zero if there is none. -/
def size (d : Dynamic) (t : DynamicTag) : Nat := (d.value? t).getD 0

def offset? (d : Dynamic) (t : DynamicTag) : Option Nat :=
  (d.value? t).bind (Segment.offsetOf? d.segments)

/-- The offset of a table, or the beginning of the file if there is none. -/
def offset (d : Dynamic) (t : DynamicTag) : Nat := (d.offset? t).getD 0

/-- The numbers of the symbols that relocations refer to. -/
def relocatedSymbols? (e : Encoding) (file : List UInt8) (offset size : Nat) (hasAddend : Bool) :
    Option (List Nat) := do
  if size = 0 then return []
  let bytes ← Bytes.slice? file offset size
  let word := e.width.wordSize
  let fields := if hasAddend then [word, word, word] else [word, word]
  let records ← records? e.order fields bytes 0 (bytes.length / fields.sum)
  return records.map fun fields =>
    fields.getD 1 0 / if e.width.is64 then 2 ^ 32 else 2 ^ 8

/-- The form of the jump relocations that have addends. -/
def addendForm : Nat := 7

/-- The numbers of the symbols that any relocation refers to. -/
def allRelocatedSymbols? (d : Dynamic) (e : Encoding) (file : List UInt8) :
    Option (List Nat) := do
  let addend ← relocatedSymbols? e file (d.offset .addendRelocations)
    (d.size .addendRelocationsSize) true
  let plain ← relocatedSymbols? e file (d.offset .relocations) (d.size .relocationsSize) false
  let jumps ← relocatedSymbols? e file (d.offset .jumpRelocations) (d.size .jumpRelocationsSize)
    (d.size .jumpRelocationsForm = addendForm)
  return addend ++ plain ++ jumps

/-- Numbers of four bytes up to the first odd one. -/
def chainLength? (order : ByteOrder) : List UInt8 → Option Nat
  | a :: b :: c :: d :: rest =>
    if order.value [a, b, c, d] % 2 = 1 then some 1
    else (chainLength? order rest).map (· + 1)
  | _ => none

/-- The number of symbols by a hash table with a filter in front of it. The table has the first
symbol of each chain; the last symbol ends the chain that begins last. -/
def filteredCount? (e : Encoding) (file : List UInt8) (offset : Nat) : Option Nat := do
  let bucketCount ← word? e.order file offset
  let firstSymbol ← word? e.order file (offset + 4)
  let filterSize ← word? e.order file (offset + 8)
  if bucketCount = 0 ∨ firstSymbol = 0 ∨ filterSize = 0 then none
  let buckets := offset + 16 + filterSize * e.width.wordSize
  let chains ← records? e.order [4] file buckets bucketCount
  let lastChain := (chains.map List.sum).foldl max 0
  if lastChain < firstSymbol then return 0
  let chain := buckets + bucketCount * 4 + (lastChain - firstSymbol) * 4
  return lastChain + (← chainLength? e.order (file.drop chain))

/-- Machines whose plain hash tables have numbers of eight bytes in 64-bit files. -/
def wideHashMachines : List Nat := [22, 41]

/-- The number of symbols by a plain hash table, which is the number of its chains. -/
def plainCount? (e : Encoding) (machine : Nat) (file : List UInt8) (offset : Nat) : Option Nat :=
  let size := if e.width.is64 && wideHashMachines.contains machine then 8 else 4
  (Bytes.slice? file (offset + 4) size).map e.order.value

/-- The number of symbols by the hash table; one with a filter counts before a plain one. -/
def hashedCount? (d : Dynamic) (e : Encoding) (machine : Nat) (file : List UInt8) : Option Nat :=
  match d.offset? .filteredHashTable with
  | some offset => filteredCount? e file offset
  | none =>
    match d.offset? .hashTable with
    | some offset => plainCount? e machine file offset
    | none => some 0

/-- The file holds all tables that the entries tell of. -/
def check? (d : Dynamic) (e : Encoding) (machine : Nat) (file : List UInt8) : Option Unit := do
  let _ ← StringTable.ofFile? file (d.offset .strings) (d.size .stringsSize)
  let relocated ← d.allRelocatedSymbols? e file
  let hashed ← d.hashedCount? e machine file
  let last := relocated.foldl max 0
  let count := if last = 0 then hashed else max hashed (last + 1)
  let _ ← symbolTable? e.width file (d.offset .symbols) count

end Dynamic

end BinTrace.Elf
