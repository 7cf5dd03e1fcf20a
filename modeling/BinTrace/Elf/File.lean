import BinTrace.Elf.Dynamic
import BinTrace.Program.Basic

/-!
Reading a program from an ELF file: the header, the sections and their names, and the functions
that the symbol table names.
-/

namespace BinTrace.Elf

structure Header where
  machine : Nat
  entry : Nat
  segmentOffset : Nat
  segmentCount : Nat
  sectionOffset : Nat
  sectionCount : Nat
  /-- The section that holds the names of the sections. -/
  nameSection : Nat

structure SectionHeader where
  name : Nat
  kind : Nat
  flags : Nat
  address : Nat
  offset : Nat
  size : Nat
  link : Nat
  entrySize : Nat

structure Symbol where
  name : Nat
  info : Nat
  value : Nat
  size : Nat

/-- The bytes that begin every file, up to the size of an address and the order of bytes. -/
def magic : List UInt8 := [0x7f, 0x45, 0x4c, 0x46]

def identSize : Nat := 16

def width? : UInt8 → Option Width
  | 1 => some .bits32
  | 2 => some .bits64
  | _ => none

def byteOrder? : UInt8 → Option ByteOrder
  | 1 => some .littleEndian
  | 2 => some .bigEndian
  | _ => none

def encoding? (file : List UInt8) : Option Encoding := do
  let ident ← Bytes.slice? file 0 identSize
  if ident.take magic.length = magic then
    return ⟨← width? (ident.getD 4 0), ← byteOrder? (ident.getD 5 0)⟩
  else none

def header? (e : Encoding) (file : List UInt8) : Option Header := do
  let w := e.width.wordSize
  let fields ← record? e.order [2, 2, 4, w, w, w, 4, 2, 2, 2, 2, 2, 2] file identSize
  match fields with
  | [_, machine, _, entry, segmentOffset, sectionOffset, _, _, _, segmentCount, _, sectionCount,
      nameSection] =>
    return { machine, entry, segmentOffset, segmentCount, sectionOffset, sectionCount,
             nameSection }
  | _ => none

def sectionFields (w : Width) : List Nat :=
  let word := w.wordSize
  [4, 4, word, word, word, word, 4, 4, word, word]

def sectionHeader? : List Nat → Option SectionHeader
  | [name, kind, flags, address, offset, size, link, _, _, entrySize] =>
    some { name, kind, flags, address, offset, size, link, entrySize }
  | _ => none

/-- The section table. There is none at offset zero, and a table of more sections than the header
can count has their number in the size of its first section. -/
def sectionHeaders? (e : Encoding) (h : Header) (file : List UInt8) :
    Option (List SectionHeader) := do
  if h.sectionOffset = 0 then return []
  let first ← (record? e.order (sectionFields e.width) file h.sectionOffset).bind sectionHeader?
  let count := max 1 (if h.sectionCount = 0 then first.size else h.sectionCount)
  let records ← records? e.order (sectionFields e.width) file h.sectionOffset count
  records.mapM sectionHeader?

def symbolTableKind : Nat := 2

def relocationKinds : List Nat := [4, 9]

/-- The kind of a section whose contents are not in the file. -/
def noBitsKind : Nat := 8

def versionKinds : List Nat := [0x6fffffff, 0x6ffffffd, 0x6ffffffe]

def loadedFlag : Nat := 1

def codeFlag : Nat := 2

/-- In the place of a section's number: the number is the link of the first section. -/
def extendedNumber : Nat := 0xffff

/-- The section's contents do not reach over the end of the file or of the address space. -/
def isInside (file : List UInt8) (s : SectionHeader) : Bool :=
  s.kind = noBitsKind || s.size = 0 ||
    (s.offset + s.size ≤ file.length && s.address + s.size < addressSpace)

/-- The strings of a section; a number without a section stands for a table without strings. -/
def stringsOf? (file : List UInt8) (sections : List SectionHeader) (number : Nat) :
    Option StringTable := do
  let number :=
    if number = extendedNumber then (sections.head?.map SectionHeader.link).getD number else number
  match sections[number]? with
  | some s =>
    if isInside file s then StringTable.ofFile? file s.offset s.size else none
  | none => return ⟨[]⟩

def symbol? (w : Width) (fields : List Nat) : Option Symbol :=
  match w, fields with
  | .bits32, [name, value, size, info, _, _] => some { name, info, value, size }
  | .bits64, [name, info, _, _, value, size] => some { name, info, value, size }
  | _, _ => none

def symbols? (e : Encoding) (file : List UInt8) (s : SectionHeader) : Option (List Symbol) := do
  let count := s.size / s.entrySize
  let bytes ← symbolTable? e.width file s.offset count
  let records ← records? e.order (symbolFields e.width) bytes 0 count
  records.mapM (symbol? e.width)

/-- The kind of a symbol that names a function, which is in the low half of its info byte. -/
def functionKind : Nat := 2

def functionSymbol? (names : StringTable) (s : Symbol) : Option FunctionSymbol :=
  if s.info % 16 = functionKind ∧ s.value ≠ 0 ∧ s.size ≠ 0 then
    (names.get? s.name).map fun name => ⟨name, s.value, s.size⟩
  else none

/-- Keeps the first of functions that follow each other with one address. -/
def dropAliases : List FunctionSymbol → List FunctionSymbol
  | [] => []
  | f :: rest =>
    match dropAliases rest with
    | g :: kept => if f.address = g.address then f :: kept else f :: g :: kept
    | [] => [f]

def section? (names : StringTable) (s : SectionHeader) : Option Section :=
  (names.get? s.name).map fun name =>
    { name, address := s.address, offset := s.offset, size := s.size,
      isExecutable := s.flags.testBit loadedFlag && s.flags.testBit codeFlag
      hasContents := s.kind ≠ noBitsKind }

def architecture : Nat → Architecture
  | 3 => .x86 .bits32
  | 62 => .x86 .bits64
  | _ => .unknown

/-- The functions that the last symbol table names. -/
def functions? (e : Encoding) (file : List UInt8) (sections : List SectionHeader) :
    Option (List FunctionSymbol) := do
  match sections.reverse.find? fun s => s.kind = symbolTableKind with
  | none => return []
  | some table =>
    let symbols ← symbols? e file table
    let names ← stringsOf? file sections table.link
    let found := symbols.filterMap (functionSymbol? names)
    return dropAliases (found.mergeSort fun f g => f.address ≤ g.address)

/-- Relocations lie inside the file, and so does the first section of each kind about versions. -/
def checkSections? (file : List UInt8) (sections : List SectionHeader) : Option Unit := do
  if !((sections.filter fun s => relocationKinds.contains s.kind).all (isInside file)) then none
  versionKinds.forM fun kind =>
    match sections.find? fun s => s.kind = kind with
    | some s => (part? file s.offset s.size).map fun _ => ()
    | none => some ()

/-- The program in a file, unless a table is damaged or reaches over the end of the file. -/
def program? (file : List UInt8) : Option Program := do
  let e ← encoding? file
  let h ← header? e file
  let segments ← segments? e file h.segmentOffset h.segmentCount
  let sections ← sectionHeaders? e h file
  let names ← stringsOf? file sections h.nameSection
  let functions ← functions? e file sections
  let dynamic ← dynamic? e file segments
  dynamic.check? e h.machine file
  checkSections? file sections
  return {
    architecture := architecture h.machine
    entry := h.entry
    sections := sections.filterMap (section? names)
    functions }

end BinTrace.Elf
