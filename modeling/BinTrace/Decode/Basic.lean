import BinTrace.Decode.Vector
import BinTrace.Opcode.FloatingPoint
import BinTrace.Opcode.Group
import BinTrace.Opcode.TwoByte

/-!
Decoding one instruction at the front of a list of bytes. The instruction holds exactly the bytes
that it took, so its size is the number of bytes to go on.
-/

namespace BinTrace

/-- Why no instruction can be read at an address. -/
inductive DecodeError
  /-- No opcode matches, or the form does not exist in code of this width. -/
  | invalidEncoding (address : Nat)
  /-- The bytes end before the instruction does. -/
  | truncated (address : Nat) (available : Nat)
  deriving DecidableEq

namespace DecodeError

def kind : DecodeError → String
  | invalidEncoding _ => "InvalidEncoding"
  | truncated .. => "Truncated"

def message : DecodeError → String
  | invalidEncoding address => "invalid encoding at " ++ Text.hex address
  | truncated address available =>
    "truncated instruction at " ++ Text.hex address ++ " (" ++ toString available ++
      " bytes available)"

def address : DecodeError → Nat
  | invalidEncoding address => address
  | truncated address _ => address

/-- Bytes to pass over before reading again. -/
def length (_ : DecodeError) : Nat := 1

end DecodeError

namespace Decode

def maxSize : Nat := 15

inductive OpcodeMap
  | oneByte | twoByte | threeByte
  deriving DecidableEq

open Opcode (entry)
open OpcodeSpec (undefined)

/-- One-byte opcodes whose meaning depends on prefixes or on the width of the code. -/
def oneByteSpec (w : Width) (p : Prefixes) (rex : Rex) (opcode : Nat) : OpcodeSpec :=
  if opcode = 0x63 ∧ ¬ w.is64 then
    (entry "arpl" .unknown [.ew, .gw] .update).setting (RegSet.ofFlags [.zero])
  else if opcode = 0x90 ∧ rex.b then entry "xchg" .int [.zv, .ax] .exchange
  else if opcode = 0x90 ∧ p.repetition = some .whileEqual then entry "pause" .nop [] .untouched
  else Opcode.oneByte opcode

/-- Opcodes behind `0f` whose meaning depends on a repeat prefix. -/
def twoByteSpec (p : Prefixes) (opcode : Nat) : OpcodeSpec :=
  let spec := Opcode.twoByte opcode
  if p.repetition = some .whileEqual then
    match opcode with
    | 0xbc => { spec with mnemonic := "tzcnt" }
    | 0xbd => { spec with mnemonic := "lzcnt" }
    | 0x1e => entry "nop" .nop [.ev] .untouched
    | _ => spec
  else if opcode = 0xb8 then undefined
  else spec

def threeByteSpec38 (p : Prefixes) (opcode : Nat) : OpcodeSpec :=
  let overflow := RegSet.ofFlags [.overflow]
  let carry := RegSet.ofFlags [.carry]
  if opcode = 0xf0 then
    if p.repetition = some .whileNotEqual then entry "crc32" .int [.gy, .eb] .update
    else entry "movbe" .int [.gv, .m] .write
  else if opcode = 0xf1 then
    if p.repetition = some .whileNotEqual then entry "crc32" .int [.gy, .ev] .update
    else entry "movbe" .int [.m, .gv] .write
  else if opcode = 0xf6 ∧ p.repetition = some .whileEqual then
    (entry "adox" .int [.gy, .ey] .update).testing overflow |>.setting overflow
  else if opcode = 0xf6 ∧ p.operandSize then
    (entry "adcx" .int [.gy, .ey] .update).testing carry |>.setting carry
  else if opcode = 0x17 then (entry "ptest" .simd [.vx, .wx] .read).setting RegSet.statusFlags
  else entry "sse38" .simd [.vx, .wx] .update

def threeByteSpec3a (opcode : Nat) : OpcodeSpec :=
  if 0x14 ≤ opcode ∧ opcode ≤ 0x17 then entry "pextr" .simd [.ey, .vx, .ib] .write
  else if opcode = 0x20 ∨ opcode = 0x22 then entry "pinsr" .simd [.vx, .ey, .ib] .update
  else if 0x60 ≤ opcode ∧ opcode ≤ 0x63 then
    (entry "pcmpstr" .simd [.vx, .wx, .ib] .read).reading [.ax, .dx] |>.writing [.cx]
      |>.setting RegSet.statusFlags
  else entry "sse3a" .simd [.vx, .wx, .ib] .update

def addressSize (w : Width) (p : Prefixes) : Nat :=
  match w, p.addressSize with
  | .bits64, false => 8
  | .bits64, true => 4
  | .bits32, false => 4
  | .bits32, true => 2

def operandSize (w : Width) (s : OpcodeSpec) (p : Prefixes) (rex : Rex) : Nat :=
  if w.is64 && (rex.w || s.has .wideAlways) then 8
  else if w.is64 && s.has .wideDefault then (if p.operandSize then 2 else 8)
  else if p.operandSize && s.opcodeClass ≠ .simd then 2
  else 4

/-- Vector operations on the older registers, which no prefix has moved to the newer ones. -/
def vectorClass (map : OpcodeMap) (opcode : Nat) (p : Prefixes) : RegisterClass :=
  let hasOldForm := (0x60 ≤ opcode && opcode ≤ 0x7f) || opcode = 0xc4 || opcode = 0xc5 ||
    0xd0 ≤ opcode
  if map = .twoByte && hasOldForm && p.mandatory = .absent then .mmx else .xmm

def isStringOperation (opcode : Nat) : Bool :=
  (0x6c ≤ opcode && opcode ≤ 0x6f) || (0xa4 ≤ opcode && opcode ≤ 0xa7) ||
    (0xaa ≤ opcode && opcode ≤ 0xaf)

/-- The mnemonics of one-byte opcodes that change with the operand size or the address size. -/
def sizedMnemonic (opcode operandSize addressSize : Nat) (mnemonic : String) : String :=
  let pick (word double quad : String) : String :=
    if operandSize = 2 then word else if operandSize = 8 then quad else double
  match opcode with
  | 0x98 => pick "cbw" "cwde" "cdqe"
  | 0x99 => pick "cwd" "cdq" "cqo"
  | 0x6d => pick "insw" "insd" "insd"
  | 0x6f => pick "outsw" "outsd" "outsd"
  | 0xa5 => pick "movsw" "movsd" "movsq"
  | 0xa7 => pick "cmpsw" "cmpsd" "cmpsq"
  | 0xab => pick "stosw" "stosd" "stosq"
  | 0xad => pick "lodsw" "lodsd" "lodsq"
  | 0xaf => pick "scasw" "scasd" "scasq"
  | 0xcf => pick "iretw" "iret" "iretq"
  | 0xe3 => if addressSize = 8 then "jrcxz" else if addressSize = 2 then "jcxz" else "jecxz"
  | _ => mnemonic

/-- Branch target markers hide among the no-ops behind `f3 0f 1e`. -/
def markerMnemonic (opcode : Nat) (p : Prefixes) (modRm? : Option ModRm) (mnemonic : String) :
    String :=
  if opcode = 0x1e ∧ p.repetition = some .whileEqual then
    match modRm?.map ModRm.byte with
    | some 0xfa => "endbr64"
    | some 0xfb => "endbr32"
    | _ => mnemonic
  else mnemonic

def shownMnemonic (map : OpcodeMap) (opcode operandSize addressSize : Nat) (p : Prefixes)
    (modRm? : Option ModRm) (mnemonic : String) : String :=
  match map with
  | .oneByte => sizedMnemonic opcode operandSize addressSize mnemonic
  | .twoByte => markerMnemonic opcode p modRm? mnemonic
  | .threeByte => mnemonic

/-- The form does not exist in code of this width. -/
def isExcluded (w : Width) (s : OpcodeSpec) : Bool :=
  s.opcodeClass = .invalid || (w.is64 && s.has .only32)

/-- Counting registers that a repeat prefix or the count-is-zero jump read and write. -/
def countRegister (map : OpcodeMap) (opcode : Nat) (p : Prefixes) : RegSet × RegSet :=
  let count := RegSet.ofGprs [.cx]
  if map = .oneByte ∧ p.repetition.isSome ∧ isStringOperation opcode then (count, count)
  else if map = .oneByte ∧ opcode = 0xe3 then (count, ∅)
  else (∅, ∅)

/-- The meaning of an entry together with its member of a group, if it has one. -/
def completeSpec (s : OpcodeSpec) (modRm? : Option ModRm) : OpcodeSpec :=
  match s.group, modRm? with
  | some g, some m => s.complete (Opcode.groupMember g m.regField m.isRegister m.rmField)
  | _, _ => s

/-- The meaning of an entry with its operands, and with what is read and written besides. -/
def meaningOf (w : Width) (spec : OpcodeSpec) (mnemonic : String) (count : RegSet × RegSet)
    (operands : List Operand) : Meaning :=
  { opcodeClass := spec.opcodeClass
    mnemonic := mnemonic
    operands := operands
    uses := usesOf spec operands ∪ count.1 ∪ CallingConvention.uses w spec.opcodeClass
    defs := defsOf spec operands ∪ count.2 ∪ CallingConvention.defs w spec.opcodeClass }

namespace ByteReader

/-- Reads what is behind ModRM, if there is one. -/
def behindModRm (w : Width) (p : Prefixes) (rex : Rex) (spec : OpcodeSpec) (map : OpcodeMap)
    (opcode : Nat) (modRm? : Option ModRm) : ByteReader Meaning := do
  let addressBytes := addressSize w p
  let spec := completeSpec spec modRm?
  if isExcluded w spec then reject
  let spec :=
    if spec.has .namedByPrefix then
      { spec with mnemonic := Opcode.vectorName opcode p.mandatory }
    else spec
  let operandBytes := operandSize w spec p rex
  let layout : Layout :=
    { width := w
      rex := rex
      operandSize := operandBytes
      addressSize := addressBytes
      hasOperandSizePrefix := p.operandSize
      isWide := spec.has .wideAlways
      vectorClass := vectorClass map opcode p
      opcode := opcode }
  let operands ← spec.operands.mapM (operand layout modRm?)
  let mnemonic :=
    shownMnemonic map opcode operandBytes addressBytes p modRm? spec.mnemonic
  return meaningOf w spec mnemonic (countRegister map opcode p) operands

def tail (w : Width) (p : Prefixes) (rex : Rex) (spec : OpcodeSpec) (map : OpcodeMap)
    (opcode : Nat) : ByteReader Meaning := do
  let modRm? ←
    if spec.needsModRm then
      some <$> modRm rex (addressSize w p) w.is64 (spec.has .registerForm)
    else pure none
  behindModRm w p rex spec map opcode modRm?

def floatTail (w : Width) (p : Prefixes) (rex : Rex) (opcode : Nat) : ByteReader Meaning := do
  let spec := Opcode.floatingPoint opcode (← peek)
  let m ← modRm rex (addressSize w p) w.is64 false
  if spec.opcodeClass = .invalid then reject
  let addressRegs := ((m.memory.bind Operand.memory?).map MemoryRef.addressRegs).getD ∅
  return {
    opcodeClass := spec.opcodeClass
    mnemonic := spec.mnemonic
    operands := m.memory.toList
    uses := spec.uses ∪ addressRegs
    defs := spec.defs }

def prefixes : ByteReader Prefixes := do
  let c ← get
  let (p, rest) := Prefixes.scan {} c.unread
  set (Cursor.mk rest (c.position + (c.unread.length - rest.length)))
  return p

def rexByte (w : Width) : ByteReader Rex := do
  match (← get).unread with
  | b :: _ =>
    if w.is64 && 0x40 ≤ b.toNat && b.toNat ≤ 0x4f then
      let n ← byte
      return Rex.ofByte n
    else return {}
  | [] => return {}

/-- Lead bytes of vector extension encodings. In 32-bit code they are such only if the next byte
cannot be the ModRM byte of a memory operand. -/
def startsVector (w : Width) (opcode : Nat) : ByteReader Bool := do
  if opcode = 0xc4 ∨ opcode = 0xc5 ∨ opcode = 0x62 then
    match (← get).unread with
    | b :: _ => return w.is64 || 0xc0 ≤ b.toNat
    | [] => return w.is64
  else return false

def instruction (w : Width) : ByteReader Meaning := do
  let p ← prefixes
  let rex ← rexByte w
  let opcode ← byte
  if ← startsVector w opcode then
    if rex.isPresent || !p.allowVectorExtension then reject
    if opcode = 0x62 then evex w else vex w opcode
  else if 0xd8 ≤ opcode ∧ opcode ≤ 0xdf then floatTail w p rex opcode
  else if opcode = 0x0f then
    let second ← byte
    if second = 0x38 then
      let third ← byte
      tail w p rex (threeByteSpec38 p third) .threeByte third
    else if second = 0x3a then
      let third ← byte
      tail w p rex (threeByteSpec3a third) .threeByte third
    else tail w p rex (twoByteSpec p second) .twoByte second
  else tail w p rex (oneByteSpec w p rex opcode) .oneByte opcode

end ByteReader

end Decode

open Decode in
/-- Decodes the instruction that begins with the first byte, which lies at `address`. Running past
the greatest size is an invalid encoding, running out of bytes before it a truncation. -/
def decode (w : Width) (bytes : List UInt8) (address : Nat) :
    Except DecodeError Instruction :=
  match ByteReader.instruction w |>.run ⟨bytes.take maxSize, 0⟩ with
  | .ok (m, c) =>
    .ok { address := address
          bytes := bytes.take c.position
          opcodeClass := m.opcodeClass
          mnemonic := m.mnemonic
          operands := m.operands
          uses := m.uses
          defs := m.defs }
  | .error .invalid => .error (.invalidEncoding address)
  | .error .endOfInput =>
    if maxSize < bytes.length then .error (.invalidEncoding address)
    else .error (.truncated address bytes.length)

/-- The placeholder for a byte that begins no instruction. -/
def invalidByte (bytes : List UInt8) (address : Nat) : Instruction :=
  { address, bytes := bytes.take 1, opcodeClass := .invalid, mnemonic := "(bad)" }

def decodeOrInvalid (w : Width) (bytes : List UInt8) (address : Nat) : Instruction :=
  match decode w bytes address with
  | .ok i => i
  | .error _ => invalidByte bytes address

end BinTrace
