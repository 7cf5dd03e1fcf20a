import BinTrace.Image
import BinTrace.Instruction.Basic

/-!
Tables of jump targets: where the table of an indirect jump lies, and what its entries say.
-/

namespace BinTrace

/-- How the first entry makes the table be read. -/
inductive TableMode
  /-- Entries are addresses inside the function. -/
  | direct
  /-- Entries are signed 32-bit distances from an anchor. -/
  | offset
  /-- The table is code itself. -/
  | instructions
  deriving DecidableEq

def TableMode.name : TableMode → String
  | direct => "direct"
  | offset => "offset"
  | instructions => "instructions"

structure JumpTable where
  /-- The address of the indirect jump. -/
  branch : Nat
  /-- The address of the first entry. -/
  base : Nat
  mode : TableMode
  targets : List Nat

namespace JumpTable

/-- How many instructions in front of the jump are searched for the table. -/
def lookback : Nat := 8

def maxEntries : Nat := 4096

/-- The least number that is taken for the address of a table. -/
def minAddress : Int := 0x10000

/-- Entries nearer to zero than this are distances unless a run chooses otherwise. -/
def defaultReach : Nat := 0x1000

/-- An operand value as an address of code of the given width. -/
def asAddress (w : Width) (value : Int) : Nat :=
  match w with
  | .bits32 => (value.emod (2 ^ 32)).toNat
  | .bits64 => (value.emod addressSpace).toNat

/-- The operand names the table: it is an absolute memory operand or an immediate, and its value
is an address. -/
def operandBase? (w : Width) (o : Operand) : Option Nat :=
  let named : Bool :=
    match o.kind with
    | .memory m => m.base.isNone
    | .immediate => true
    | _ => false
  if named ∧ minAddress ≤ o.value then some (asAddress w o.value) else none

/-- The table that an instruction in front of the jump refers to. -/
def referredBase? (w : Width) (i : Instruction) : Option Nat :=
  i.relativeTarget?.or (i.operands.findSome? (operandBase? w))

/-- The table that the jump's own operand names. -/
def ownBase? (w : Width) (branch : Instruction) : Option Nat :=
  match branch.operands.head? with
  | some o =>
    match o.kind with
    | .memory m =>
      if m.relativeToEnd then branch.relativeTarget?
      else if m.base.isNone ∧ o.value ≠ 0 then some (asAddress w o.value)
      else none
    | _ => none
  | none => none

/-- The base of the table of `branch`: the jump names it, or one of the instructions in front,
which are given nearest first and searched back to the last transfer of control. -/
def findBase? (w : Width) (branch : Instruction) (preceding : List Instruction) :
    Option Nat :=
  if branch.operands.isEmpty then none
  else
    (ownBase? w branch).or <|
      ((preceding.take lookback).takeWhile fun i => !i.isControl).findSome? (referredBase? w)

/-- The entries from number `n` on, up to the first one that cannot be read or that lies outside
the function. -/
def readEntries (target? : Nat → Option Nat) (function : AddressRange) :
    Nat → Nat → List Nat
  | 0, _ => []
  | remaining + 1, n =>
    match target? n with
    | some target =>
      if function.contains target then target :: readEntries target? function remaining (n + 1)
      else []
    | none => []

def signedWord (n : Nat) : Int := (n : Int).bmod (2 ^ 32)

/-- The table at `base`, or `none` if its first entry cannot be read. Entries are addresses if the
first one lies in the function; they are distances if the first one leads there, from the table or
from the function's start, or is nearer to zero than `reach`; otherwise the table is code. -/
def resolve? (w : Width) (image : Image) (reach : Nat) (function : AddressRange)
    (branch base : Nat) : Option JumpTable := do
  let code : JumpTable := ⟨branch, base, .instructions, [base]⟩
  if function.contains base then return code
  let word := w.wordSize
  let first ← image.readWord base word
  if function.contains first then
    let target? (n : Nat) : Option Nat := image.readWord (base + n * word) word
    return ⟨branch, base, .direct, readEntries target? function maxEntries 0⟩
  let distance := signedWord (← image.readWord base 4)
  let fromTable := function.contains (Instruction.offsetAddress base distance)
  let fromStart := function.contains (Instruction.offsetAddress function.base distance)
  if !fromTable && !fromStart && reach ≤ distance.natAbs then return code
  let anchor := if !fromTable && fromStart then function.base else base
  let target? (n : Nat) : Option Nat :=
    (image.readWord (base + n * 4) 4).map fun raw =>
      Instruction.offsetAddress anchor (signedWord raw)
  return ⟨branch, base, .offset, readEntries target? function maxEntries 0⟩

end JumpTable

end BinTrace
