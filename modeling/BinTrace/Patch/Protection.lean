import BinTrace.Register.RegSet
import BinTrace.Text.Name

/-!
What a trampoline saves around inserted code, and in which way.
-/

namespace BinTrace

inductive FlagsProtection
  | none
  /-- The low flags are carried through the register `ah`. -/
  | light
  /-- The flags word is pushed. -/
  | full
  deriving DecidableEq

namespace FlagsProtection

def name : FlagsProtection → String
  | none => "none"
  | light => "light"
  | full => "full"

def ofName : String → Except UnknownName FlagsProtection :=
  Text.named "flags protection" [("none", none), ("light", light), ("full", full)]

/-- The least protection that preserves the flags of a set. -/
def covering (s : RegSet) : FlagsProtection :=
  if s.onlyFlags = ∅ then none
  else if s.onlyFlags \ RegSet.lowFlags = ∅ then light
  else full

end FlagsProtection

structure Protection where
  flags : FlagsProtection
  /-- Registers to push, in this order. -/
  saves : List Gpr
  /-- Leaves the bytes below the stack pointer alone that the code may be using. -/
  skipRedZone : Bool := false

namespace Protection

/-- Bytes below the stack pointer that code without calls may use. -/
def redZone : Int := 128

def usesStack (p : Protection) : Bool := !p.saves.isEmpty || p.flags ≠ .none

/-- Preserves the registers and flags that are `atRisk`, the stack pointer apart, which pushes and
pops keep. Carrying flags through a register takes a save of that register too if it is live. -/
def covering (live atRisk : RegSet) : Protection :=
  let flags := FlagsProtection.covering atRisk
  let saves := atRisk.gprs.filter (· ≠ .sp)
  if flags = .light ∧ live.contains (.gpr .ax) ∧ .ax ∉ saves then { flags, saves := .ax :: saves }
  else { flags, saves }

end Protection

end BinTrace
