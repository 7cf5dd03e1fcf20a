import BinTrace.Opcode.OneByte

/-!
The floating-point opcodes `d8` to `df`. With a memory operand the reg field of ModRM completes the
opcode; otherwise the whole ModRM byte does, and operands are not recorded.
-/

namespace BinTrace.Opcode

open OpcodeSpec (undefined)
open RegSet (statusFlags)

/-- The names of the memory forms by reg field; an empty name marks a hole. -/
def floatMemoryNames : Nat → List String
  | 0xd8 | 0xdc => ["fadd", "fmul", "fcom", "fcomp", "fsub", "fsubr", "fdiv", "fdivr"]
  | 0xd9 => ["fld", "", "fst", "fstp", "fldenv", "fldcw", "fnstenv", "fnstcw"]
  | 0xda | 0xde => ["fiadd", "fimul", "ficom", "ficomp", "fisub", "fisubr", "fidiv", "fidivr"]
  | 0xdb => ["fild", "fisttp", "fist", "fistp", "", "fld", "", "fstp"]
  | 0xdd => ["fld", "fisttp", "fst", "fstp", "frstor", "", "fnsave", "fnstsw"]
  | _ => ["fild", "fisttp", "fist", "fistp", "fbld", "fild", "fbstp", "fistp"]

def floatOp (mnemonic : String) : OpcodeSpec := entry mnemonic .float [] .untouched

/-- The forms on the register stack, for ModRM bytes from `c0` on. -/
def floatRegisterForm (opcode modRm : Nat) : OpcodeSpec :=
  match opcode with
  | 0xd9 =>
    if modRm = 0xc9 then floatOp "fxch"
    else if modRm = 0xe0 then floatOp "fchs"
    else if modRm = 0xe1 then floatOp "fabs"
    else if modRm = 0xe8 then floatOp "fld1"
    else if modRm = 0xee then floatOp "fldz"
    else if modRm = 0xd0 then entry "fnop" .nop [] .untouched
    else if modRm ≤ 0xc7 then floatOp "fld"
    else floatOp "fpu"
  | 0xda =>
    if modRm ≤ 0xdf then
      (floatOp "fcmov").testing (RegSet.ofFlags [.carry, .zero, .parity])
    else floatOp "fpu"
  | 0xdb =>
    if 0xe8 ≤ modRm ∧ modRm ≤ 0xf7 then (floatOp "fucomi").setting statusFlags
    else if modRm ≤ 0xdf then
      (floatOp "fcmovn").testing (RegSet.ofFlags [.carry, .zero, .parity])
    else if modRm = 0xe2 then floatOp "fnclex"
    else if modRm = 0xe3 then floatOp "fninit"
    else floatOp "fpu"
  | 0xdd => if 0xd8 ≤ modRm ∧ modRm ≤ 0xdf then floatOp "fstp" else floatOp "fpu"
  | 0xdf =>
    if modRm = 0xe0 then (floatOp "fnstsw").reading [.ax] |>.writing [.ax]
    else if 0xe8 ≤ modRm ∧ modRm ≤ 0xf7 then (floatOp "fucomip").setting statusFlags
    else floatOp "fpu"
  | _ => floatOp "fpu"

def floatingPoint (opcode modRm : Nat) : OpcodeSpec :=
  if modRm < 0xc0 then
    match (floatMemoryNames opcode)[modRm / 8 % 8]? with
    | some "" | none => undefined
    | some mnemonic => entry mnemonic .float [.m] .read
  else floatRegisterForm opcode modRm

end BinTrace.Opcode
