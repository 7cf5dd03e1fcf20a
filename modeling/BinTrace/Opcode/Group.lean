import BinTrace.Opcode.OneByte

/-!
Members of the opcode groups: what the reg field of ModRM makes of the opcode, in some groups also
whether the r/m field names a register, and which.
-/

namespace BinTrace.Opcode

open OpcodeSpec (undefined)
open RegSet (statusFlags)

/-- An integer operation on the operands that the opcode gives. -/
def member (mnemonic : String) (access : Access) : OpcodeSpec := entry mnemonic .int [] access

def shiftMember : Nat → OpcodeSpec
  | 0 => (member "rol" .update).setting (RegSet.ofFlags [.carry, .overflow])
  | 1 => (member "ror" .update).setting (RegSet.ofFlags [.carry, .overflow])
  | 2 => (member "rcl" .update).setting (RegSet.ofFlags [.carry, .overflow])
      |>.testing (RegSet.ofFlags [.carry])
  | 3 => (member "rcr" .update).setting (RegSet.ofFlags [.carry, .overflow])
      |>.testing (RegSet.ofFlags [.carry])
  | 4 | 6 => (member "shl" .update).setting statusFlags
  | 5 => (member "shr" .update).setting statusFlags
  | _ => (member "sar" .update).setting statusFlags

/-- Test, negation, multiplication and division. `wide` tells the forms on more than a byte, whose
results and dividends also take the register `dx`. -/
def unaryMember (wide : Bool) : Nat → OpcodeSpec
  | 0 | 1 =>
    (entry "test" .int (if wide then [.ev, .iz] else [.eb, .ib]) .read).setting statusFlags
  | 2 => member "not" .update
  | 3 => (member "neg" .update).setting statusFlags
  | 4 => product "mul"
  | 5 => product "imul"
  | 6 => quotient "div"
  | _ => quotient "idiv"
where
  pair : List Gpr := if wide then [.ax, .dx] else [.ax]
  product (mnemonic : String) : OpcodeSpec :=
    (member mnemonic .read).reading [.ax] |>.writing pair |>.setting statusFlags
  quotient (mnemonic : String) : OpcodeSpec :=
    (member mnemonic .read).reading pair |>.writing pair |>.setting statusFlags

def countMember : Nat → OpcodeSpec
  | 0 => (member "inc" .update).setting countFlags
  | 1 => (member "dec" .update).setting countFlags
  | _ => undefined

/-- Counting, and transfers of control through a register or memory. -/
def indirectMember (registerForm : Bool) : Nat → OpcodeSpec
  | 0 => countMember 0
  | 1 => countMember 1
  | 2 => (branchEntry "call" .call []).reading [.sp] |>.writing [.sp]
  | 3 => if registerForm then undefined
    else (entry "callf" .call [.m] .read).reading [.sp] |>.writing [.sp]
  | 4 => branchEntry "jmp" .uncondBranch []
  | 5 => if registerForm then undefined else entry "jmpf" .uncondBranch [.m] .read
  | 6 => (member "push" .read).reading [.sp] |>.writing [.sp] |>.marked .wideDefault
  | _ => undefined

def descriptorMember : Nat → OpcodeSpec
  | 0 => entry "sldt" .unknown [] .write
  | 1 => entry "str" .unknown [] .write
  | 2 => entry "lldt" .unknown [] .read
  | 3 => entry "ltr" .unknown [] .read
  | 4 => (entry "verr" .unknown [] .read).setting (RegSet.ofFlags [.zero])
  | 5 => (entry "verw" .unknown [] .read).setting (RegSet.ofFlags [.zero])
  | _ => undefined

def systemRegisterMember (reg rm : Nat) : OpcodeSpec :=
  match reg, rm with
  | 2, 0 => (entry "xgetbv" .unknown [] .untouched).reading [.cx] |>.writing [.ax, .dx]
  | 2, 1 => (entry "xsetbv" .unknown [] .untouched).reading [.ax, .cx, .dx]
  | 7, 0 => entry "swapgs" .unknown [] .untouched
  | 7, 1 => (entry "rdtscp" .unknown [] .untouched).writing [.ax, .cx, .dx]
  | 4, _ => entry "smsw" .unknown [] .write
  | 6, _ => entry "lmsw" .unknown [] .read
  | _, _ => entry "sys" .unknown [] .untouched

def systemMemoryMember : Nat → OpcodeSpec
  | 0 => entry "sgdt" .unknown [.m] .read
  | 1 => entry "sidt" .unknown [.m] .read
  | 2 => entry "lgdt" .unknown [.m] .read
  | 3 => entry "lidt" .unknown [.m] .read
  | 4 => entry "smsw" .unknown [.m] .read
  | 6 => entry "lmsw" .unknown [.m] .read
  | 7 => entry "invlpg" .unknown [.m] .read
  | _ => undefined

def bitMember : Nat → OpcodeSpec
  | 4 => (member "bt" .read).setting statusFlags
  | 5 => (member "bts" .update).setting statusFlags
  | 6 => (member "btr" .update).setting statusFlags
  | 7 => (member "btc" .update).setting statusFlags
  | _ => undefined

def exchangeMember (registerForm : Bool) (reg : Nat) : OpcodeSpec :=
  match reg, registerForm with
  | 1, false => (entry "cmpxchg8b" .int [.m] .update).reading [.ax, .dx, .bx, .cx]
      |>.writing [.ax, .dx] |>.setting (RegSet.ofFlags [.zero])
  | 6, true => (entry "rdrand" .int [.ev] .write).setting statusFlags
  | 7, true => (entry "rdseed" .int [.ev] .write).setting statusFlags
  | _, _ => undefined

def vectorShiftMember : Nat → OpcodeSpec
  | 2 => entry "psrl" .simd [] .update
  | 4 => entry "psra" .simd [] .update
  | 6 => entry "psll" .simd [] .update
  | 3 | 7 => entry "psrldq" .simd [] .update
  | _ => undefined

def fenceMember : Nat → OpcodeSpec
  | 5 => entry "lfence" .unknown [] .untouched
  | 6 => entry "mfence" .unknown [] .untouched
  | 7 => entry "sfence" .unknown [] .untouched
  | 0 | 1 | 2 | 3 => entry "rdfsbase" .unknown [.ey] .write
  | _ => undefined

def stateMember : Nat → OpcodeSpec
  | 0 => entry "fxsave" .unknown [.m] .read
  | 1 => entry "fxrstor" .unknown [.m] .read
  | 2 => entry "ldmxcsr" .unknown [.m] .read
  | 3 => entry "stmxcsr" .unknown [.m] .read
  | 4 => (entry "xsave" .unknown [.m] .read).reading [.ax, .dx]
  | 5 => (entry "xrstor" .unknown [.m] .read).reading [.ax, .dx]
  | 6 => (entry "xsaveopt" .unknown [.m] .read).reading [.ax, .dx]
  | _ => entry "clflush" .unknown [.m] .read

def prefetchMember (registerForm : Bool) (reg : Nat) : OpcodeSpec :=
  match reg, registerForm with
  | 0, false => entry "prefetchnta" .int [.m] .untouched
  | 1, false => entry "prefetcht0" .int [.m] .untouched
  | 2, false => entry "prefetcht1" .int [.m] .untouched
  | 3, false => entry "prefetcht2" .int [.m] .untouched
  | _, _ => entry "nop" .nop [.ev] .untouched

/-- The member that the fields of ModRM select. `reg` and `rm` are below eight. -/
def groupMember (g : Group) (reg : Nat) (registerForm : Bool) (rm : Nat) : OpcodeSpec :=
  match g with
  | .g1 => arithmeticEntry reg []
  | .g1a => if reg = 0 then (member "pop" .write).reading [.sp] |>.writing [.sp] else undefined
  | .g2 => shiftMember reg
  | .g3b => unaryMember false reg
  | .g3v => unaryMember true reg
  | .g4 => countMember reg
  | .g5 => indirectMember registerForm reg
  | .g6 => descriptorMember reg
  | .g7 => if registerForm then systemRegisterMember reg rm else systemMemoryMember reg
  | .g8 => bitMember reg
  | .g9 => exchangeMember registerForm reg
  | .g11 => if reg = 0 then member "mov" .write else undefined
  | .g12 => vectorShiftMember reg
  | .g15 => if registerForm then fenceMember reg else stateMember reg
  | .g16 => prefetchMember registerForm reg

end BinTrace.Opcode
