import BinTrace.Opcode.Condition
import BinTrace.Opcode.Spec

/-!
The map of one-byte opcodes, in rows of sixteen. Prefixes, escapes and the floating-point opcodes
are read before the map is asked, and are undefined in it.
-/

namespace BinTrace.Opcode

open OpcodeSpec (undefined)
open RegSet (statusFlags allFlags lowFlags)

/-- An entry that touches nothing but its operands. -/
def entry (mnemonic : String) (c : OpcodeClass) (operands : List Template) (access : Access) :
    OpcodeSpec :=
  { mnemonic, opcodeClass := c, operands, access }

/-- An entry without operands that moves data between a register and the stack. -/
def stackEntry (mnemonic : String) : OpcodeSpec :=
  (entry mnemonic .int [] .read).reading [.sp] |>.writing [.sp]

/-- The status flags without carry, which `inc` and `dec` set. -/
def countFlags : RegSet := statusFlags \ RegSet.ofFlags [.carry]

def arithmetic : List (String × RegSet × Access) :=
  [("add", ∅, .update), ("or", ∅, .update),
   ("adc", RegSet.ofFlags [.carry], .update), ("sbb", RegSet.ofFlags [.carry], .update),
   ("and", ∅, .update), ("sub", ∅, .update), ("xor", ∅, .update), ("cmp", ∅, .read)]

def arithmeticEntry (number : Nat) (operands : List Template) : OpcodeSpec :=
  match arithmetic[number]? with
  | some (mnemonic, flags, access) =>
    (entry mnemonic .int operands access).setting statusFlags |>.testing flags
  | none => undefined

/-- The six operand forms of one operation. -/
def arithmeticForms (number : Nat) : List OpcodeSpec :=
  [[.eb, .gb], [.ev, .gv], [.gb, .eb], [.gv, .ev], [.al, .ib], [.ax, .iz]].map
    (arithmeticEntry number)

def adjustEntry (mnemonic : String) (flags : List Flag) : OpcodeSpec :=
  (entry mnemonic .int [] .read).reading [.ax] |>.writing [.ax]
    |>.testing (RegSet.ofFlags flags) |>.setting statusFlags |>.marked .only32

/-- A string operation, which goes in the direction that a flag gives. -/
def stringEntry (mnemonic : String) (uses defs : List Gpr) : OpcodeSpec :=
  (entry mnemonic .int [] .read).reading uses |>.writing defs
    |>.testing (RegSet.ofFlags [.direction])

def groupEntry (g : Group) (operands : List Template) (access : Access) : OpcodeSpec :=
  (entry "" .int operands access).grouped g

/-- A transfer of control: its operands have the width of an address. -/
def branchEntry (mnemonic : String) (c : OpcodeClass) (operands : List Template) : OpcodeSpec :=
  (entry mnemonic c operands .read).marked .wideAlways

def oneByteRow0 : List OpcodeSpec :=
  arithmeticForms 0 ++ [(stackEntry "push").marked .only32, (stackEntry "pop").marked .only32] ++
  arithmeticForms 1 ++ [(stackEntry "push").marked .only32, undefined]

def oneByteRow1 : List OpcodeSpec :=
  arithmeticForms 2 ++ [(stackEntry "push").marked .only32, (stackEntry "pop").marked .only32] ++
  arithmeticForms 3 ++ [(stackEntry "push").marked .only32, (stackEntry "pop").marked .only32]

def oneByteRow2 : List OpcodeSpec :=
  arithmeticForms 4 ++ [undefined, adjustEntry "daa" [.carry, .adjust]] ++
  arithmeticForms 5 ++ [undefined, adjustEntry "das" [.carry, .adjust]]

def oneByteRow3 : List OpcodeSpec :=
  arithmeticForms 6 ++ [undefined, adjustEntry "aaa" [.adjust]] ++
  arithmeticForms 7 ++ [undefined, adjustEntry "aas" [.adjust]]

def oneByteRow4 : List OpcodeSpec :=
  List.replicate 8 ((entry "inc" .int [.zv] .update).setting countFlags |>.marked .only32) ++
  List.replicate 8 ((entry "dec" .int [.zv] .update).setting countFlags |>.marked .only32)

def oneByteRow5 : List OpcodeSpec :=
  List.replicate 8 ((entry "push" .int [.zv] .read).reading [.sp] |>.writing [.sp]
    |>.marked .wideDefault) ++
  List.replicate 8 ((entry "pop" .int [.zv] .write).reading [.sp] |>.writing [.sp]
    |>.marked .wideDefault)

def legacyGprs : List Gpr := [.ax, .cx, .dx, .bx, .sp, .bp, .si, .di]

def oneByteRow6 : List OpcodeSpec :=
  [ (entry "pusha" .int [] .read).reading legacyGprs |>.writing [.sp] |>.marked .only32,
    (entry "popa" .int [] .read).reading [.sp] |>.writing legacyGprs |>.marked .only32,
    (entry "bound" .int [.gv, .m] .read).marked .only32,
    entry "movsxd" .int [.gv, .ed] .write,
    undefined, undefined, undefined, undefined,
    (entry "push" .int [.iz] .read).reading [.sp] |>.writing [.sp] |>.marked .wideDefault,
    (entry "imul" .int [.gv, .ev, .iz] .write).setting statusFlags,
    (entry "push" .int [.ib] .read).reading [.sp] |>.writing [.sp] |>.marked .wideDefault,
    (entry "imul" .int [.gv, .ev, .ib] .write).setting statusFlags,
    stringEntry "insb" [.dx, .di] [.di],
    stringEntry "insd" [.dx, .di] [.di],
    stringEntry "outsb" [.dx, .si] [.si],
    stringEntry "outsd" [.dx, .si] [.si] ]

/-- The sixteen entries of an operation that depends on a condition. -/
def conditionRow (f : Nat → OpcodeSpec) : List OpcodeSpec :=
  (List.range 16).map fun code => (f code).testing (Condition.flags code)

def oneByteRow7 : List OpcodeSpec :=
  conditionRow fun code => branchEntry (Condition.jumpMnemonic code) .condBranch [.jb]

def oneByteRow8 : List OpcodeSpec :=
  [ groupEntry .g1 [.eb, .ib] .update,
    groupEntry .g1 [.ev, .iz] .update,
    (groupEntry .g1 [.eb, .ib] .update).marked .only32,
    groupEntry .g1 [.ev, .ib] .update,
    (entry "test" .int [.eb, .gb] .read).setting statusFlags,
    (entry "test" .int [.ev, .gv] .read).setting statusFlags,
    entry "xchg" .int [.eb, .gb] .exchange,
    entry "xchg" .int [.ev, .gv] .exchange,
    entry "mov" .int [.eb, .gb] .write,
    entry "mov" .int [.ev, .gv] .write,
    entry "mov" .int [.gb, .eb] .write,
    entry "mov" .int [.gv, .ev] .write,
    entry "mov" .int [.ev, .sw] .write,
    entry "lea" .int [.gv, .m] .write,
    entry "mov" .int [.sw, .ew] .write,
    (groupEntry .g1a [.ev] .write).marked .wideDefault ]

def oneByteRow9 : List OpcodeSpec :=
  [entry "nop" .nop [] .untouched] ++
  List.replicate 7 (entry "xchg" .int [.zv, .ax] .exchange) ++
  [ (entry "cwde" .int [] .read).reading [.ax] |>.writing [.ax],
    (entry "cdq" .int [] .read).reading [.ax] |>.writing [.dx],
    (entry "callf" .call [.ap] .read).reading [.sp] |>.writing [.sp] |>.marked .only32,
    entry "fwait" .float [] .untouched,
    (stackEntry "pushf").testing allFlags |>.marked .wideDefault,
    (stackEntry "popf").setting allFlags |>.marked .wideDefault,
    (entry "sahf" .int [] .read).reading [.ax] |>.setting lowFlags,
    (entry "lahf" .int [] .read).reading [.ax] |>.writing [.ax] |>.testing lowFlags ]

def oneByteRowA : List OpcodeSpec :=
  [ entry "mov" .int [.al, .ob] .write,
    entry "mov" .int [.ax, .ov] .write,
    entry "mov" .int [.ob, .al] .write,
    entry "mov" .int [.ov, .ax] .write,
    stringEntry "movsb" [.si, .di] [.si, .di],
    stringEntry "movsd" [.si, .di] [.si, .di],
    (stringEntry "cmpsb" [.si, .di] [.si, .di]).setting statusFlags,
    (stringEntry "cmpsd" [.si, .di] [.si, .di]).setting statusFlags,
    (entry "test" .int [.al, .ib] .read).setting statusFlags,
    (entry "test" .int [.ax, .iz] .read).setting statusFlags,
    stringEntry "stosb" [.ax, .di] [.di],
    stringEntry "stosd" [.ax, .di] [.di],
    stringEntry "lodsb" [.ax, .si] [.ax, .si],
    stringEntry "lodsd" [.si] [.ax, .si],
    (stringEntry "scasb" [.ax, .di] [.di]).setting statusFlags,
    (stringEntry "scasd" [.ax, .di] [.di]).setting statusFlags ]

def oneByteRowB : List OpcodeSpec :=
  List.replicate 8 (entry "mov" .int [.zb, .ib] .write) ++
  List.replicate 8 (entry "mov" .int [.zv, .iv] .write)

def oneByteRowC : List OpcodeSpec :=
  [ groupEntry .g2 [.eb, .ib] .update,
    groupEntry .g2 [.ev, .ib] .update,
    (branchEntry "ret" .return [.iw]).reading [.sp] |>.writing [.sp],
    (branchEntry "ret" .return []).reading [.sp] |>.writing [.sp],
    (entry "les" .int [.gv, .m] .write).marked .only32,
    (entry "lds" .int [.gv, .m] .write).marked .only32,
    groupEntry .g11 [.eb, .ib] .write,
    groupEntry .g11 [.ev, .iz] .write,
    (entry "enter" .int [.iw, .ib] .read).reading [.sp, .bp] |>.writing [.sp, .bp],
    (entry "leave" .int [] .read).reading [.bp] |>.writing [.sp, .bp] |>.marked .wideDefault,
    (entry "retf" .return [.iw] .read).reading [.sp] |>.writing [.sp],
    (entry "retf" .return [] .read).reading [.sp] |>.writing [.sp],
    entry "int3" .trap [] .untouched,
    (entry "int" .syscall [.ib] .read).reading [.ax, .bx, .cx, .dx, .si, .di, .bp]
      |>.writing [.ax],
    (entry "into" .trap [] .untouched).testing (RegSet.ofFlags [.overflow]) |>.marked .only32,
    (entry "iret" .return [] .read).reading [.sp] |>.writing [.sp] |>.setting allFlags ]

def oneByteRowD : List OpcodeSpec :=
  [ groupEntry .g2 [.eb, .one] .update,
    groupEntry .g2 [.ev, .one] .update,
    (groupEntry .g2 [.eb, .cl] .update).testing statusFlags,
    (groupEntry .g2 [.ev, .cl] .update).testing statusFlags,
    (entry "aam" .int [.ib] .read).reading [.ax] |>.writing [.ax] |>.setting statusFlags
      |>.marked .only32,
    (entry "aad" .int [.ib] .read).reading [.ax] |>.writing [.ax] |>.setting statusFlags
      |>.marked .only32,
    undefined,
    (entry "xlat" .int [] .read).reading [.ax, .bx] |>.writing [.ax] ] ++
  List.replicate 8 undefined

def oneByteRowE : List OpcodeSpec :=
  [ (branchEntry "loopne" .condBranch [.jb]).reading [.cx] |>.writing [.cx]
      |>.testing (RegSet.ofFlags [.zero]),
    (branchEntry "loope" .condBranch [.jb]).reading [.cx] |>.writing [.cx]
      |>.testing (RegSet.ofFlags [.zero]),
    (branchEntry "loop" .condBranch [.jb]).reading [.cx] |>.writing [.cx],
    (branchEntry "jecxz" .condBranch [.jb]).reading [.cx],
    entry "in" .unknown [.al, .ib] .write,
    entry "in" .unknown [.ax, .ib] .write,
    entry "out" .unknown [.ib, .al] .read,
    entry "out" .unknown [.ib, .ax] .read,
    (branchEntry "call" .call [.jz]).reading [.sp] |>.writing [.sp],
    branchEntry "jmp" .uncondBranch [.jz],
    (entry "jmpf" .uncondBranch [.ap] .read).marked .only32,
    branchEntry "jmp" .uncondBranch [.jb],
    entry "in" .unknown [.al, .dx] .write,
    entry "in" .unknown [.ax, .dx] .write,
    entry "out" .unknown [.dx, .al] .read,
    entry "out" .unknown [.dx, .ax] .read ]

def oneByteRowF : List OpcodeSpec :=
  [ undefined,
    entry "int1" .trap [] .untouched,
    undefined, undefined,
    entry "hlt" .halt [] .untouched,
    (entry "cmc" .int [] .untouched).testing (RegSet.ofFlags [.carry])
      |>.setting (RegSet.ofFlags [.carry]),
    groupEntry .g3b [.eb] .update,
    groupEntry .g3v [.ev] .update,
    (entry "clc" .int [] .untouched).setting (RegSet.ofFlags [.carry]),
    (entry "stc" .int [] .untouched).setting (RegSet.ofFlags [.carry]),
    (entry "cli" .unknown [] .untouched).setting (RegSet.ofFlags [.interrupt]),
    (entry "sti" .unknown [] .untouched).setting (RegSet.ofFlags [.interrupt]),
    (entry "cld" .int [] .untouched).setting (RegSet.ofFlags [.direction]),
    (entry "std" .int [] .untouched).setting (RegSet.ofFlags [.direction]),
    groupEntry .g4 [.eb] .update,
    groupEntry .g5 [.ev] .update ]

def oneByteMap : Array OpcodeSpec :=
  (oneByteRow0 ++ oneByteRow1 ++ oneByteRow2 ++ oneByteRow3 ++
    oneByteRow4 ++ oneByteRow5 ++ oneByteRow6 ++ oneByteRow7 ++
    oneByteRow8 ++ oneByteRow9 ++ oneByteRowA ++ oneByteRowB ++
    oneByteRowC ++ oneByteRowD ++ oneByteRowE ++ oneByteRowF).toArray

def oneByte (opcode : Nat) : OpcodeSpec := oneByteMap[opcode]?.getD undefined

end BinTrace.Opcode
