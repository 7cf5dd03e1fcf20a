import BinTrace.Opcode.OneByte

/-!
The map of opcodes behind the byte `0f`, in rows of sixteen. Most of it is vector operations, whose
names a prefix chooses. The escapes to the longer maps are read before the map is asked.
-/

namespace BinTrace.Opcode

open OpcodeSpec (undefined)
open RegSet (statusFlags allFlags)

/-- A vector operation with a name that its prefix chooses. -/
def vectorEntry (operands : List Template) (access : Access) : OpcodeSpec :=
  (entry "simd" .simd operands access).marked .namedByPrefix

def vectorUpdate : OpcodeSpec := vectorEntry [.vx, .wx] .update

def twoByteRow0 : List OpcodeSpec :=
  [ (entry "" .unknown [.ew] .read).grouped .g6,
    (entry "" .unknown [.ev] .read).grouped .g7,
    (entry "lar" .unknown [.gv, .ew] .write).setting (RegSet.ofFlags [.zero]),
    (entry "lsl" .unknown [.gv, .ew] .write).setting (RegSet.ofFlags [.zero]),
    undefined,
    (entry "syscall" .syscall [] .read).reading [.ax, .di, .si, .dx, .r10, .r8, .r9]
      |>.writing [.ax, .cx, .r11],
    entry "clts" .unknown [] .untouched,
    (entry "sysret" .return [] .read).reading [.cx, .r11] |>.setting allFlags,
    entry "invd" .unknown [] .untouched,
    entry "wbinvd" .unknown [] .untouched,
    undefined,
    entry "ud2" .trap [] .untouched,
    undefined,
    entry "prefetchw" .int [.m] .untouched,
    entry "femms" .simd [] .untouched,
    undefined ]

def twoByteRow1 : List OpcodeSpec :=
  [ vectorUpdate,
    vectorEntry [.wx, .vx] .write,
    vectorUpdate,
    vectorEntry [.wx, .vx] .write,
    vectorUpdate, vectorUpdate, vectorUpdate,
    vectorEntry [.wx, .vx] .write,
    (entry "" .int [.m] .untouched).grouped .g16 ] ++
  List.replicate 7 (entry "nop" .nop [.ev] .untouched)

/-- A move to or from a control or debug register. -/
def controlMove (operands : List Template) (access : Access) : OpcodeSpec :=
  (entry "mov" .unknown operands access).marked .registerForm |>.marked .wideAlways

def twoByteRow2 : List OpcodeSpec :=
  [ controlMove [.ey, .gy] .write,
    controlMove [.ey, .gy] .write,
    controlMove [.gy, .ey] .read,
    controlMove [.gy, .ey] .read,
    undefined, undefined, undefined, undefined,
    vectorEntry [.vx, .wx] .write,
    vectorEntry [.wx, .vx] .write,
    vectorEntry [.vx, .ey] .update,
    vectorEntry [.wx, .vx] .write,
    vectorEntry [.gy, .wx] .write,
    vectorEntry [.gy, .wx] .write,
    (vectorEntry [.vx, .wx] .read).setting statusFlags,
    (vectorEntry [.vx, .wx] .read).setting statusFlags ]

def twoByteRow3 : List OpcodeSpec :=
  [ (entry "wrmsr" .unknown [] .untouched).reading [.ax, .cx, .dx],
    (entry "rdtsc" .unknown [] .untouched).writing [.ax, .dx],
    (entry "rdmsr" .unknown [] .untouched).reading [.cx] |>.writing [.ax, .dx],
    (entry "rdpmc" .unknown [] .untouched).reading [.cx] |>.writing [.ax, .dx],
    (entry "sysenter" .syscall [] .read).reading [.ax, .bx, .cx, .dx, .si, .di, .bp]
      |>.writing [.ax],
    (entry "sysexit" .return [] .read).reading [.cx, .dx],
    undefined,
    (entry "getsec" .unknown [] .untouched).reading [.ax, .bx] |>.writing [.ax, .bx, .cx, .dx] ] ++
  List.replicate 8 undefined

def twoByteRow4 : List OpcodeSpec :=
  conditionRow fun code => entry ("cmov" ++ Condition.suffix code) .int [.gv, .ev] .update

def twoByteRow5 : List OpcodeSpec :=
  vectorEntry [.gy, .wx] .write :: List.replicate 15 vectorUpdate

def twoByteRow6 : List OpcodeSpec :=
  List.replicate 14 vectorUpdate ++ [vectorEntry [.vx, .ey] .write, vectorEntry [.vx, .wx] .write]

def twoByteRow7 : List OpcodeSpec :=
  [ vectorEntry [.vx, .wx, .ib] .write,
    (entry "" .simd [.wx, .ib] .update).grouped .g12,
    (entry "" .simd [.wx, .ib] .update).grouped .g12,
    (entry "" .simd [.wx, .ib] .update).grouped .g12,
    vectorUpdate, vectorUpdate, vectorUpdate,
    entry "emms" .simd [] .untouched,
    (entry "vmread" .unknown [.ey, .gy] .write).marked .wideAlways,
    (entry "vmwrite" .unknown [.gy, .ey] .read).marked .wideAlways,
    undefined, undefined,
    vectorUpdate, vectorUpdate,
    vectorEntry [.ey, .vx] .write,
    vectorEntry [.wx, .vx] .write ]

def twoByteRow8 : List OpcodeSpec :=
  conditionRow fun code => branchEntry (Condition.jumpMnemonic code) .condBranch [.jz]

def twoByteRow9 : List OpcodeSpec :=
  conditionRow fun code => entry ("set" ++ Condition.suffix code) .int [.eb] .write

def twoByteRowA : List OpcodeSpec :=
  [ (stackEntry "push").marked .wideDefault,
    (stackEntry "pop").marked .wideDefault,
    (entry "cpuid" .unknown [] .untouched).reading [.ax, .cx] |>.writing [.ax, .bx, .cx, .dx],
    (entry "bt" .int [.ev, .gv] .read).setting statusFlags,
    (entry "shld" .int [.ev, .gv, .ib] .update).setting statusFlags,
    (entry "shld" .int [.ev, .gv, .cl] .update).setting statusFlags |>.testing statusFlags,
    undefined, undefined,
    (stackEntry "push").marked .wideDefault,
    (stackEntry "pop").marked .wideDefault,
    (entry "rsm" .unknown [] .untouched).setting allFlags,
    (entry "bts" .int [.ev, .gv] .update).setting statusFlags,
    (entry "shrd" .int [.ev, .gv, .ib] .update).setting statusFlags,
    (entry "shrd" .int [.ev, .gv, .cl] .update).setting statusFlags |>.testing statusFlags,
    (entry "" .unknown [.m] .read).grouped .g15,
    (entry "imul" .int [.gv, .ev] .update).setting statusFlags ]

def twoByteRowB : List OpcodeSpec :=
  [ (entry "cmpxchg" .int [.eb, .gb] .update).reading [.ax] |>.writing [.ax]
      |>.setting statusFlags,
    (entry "cmpxchg" .int [.ev, .gv] .update).reading [.ax] |>.writing [.ax]
      |>.setting statusFlags,
    entry "lss" .int [.gv, .m] .write,
    (entry "btr" .int [.ev, .gv] .update).setting statusFlags,
    entry "lfs" .int [.gv, .m] .write,
    entry "lgs" .int [.gv, .m] .write,
    entry "movzx" .int [.gv, .eb] .write,
    entry "movzx" .int [.gv, .ew] .write,
    (entry "popcnt" .int [.gv, .ev] .write).setting statusFlags,
    entry "ud1" .trap [.gv, .ev] .untouched,
    groupEntry .g8 [.ev, .ib] .update,
    (entry "btc" .int [.ev, .gv] .update).setting statusFlags,
    (entry "bsf" .int [.gv, .ev] .update).setting statusFlags,
    (entry "bsr" .int [.gv, .ev] .update).setting statusFlags,
    entry "movsx" .int [.gv, .eb] .write,
    entry "movsx" .int [.gv, .ew] .write ]

def twoByteRowC : List OpcodeSpec :=
  [ (entry "xadd" .int [.eb, .gb] .exchange).setting statusFlags,
    (entry "xadd" .int [.ev, .gv] .exchange).setting statusFlags,
    vectorEntry [.vx, .wx, .ib] .update,
    entry "movnti" .int [.m, .gy] .write,
    entry "pinsrw" .simd [.vx, .ey, .ib] .update,
    entry "pextrw" .simd [.gy, .wx, .ib] .write,
    vectorEntry [.vx, .wx, .ib] .update,
    groupEntry .g9 [.m] .update ] ++
  List.replicate 8 (entry "bswap" .int [.zv] .update)

def twoByteRowD : List OpcodeSpec :=
  List.replicate 6 vectorUpdate ++
  [vectorEntry [.wx, .vx] .write, entry "pmovmskb" .simd [.gy, .wx] .write] ++
  List.replicate 8 vectorUpdate

def twoByteRowE : List OpcodeSpec :=
  List.replicate 7 vectorUpdate ++ [vectorEntry [.m, .vx] .write] ++ List.replicate 8 vectorUpdate

def twoByteRowF : List OpcodeSpec :=
  List.replicate 7 vectorUpdate ++
  [(entry "maskmovq" .simd [.vx, .wx] .read).reading [.di]] ++
  List.replicate 7 vectorUpdate ++
  [entry "ud0" .trap [.gv, .ev] .untouched]

def twoByteMap : Array OpcodeSpec :=
  (twoByteRow0 ++ twoByteRow1 ++ twoByteRow2 ++ twoByteRow3 ++
    twoByteRow4 ++ twoByteRow5 ++ twoByteRow6 ++ twoByteRow7 ++
    twoByteRow8 ++ twoByteRow9 ++ twoByteRowA ++ twoByteRowB ++
    twoByteRowC ++ twoByteRowD ++ twoByteRowE ++ twoByteRowF).toArray

def twoByte (opcode : Nat) : OpcodeSpec := twoByteMap[opcode]?.getD undefined

end BinTrace.Opcode
