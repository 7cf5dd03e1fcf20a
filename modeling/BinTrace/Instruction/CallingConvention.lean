import BinTrace.Instruction.Basic

/-!
Which registers and flags calls and returns read and write on behalf of the code that they leave
for: arguments and results, and what a callee may change.
-/

namespace BinTrace.CallingConvention

/-- What a call may read. -/
def callUses : Width → RegSet
  | .bits64 => RegSet.ofGprs [.ax, .cx, .dx, .sp, .si, .di, .r8, .r9]
  | .bits32 => RegSet.ofGprs [.ax, .cx, .dx, .sp]

/-- What a call may change. -/
def callDefs : Width → RegSet
  | .bits64 =>
    RegSet.ofGprs [.ax, .cx, .dx, .sp, .si, .di, .r8, .r9, .r10, .r11] ∪ RegSet.statusFlags
  | .bits32 => RegSet.ofGprs [.ax, .cx, .dx, .sp] ∪ RegSet.statusFlags

/-- What the caller may read after a return: results, and registers that a callee preserves. -/
def returnUses : Width → RegSet
  | .bits64 => RegSet.ofGprs [.ax, .dx, .bx, .bp, .r12, .r13, .r14, .r15]
  | .bits32 => RegSet.ofGprs [.ax, .dx, .bx, .bp, .si, .di]

/-- The reads that belong to an instruction because of its class. -/
def uses (w : Width) : OpcodeClass → RegSet
  | .call => callUses w
  | .return => returnUses w
  | _ => ∅

/-- The writes that belong to an instruction because of its class. -/
def defs (w : Width) : OpcodeClass → RegSet
  | .call => callDefs w
  | _ => ∅

end BinTrace.CallingConvention
