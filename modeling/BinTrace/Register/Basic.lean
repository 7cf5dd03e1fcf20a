import BinTrace.Register.Gpr

/-!
Register operands: a class of registers and a number within it. A name exists for the numbers
that the class has; `?` stands for the others.
-/

namespace BinTrace

inductive RegisterClass
  | byte
  | highByte
  | word
  | dword
  | qword
  | segment
  | mmx
  | xmm
  deriving DecidableEq

structure Register where
  kind : RegisterClass
  number : Nat
  deriving DecidableEq

namespace Register

def qword (r : Gpr) : Register := ⟨.qword, r.index⟩

def dword (r : Gpr) : Register := ⟨.dword, r.index⟩

/-- The class of general purpose registers of a size in bytes. -/
def classOfSize : Nat → RegisterClass
  | 1 => .byte
  | 2 => .word
  | 4 => .dword
  | _ => .qword

/-- The part of a general purpose register that has the given size in bytes. -/
def ofGpr (r : Gpr) (size : Nat) : Register :=
  ⟨classOfSize size, r.index⟩

/-- The general purpose register that holds the operand; `ah` to `bh` lie in the first four. -/
def gpr? (r : Register) : Option Gpr :=
  match r.kind with
  | .byte | .highByte | .word | .dword | .qword => Gpr.ofIndex? r.number
  | .segment | .mmx | .xmm => none

/-- Size in bytes. -/
def size (r : Register) : Nat :=
  match r.kind with
  | .byte | .highByte => 1
  | .word | .segment => 2
  | .dword => 4
  | .qword | .mmx => 8
  | .xmm => 16

/-- Writing the operand keeps a part of the register that holds it. -/
def isPartial (r : Register) : Bool :=
  match r.kind with
  | .byte | .highByte | .word => true
  | _ => false

def names : RegisterClass → List String
  | .qword => ["rax", "rcx", "rdx", "rbx", "rsp", "rbp", "rsi", "rdi",
      "r8", "r9", "r10", "r11", "r12", "r13", "r14", "r15"]
  | .dword => ["eax", "ecx", "edx", "ebx", "esp", "ebp", "esi", "edi",
      "r8d", "r9d", "r10d", "r11d", "r12d", "r13d", "r14d", "r15d"]
  | .word => ["ax", "cx", "dx", "bx", "sp", "bp", "si", "di",
      "r8w", "r9w", "r10w", "r11w", "r12w", "r13w", "r14w", "r15w"]
  | .byte => ["al", "cl", "dl", "bl", "spl", "bpl", "sil", "dil",
      "r8b", "r9b", "r10b", "r11b", "r12b", "r13b", "r14b", "r15b"]
  | .highByte => ["ah", "ch", "dh", "bh"]
  | .segment => ["es", "cs", "ss", "ds", "fs", "gs", "?s6", "?s7"]
  | .mmx => (List.range 8).map fun n => "mm" ++ toString n
  | .xmm => (List.range 32).map fun n => "xmm" ++ toString n

def name (r : Register) : String :=
  ((names r.kind)[r.number]?).getD "?"

end Register

end BinTrace
