import BinTrace.Decode.Basic
import BinTrace.Instruction.Retarget

/-!
Why a function cannot be taken apart, checked or changed.
-/

namespace BinTrace

inductive LayoutFault
  | emptyBlock (block : Nat)
  | misplacedInstruction (block : Nat) (address expected : Nat)
  | manyTransfers (address : Nat) (count : Nat)
  | earlyTransfer (address : Nat)
  | strayInstruction (address base stop : Nat)
  | misplacedBlock (address expected : Nat)
  | uncovered (base stop : Nat) (size : Nat)
  | unmatchedEdge (source target : Nat)
  deriving DecidableEq

namespace LayoutFault

def blockName (block : Nat) : String := "bb" ++ toString block

def message : LayoutFault → String
  | emptyBlock block => blockName block ++ " has no instructions"
  | misplacedInstruction block address expected =>
    blockName block ++ ": instruction at " ++ Text.hex address ++ " expected at " ++
      Text.hex expected
  | manyTransfers address count =>
    "Block at " ++ Text.hex address ++ " should only have 1 branch (" ++ toString count ++
      " found)"
  | earlyTransfer address =>
    "Block at " ++ Text.hex address ++ " has a control transfer before its end"
  | strayInstruction address base stop =>
    "instruction at " ++ Text.hex address ++ " lies outside function " ++ Text.hex base ++ ".." ++
      Text.hex stop
  | misplacedBlock address expected =>
    "block at " ++ Text.hex address ++ " expected at " ++ Text.hex expected
  | uncovered base stop size =>
    "blocks cover " ++ Text.hex base ++ ".." ++ Text.hex stop ++ ", function is " ++
      toString size ++ " bytes"
  | unmatchedEdge source target =>
    "edge " ++ blockName source ++ " -> " ++ blockName target ++ " has no matching predecessor"

end LayoutFault

inductive SwapFault
  | notDigested
  | noBlock (address : Nat)
  | splitsInstruction (address : Nat)
  | noRoom (available : Nat) (address : Nat) (needed : Nat)
  deriving DecidableEq

def SwapFault.message (function : String) : SwapFault → String
  | notDigested => function ++ " is not digested"
  | noBlock address => function ++ ": no block holds " ++ Text.hex address
  | splitsInstruction address => function ++ ": " ++ Text.hex address ++ " splits an instruction"
  | noRoom available address needed =>
    function ++ ": only " ++ toString available ++ " bytes available at " ++ Text.hex address ++
      ", " ++ toString needed ++ " needed"

inductive DisassemblyError
  /-- The file is no program that can be read. -/
  | malformedFile
  | decode (e : DecodeError)
  /-- Control reaches the middle of an instruction. -/
  | overlap (address : Nat)
  | duplicateAddress (address : Nat)
  /-- The program is for a machine that the decoder does not know. -/
  | unsupportedArchitecture
  | layout (fault : LayoutFault)
  | encode (e : EncodeError)
  | swap (function : String) (fault : SwapFault)
  deriving DecidableEq

namespace DisassemblyError

def kind : DisassemblyError → String
  | malformedFile => "ParsingError"
  | decode _ => "Decode"
  | overlap _ => "Overlap"
  | duplicateAddress _ => "DuplicateAddress"
  | unsupportedArchitecture => "UnsupportedArchitecture"
  | layout _ => "Verify"
  | encode _ => "Encode"
  | swap .. => "Generic"

def message : DisassemblyError → String
  | malformedFile => "Failed to parse binary format"
  | decode e => "Decoder error: " ++ e.message
  | overlap address =>
    "Control flow reaches " ++ Text.hex address ++ " in the middle of an instruction"
  | duplicateAddress address => "Duplicate instruction at " ++ Text.hex address
  | unsupportedArchitecture => "Unsupported architecture: Unknown"
  | layout fault => "Verification failed: " ++ fault.message
  | encode e => "Encoder error: " ++ e.message
  | swap function fault => fault.message function

def address? : DisassemblyError → Option Nat
  | decode e => some e.address
  | overlap address | duplicateAddress address => some address
  | _ => none

end DisassemblyError

end BinTrace
