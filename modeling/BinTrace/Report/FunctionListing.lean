import BinTrace.Csv
import BinTrace.Function.Basic
import BinTrace.Json.Printer
import BinTrace.Report.Format

/-!
Writing a digested function: as a listing of its blocks, as a JSON document, and as a table with
one row for each instruction.
-/

namespace BinTrace.FunctionListing

/-- Two digits a byte, with blanks between the bytes. -/
def spacedBytes (bytes : List UInt8) : String :=
  " ".intercalate (bytes.map fun b => Text.hexBytes [b])

def padRight (width : Nat) (s : String) : String :=
  s ++ String.ofList (List.replicate (width - s.length) ' ')

def blockTags (g : FlowGraph) (number : Nat) (b : Block) : List String :=
  [(b.flags.isEntry, "entry"), (b.flags.isExit, "exit"), (b.flags.isPadding, "padding"),
   (b.flags.isUnreachable, "unreachable"),
   (g.loops.any fun l => l.head = number, "loop head")].filterMap fun (holds, tag) =>
    if holds then some tag else none

def blockHeader (g : FlowGraph) (number : Nat) (b : Block) : String :=
  let tags := blockTags g number b
  LayoutFault.blockName number ++ " " ++ Text.hex b.address ++ " (" ++ toString b.size ++
    " bytes)" ++ if tags.isEmpty then "" else " [" ++ ", ".intercalate tags ++ "]"

def instructionLine (i : Instruction) : String :=
  "  0x" ++ Text.paddedHexDigits 8 i.address ++ ": " ++ padRight 40 i.text ++ " ; " ++
    spacedBytes i.bytes ++ "\n"

def successorLine (b : Block) : String :=
  if b.succs.isEmpty then "  no successors\n"
  else "  successors: " ++ ", ".intercalate (b.succs.map LayoutFault.blockName) ++ "\n"

def blockText (g : FlowGraph) (number : Nat) (b : Block) : String :=
  blockHeader g number b ++ "\n" ++ String.join (b.instructions.map instructionLine) ++
    successorLine b ++ "\n"

def rawText (r : RawBlock) : String :=
  "raw " ++ Text.hex r.address ++ " (" ++ toString r.bytes.length ++ " bytes)\n  ; " ++
    spacedBytes r.bytes ++ "\n\n"

/-- The texts of the pieces in their order; `number` is that of the next block. -/
def piecesText (g : FlowGraph) (number : Nat) : List Piece → String
  | [] => ""
  | .code b :: rest => blockText g number b ++ piecesText g (number + 1) rest
  | .raw r :: rest => rawText r ++ piecesText g number rest

def strategyName (f : Function) : String := (f.strategy.map Strategy.name).getD ""

def text (f : Function) (g : FlowGraph) : String :=
  f.name ++ " at " ++ Text.hex f.base ++ " (" ++ toString f.size ++ " bytes, " ++
    toString g.blocks.length ++ " blocks, " ++ toString g.loops.length ++ " loops, " ++
    strategyName f ++ ")\n\n" ++ piecesText g 0 g.pieces

open JsonValue (record ofString ofNat)

def instructionJson (i : Instruction) : JsonValue :=
  record [
    ("address", ofString (Text.hex i.address)),
    ("size", ofNat i.size),
    ("text", ofString i.text),
    ("bytes", ofString (spacedBytes i.bytes))]

def blockJson (number : Nat) (b : Block) : JsonValue :=
  record [
    ("id", ofNat number),
    ("start", ofString (Text.hex b.address)),
    ("entry", .bool b.flags.isEntry),
    ("exit", .bool b.flags.isExit),
    ("instructions", .array (b.instructions.map instructionJson)),
    ("successors", .array (b.succs.map ofNat))]

def rawJson (r : RawBlock) : JsonValue :=
  record [("start", ofString (Text.hex r.address)), ("bytes", ofString (Text.hexBytes r.bytes))]

def loopJson (l : Loop) : JsonValue :=
  record [("head", ofNat l.head), ("blocks", .array (l.blocks.map ofNat))]

/-- A field that is left out when its list is empty. -/
def optionalList (name : String) (items : List JsonValue) : List (String × JsonValue) :=
  if items.isEmpty then [] else [(name, .array items)]

def json (f : Function) (g : FlowGraph) : JsonValue :=
  record <| [
    ("name", ofString f.name),
    ("base", ofString (Text.hex f.base)),
    ("size", ofNat f.size),
    ("strategy", (f.strategy.map fun s => ofString s.name).getD .null),
    ("blocks", .array (g.blocks.zipIdx.map fun (b, n) => blockJson n b))] ++
    optionalList "raw" (g.rawBlocks.map rawJson) ++
    optionalList "loops" (g.loops.map loopJson)

def instructionRecord (f : Function) (number : Nat) (i : Instruction) : String :=
  Csv.record [f.name, LayoutFault.blockName number, Text.hex i.address, toString i.size, i.text,
    spacedBytes i.bytes]

def csv (f : Function) (g : FlowGraph) : String :=
  Csv.record ["function", "block", "address", "size", "instruction", "bytes"] ++
    String.join (g.blocks.zipIdx.flatMap fun (b, n) =>
      b.instructions.map (instructionRecord f n))

end FunctionListing

/-- A function that has not been digested has nothing to write. -/
structure NotDigested where
  function : String

def NotDigested.message (e : NotDigested) : String := e.function ++ " has not been digested"

/-- The function in one of the forms. -/
def Function.write (f : Function) (format : ReportFormat) : Except NotDigested String :=
  match f.graph with
  | none => .error ⟨f.name⟩
  | some g =>
    .ok <| match format with
      | .text => FunctionListing.text f g
      | .json => (FunctionListing.json f g).pretty
      | .csv => FunctionListing.csv f g

end BinTrace
