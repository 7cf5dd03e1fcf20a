import BinTrace.Csv
import BinTrace.Simulation.Context
import BinTrace.Text.Blank
import BinTrace.Text.Number

/-!
Written traces: one reference in a record, which begins with the number of a block and an address.
All records have as many fields as the first one.
-/

namespace BinTrace.Simulation

/-- A number below `bound`, in decimal digits or, after the mark `0x`, in hexadecimal ones. A plus
sign may stand in front of the digits. -/
def word? (bound : Nat) (field : List Char) : Option Nat :=
  match field with
  | '0' :: 'x' :: '+' :: digits | '0' :: 'x' :: digits =>
    (Text.ofHexDigits? digits).filter fun n => n < bound
  | _ => Text.natural? bound field

def reference? (width : Nat) (fields : List (List Char)) : Option Reference :=
  match fields with
  | block :: address :: _ =>
    if fields.length = width then do
      return ⟨← word? (2 ^ 32) (Text.trim block), ← word? (2 ^ 64) (Text.trim address)⟩
    else none
  | _ => none

/-- A record of a trace that is no reference, by its number. -/
structure BadRecord where
  number : Nat
  deriving DecidableEq

/-- The references of a text up to the first bad record. -/
def readTrace (s : List Char) : Except BadRecord (List Reference) :=
  let records := Csv.records s
  let width := (records.head?.map List.length).getD 0
  (records.zipIdx 1).mapM fun (fields, number) =>
    match reference? width fields with
    | some r => .ok r
    | none => .error ⟨number⟩

end BinTrace.Simulation
