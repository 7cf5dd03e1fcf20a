import BinTrace.Json.Value

/-!
Records with named fields in JSON documents. A record may be an object with its fields in any order,
or a list of their values in the order of the record. Fields that are left out have defaults.
-/

namespace BinTrace.JsonValue

/-- The fields of a record that a value gives. An object may have other fields as well, but none of
the record twice; a list may end early, but not go on. -/
def fields? (names : List String) : JsonValue → Option (List (String × JsonValue))
  | array items => if items.length ≤ names.length then some (names.zip items) else none
  | object fields => do
    let fields ← fields.mapM fun (codes, v) => (textOf? codes).map fun name => (name, v)
    let known := fields.filter fun (name, _) => names.contains name
    if (known.map Prod.fst).Nodup then some known else none
  | _ => none

/-- The field of a name, which has to be readable, or what stands for a field that is left out. -/
def fieldOr {α : Type} (fields : List (String × JsonValue)) (name : String)
    (read : JsonValue → Option α) (default : α) : Option α :=
  match fields.lookup name with
  | some v => read v
  | none => some default

def bool? : JsonValue → Option Bool
  | bool b => some b
  | _ => none

/-- A number of 64 bits that is written without sign, point and exponent. -/
def word? : JsonValue → Option Nat
  | number n => n.natural? (2 ^ 64)
  | _ => none

def double? : JsonValue → Option Float
  | number n => n.double?
  | _ => none

/-- A value that may be null. -/
def optional? {α : Type} (read : JsonValue → Option α) : JsonValue → Option (Option α)
  | null => some none
  | v => (read v).map some

end BinTrace.JsonValue
