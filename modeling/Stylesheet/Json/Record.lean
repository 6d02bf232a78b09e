import Stylesheet.Json.Basic

/-!
# Records

A record has named fields. It is written as an object, or as an array that gives the fields in
their order and may leave out the last ones. An object may have further entries, which are not
looked at, but it may not give a field of the record twice. An array may not be too long.
-/

namespace Stylesheet.Json

/-- The fields of a record that a value gives, of those that the record has. -/
def fields? (names : List String) : Json → Option (List (String × Json))
  | .object entries =>
    let given := entries.filter fun entry => names.contains entry.1
    if (given.map Prod.fst).Nodup then some given else none
  | .array items => if items.length ≤ names.length then some (names.zip items) else none
  | _ => none

/-- A truth value. -/
def bool? : Json → Option Bool
  | .bool b => some b
  | _ => none

/-- A text. -/
def string? : Json → Option String
  | .string s => some s
  | _ => none

/-- A natural number of at most 64 bits. -/
def word? : Json → Option Nat
  | .natural n => if n < UInt64.size then some n else none
  | _ => none

/-- The items of an array. -/
def array? : Json → Option (List Json)
  | .array items => some items
  | _ => none

/-- A field that may be left out. -/
def fieldOr? {α : Type} (fields : List (String × Json)) (name : String) (absent : α)
    (read : Json → Option α) : Option α :=
  match fields.lookup name with
  | none => some absent
  | some json => read json

end Stylesheet.Json
