/-!
# JSON values

Trees and options are exchanged as JSON. The only numbers that they use are natural numbers, so a
number that is written in another way is kept as its literal. The entries of an object stay in the
order in which they were written, and a repeated key stays repeated: whether that is a fault is for
the reader of the object to decide.

A text can be well formed and stand for nothing nevertheless. Such a part is kept as `invalid`, since
it does no harm in a place that is not looked at.
-/

namespace Stylesheet

/-- A JSON value. -/
inductive Json where
  | null
  | bool (b : Bool)
  /-- A number of at most 64 bits, written with digits only. -/
  | natural (n : Nat)
  /-- Any other number, as it was written. -/
  | number (literal : String)
  | string (s : String)
  /-- A number out of range, a string with half of a surrogate pair, or an object with such a
  key. -/
  | invalid
  | array (items : List Json)
  | object (entries : List (String × Json))

namespace Json

mutual

/-- How many arrays and objects are nested in a value. -/
def depth : Json → Nat
  | .array items => depths items + 1
  | .object entries => entryDepths entries + 1
  | _ => 0

/-- The greatest depth of some values. -/
def depths : List Json → Nat
  | [] => 0
  | item :: items => max (depth item) (depths items)

/-- The greatest depth of the values of some entries. -/
def entryDepths : List (String × Json) → Nat
  | [] => 0
  | (_, value) :: entries => max (depth value) (entryDepths entries)

end

mutual

/-- Whether no part of a value is invalid. -/
def isValid : Json → Bool
  | .invalid => false
  | .array items => areValid items
  | .object entries => entriesAreValid entries
  | _ => true

/-- Whether no part of some values is invalid. -/
def areValid : List Json → Bool
  | [] => true
  | item :: items => isValid item && areValid items

/-- Whether no part of the values of some entries is invalid. -/
def entriesAreValid : List (String × Json) → Bool
  | [] => true
  | (_, value) :: entries => isValid value && entriesAreValid entries

end

/-- The value of the first entry with a key. -/
def get? (key : String) : Json → Option Json
  | .object entries => entries.lookup key
  | _ => none

end Json

end Stylesheet
