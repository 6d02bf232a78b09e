import Stylesheet.Text.Numeral

/-!
# Values

A value is literal text with references to variables between it. Two texts next to each other and
empty texts do not come up in values that were read.

References are written `@name` in the value of a declaration, and `@{name}` (a hole) in the text of
a selector. Either way the reference keeps the name with its at-sign, which is how variables are
named.
-/

namespace Stylesheet

/-- A piece of a value. -/
inductive Part where
  | text (s : String)
  /-- A variable, named with its at-sign. -/
  | reference (name : String)
deriving DecidableEq, Repr

/-- The piece as it was written. -/
def Part.source : Part → String
  | .text s => s
  | .reference name => name

/-- The text of a piece once its reference is looked up. -/
def Part.fill {m : Type → Type} [Monad m] (lookup : String → m String) : Part → m String
  | .text s => pure s
  | .reference name => lookup name

/-- What a declaration assigns. -/
structure Value where
  parts : List Part := []
deriving DecidableEq, Repr

namespace Value

/-- The value of a text that refers to no variable. -/
def literal (text : String) : Value :=
  if text.isEmpty then {} else { parts := [.text text] }

/-- The value as it was written. -/
def text (v : Value) : String := String.join (v.parts.map Part.source)

/-- Whether a value refers to no variable. -/
def isResolved (v : Value) : Bool :=
  v.parts.all fun
    | .text _ => true
    | .reference _ => false

/-- The text of a value once its references are looked up, from left to right. -/
def fillText {m : Type → Type} [Monad m] (lookup : String → m String) (v : Value) : m String := do
  return String.join (← v.parts.mapM (Part.fill lookup))

/-- The value with the text of its references in their place. A value without references stays
as it is. -/
def fill {m : Type → Type} [Monad m] (lookup : String → m String) (v : Value) : m Value := do
  if v.isResolved then return v else return literal (← v.fillText lookup)

/-- Several values with a space between each two, as one literal text. -/
def join (values : List Value) : Value :=
  literal (" ".intercalate (values.map text))

end Value

end Stylesheet
