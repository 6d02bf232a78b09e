/-!
# Source positions

A span says where in a source file something was written. Trees built by hand carry the unknown
span, which has no file and stands at line and column zero.
-/

namespace Stylesheet

/-- A position in a source file. Line and column zero together mean that no position is known. -/
structure Span where
  file : Option String := none
  line : Nat := 0
  column : Nat := 0
deriving DecidableEq, Repr

namespace Span

/-- The span of something that was not read from a file. -/
def unknown : Span := {}

/-- Whether a line or a column is given. A file alone is not a position. -/
def isKnown (s : Span) : Bool := s.line != 0 || s.column != 0

/-- The text put in front of messages: file, line and column as far as they are known. -/
def text (s : Span) : String :=
  match s.file, s.isKnown with
  | some file, true => s!"{file}:{s.line}:{s.column}"
  | some file, false => file
  | none, true => s!"{s.line}:{s.column}"
  | none, false => "<unknown>"

@[simp] theorem isKnown_unknown : unknown.isKnown = false := rfl

@[simp] theorem text_unknown : unknown.text = "<unknown>" := rfl

end Span

end Stylesheet
