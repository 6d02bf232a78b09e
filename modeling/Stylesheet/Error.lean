import Stylesheet.Span

/-!
# Errors of reading and compiling

Each constructor of `Error` is a cause together with what its message needs. The wording is in
`Error.message` alone.
-/

namespace Stylesheet

/-- Why the content of an import is not available. -/
inductive ImportFault where
  /-- The table of sources has no entry for the path. -/
  | notFound
  /-- The path is being imported already. -/
  | recursive
deriving DecidableEq, Repr

/-- What is wrong with a selector. -/
inductive SelectorFault where
  /-- Two combinators stand in a row. -/
  | consecutiveCombinators
  /-- A comma stands in the text of one selector. -/
  | comma
  /-- The text ends with a combinator. -/
  | trailingCombinator
  /-- The text has no element. -/
  | empty
  /-- A bracket is not closed. -/
  | unbalanced
  /-- A selector without elements is to stand for a parent reference. -/
  | emptyParent
deriving DecidableEq, Repr

/-- A broken promise of the compiler to itself. -/
inductive Breach where
  /-- A mixin call was compiled as if it were an ordinary node. -/
  | unexpandedCall (selector : String)
  /-- Frames are still open at the end of a document. -/
  | framesLeft (count : Nat)
  /-- Rules are nested more deeply than the height of their tree. -/
  | nesting
deriving DecidableEq, Repr

/-- What can go wrong between reading a selector and printing a style sheet. -/
inductive Error where
  /-- No frame knows a mixin of that name. -/
  | mixinNotFound (selector : String) (span : Span)
  /-- No mixin of that name takes that number of arguments. -/
  | argumentMismatch (selector : String) (arity : Nat) (span : Span)
  /-- The content of an import is not available. -/
  | importFailed (path : String) (fault : ImportFault) (span : Span)
  /-- A text is not a selector. -/
  | selectorSyntax (selector : String) (fault : SelectorFault) (span : Span)
  /-- No frame defines the variable. -/
  | undefinedVariable (name : String) (span : Span)
  /-- The value of the variable needs the variable itself. -/
  | recursiveVariable (name : String) (span : Span)
  /-- Mixins are expanded inside each other beyond the limit. -/
  | mixinRecursion (selector : String) (limit : Nat) (span : Span)
  /-- The compiler broke a promise to itself. -/
  | internal (breach : Breach)
deriving DecidableEq, Repr

/-- The wording of an import fault. -/
def ImportFault.message : ImportFault → String
  | .notFound => "no source is registered for this path"
  | .recursive => "recursive import detected"

/-- The wording of a selector fault. -/
def SelectorFault.message : SelectorFault → String
  | .consecutiveCombinators => "consecutive combinators"
  | .comma => "unexpected `,` in a single selector"
  | .trailingCombinator => "trailing combinator"
  | .empty => "selector is empty"
  | .unbalanced => "unbalanced brackets"
  | .emptyParent => "parent selector has no elements"

/-- The wording of a breach. -/
def Breach.message : Breach → String
  | .unexpandedCall selector =>
    s!"mixin call `{selector}` reached node compilation without being expanded"
  | .framesLeft count => s!"{count} frame(s) left on the stack after compilation"
  | .nesting => "rules are nested more deeply than their tree"

namespace Error

/-- The position that an error points to. A breach points nowhere. -/
def span? : Error → Option Span
  | .mixinNotFound _ span | .argumentMismatch _ _ span | .importFailed _ _ span
  | .selectorSyntax _ _ span | .undefinedVariable _ span | .recursiveVariable _ span
  | .mixinRecursion _ _ span => some span
  | .internal _ => none

/-- The message of an error, which starts with its position where it has one. -/
def message : Error → String
  | .mixinNotFound selector span => s!"{span.text}: `{selector}` is undefined"
  | .argumentMismatch selector arity span =>
    s!"{span.text}: no matching definition was found for `{selector}` with {arity} argument(s)"
  | .importFailed path fault span =>
    s!"{span.text}: could not import `{path}`: {fault.message}"
  | .selectorSyntax selector fault span =>
    s!"{span.text}: invalid selector `{selector}`: {fault.message}"
  | .undefinedVariable name span => s!"{span.text}: variable {name} is undefined"
  | .recursiveVariable name span => s!"{span.text}: recursive variable definition for {name}"
  | .mixinRecursion selector limit span =>
    s!"{span.text}: `{selector}` expands mixins more than {limit} levels deep"
  | .internal breach => s!"internal invariant violated: {breach.message}"

end Error

end Stylesheet
