import Stylesheet.Node.Basic

/-!
# Mixin candidates

A mixin call expands mixin definitions, and plain rulesets used as mixins without parameters.
-/

namespace Stylesheet

/-- Something that a mixin call can expand. -/
inductive Candidate where
  | ruleset (r : Ruleset)
  | definition (d : Definition)

namespace Candidate

/-- The selectors that a candidate is found by. -/
def selectors : Candidate → List Selector
  | .ruleset r => r.header.selectors
  | .definition d => [d.signature.name]

/-- The name of a candidate in messages. -/
def name (c : Candidate) : String := Selector.listText c.selectors

/-- The parameters of a candidate. -/
def params : Candidate → List Param
  | .ruleset _ => []
  | .definition d => d.signature.params

/-- The rules that a candidate expands to. -/
def rules : Candidate → List Node
  | .ruleset r => r.rules
  | .definition d => d.rules

/-- The frames that a candidate brings along, innermost first. -/
def closure : Candidate → List Ruleset
  | .ruleset _ => []
  | .definition d => d.closure.getD []

/-- Whether a candidate takes a number of arguments: at least as many as it has parameters
without a fallback, and at most as many as it has parameters. -/
def accepts (c : Candidate) (arity : Nat) : Bool :=
  (c.params.filter (·.fallback.isNone)).length ≤ arity && arity ≤ c.params.length

end Candidate

namespace Node

/-- The candidate that a node is. -/
def candidate? : Node → Option Candidate
  | .ruleset r => some (.ruleset r)
  | .definition d => some (.definition d)
  | _ => none

end Node

end Stylesheet
