import Stylesheet.Rule.Basic

/-!
# The selectors of a tree

The selectors of a tree in the order in which they stand in it: for each ruleset those of its
paths, or its own if it has no paths, and then those of its rules. Mixin definitions are passed
over.
-/

namespace Stylesheet

/-- The selectors of a header: those of its paths, or its own if there are none. -/
def Header.shownSelectors (h : Header) : List Selector :=
  if h.paths.isEmpty then h.selectors else h.paths.flatten

namespace Rule

mutual

/-- The selectors of a rule. -/
def selectors : Rule → List Selector
  | .ruleset header rules => header.shownSelectors ++ allSelectors rules
  | .media _ rules => allSelectors rules
  | .directive _ (some rules) => allSelectors rules
  | _ => []

/-- The selectors of some rules. -/
def allSelectors : List Rule → List Selector
  | [] => []
  | rule :: rules => selectors rule ++ allSelectors rules

end

end Rule

end Stylesheet
