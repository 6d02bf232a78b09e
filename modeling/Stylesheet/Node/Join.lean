import Stylesheet.Node.Basic
import Stylesheet.Path.Join

/-!
# Joining the selectors of a tree

Every ruleset gets the paths that its selectors have in the context of the rulesets around it. A
document, or a ruleset without selectors, has no paths and passes its context on. Media blocks and
other at-rules start again without a context, since their rules have been wrapped in the selectors
around them. Mixin definitions stay as they are.
-/

namespace Stylesheet

/-- The paths of a ruleset in a context, and the context for its rules. -/
def Header.join (context : List Path) (h : Header) : Except Error (List Path × List Path) :=
  if h.root || h.selectors.isEmpty then .ok ([], context)
  else do
    let paths ← Path.join context h.selectors
    return (paths, paths)

namespace Node

mutual

/-- Join the selectors of a node onto a context. -/
def join (context : List Path) : Node → Except Error Node
  | .ruleset ⟨serial, source, header, rules⟩ => do
    let (paths, inner) ← header.join context
    return .ruleset ⟨serial, source, { header with paths }, ← joinAll inner rules⟩
  | .media head rules => do return .media head (← joinAll [] rules)
  | .directive head (some rules) => do return .directive head (some (← joinAll [] rules))
  | node => .ok node

/-- Join the selectors of some nodes onto a context. -/
def joinAll (context : List Path) : List Node → Except Error (List Node)
  | [] => .ok []
  | node :: nodes => do
    let node ← join context node
    return node :: (← joinAll context nodes)

end

end Node

end Stylesheet
