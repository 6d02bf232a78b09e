import Stylesheet.Selector.Basic

/-!
# Events

The compiler records what it does. An event has a level, by which readers of the record leave out
what they do not need, and a message.
-/

namespace Stylesheet

/-- How much detail an event belongs to. -/
inductive Event.Level where
  | debug
  | trace
deriving DecidableEq, Repr

/-- A step of the compiler. -/
inductive Event where
  /-- A lookup was answered from memory. -/
  | lookupHit (key : String)
  /-- A lookup has to search the rules. -/
  | lookupMiss (key : String)
  /-- A ruleset with these selectors and that many rules is compiled. -/
  | compiling (selectors : List Selector) (rules : Nat)
  /-- A mixin is expanded, at that depth of expansions. -/
  | expanding (selector : Selector) (depth : Nat)
  /-- A mixin call was replaced by that many nodes. -/
  | expanded (selector : Selector) (nodes : Nat)
  /-- An import is replaced by that many nodes. -/
  | inlining (path : String) (nodes : Nat)
  /-- An import is dropped, since its path was imported before. -/
  | skipping (path : String)
  /-- That many media blocks are wrapped in that many selectors. -/
  | bubbling (blocks selectors : Nat)
  /-- The selectors of the document are joined. -/
  | joining
deriving DecidableEq, Repr

namespace Event

/-- The level of an event. -/
def level : Event → Level
  | .lookupHit _ | .lookupMiss _ => .trace
  | _ => .debug

/-- The message of an event. -/
def message : Event → String
  | .lookupHit key => s!"lookup cache hit for `{key}`"
  | .lookupMiss key => s!"lookup cache miss for `{key}`"
  | .compiling selectors rules =>
    s!"compiling ruleset `{Selector.listText selectors}` with {rules} rule(s)"
  | .expanding selector depth => s!"expanding `{selector.text}` at depth {depth}"
  | .expanded selector nodes => s!"`{selector.text}` expanded into {nodes} node(s)"
  | .inlining path nodes => s!"inlining `{path}` ({nodes} node(s))"
  | .skipping path => s!"skipping `{path}`, already imported"
  | .bubbling blocks selectors =>
    s!"bubbling {blocks} media block(s) through {selectors} selector(s)"
  | .joining => "joining selectors"

end Event

end Stylesheet
