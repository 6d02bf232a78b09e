import Stylesheet.Rule.Basic

/-!
# Nodes

The compiler works on nodes: rules that know more about themselves. A ruleset has a serial number,
which tells it from other rulesets that read the same, and the number of the ruleset that it was
compiled from. A mixin definition has the frames that were open where it stands, once it has been
reached. A media block that was compiled lives in the list of blocks of the store, and its node
refers to it by number, since what encloses a block goes on to change it.

`Node.ofRule` numbers the rulesets of a plain tree, and `Node.toRule` forgets what was added.
-/

namespace Stylesheet

mutual

/-- A rule as the compiler sees it. -/
inductive Node where
  | declaration (d : Declaration)
  | ruleset (r : Ruleset)
  | definition (d : Definition)
  | call (c : MixinCall)
  | inclusion (i : Import)
  | comment (c : Comment)
  /-- A media block that was not compiled yet. -/
  | media (head : MediaHead) (rules : List Node)
  /-- A media block that was compiled, by its number. -/
  | block (index : Nat)
  | directive (head : DirectiveHead) (rules : Option (List Node))

/-- Selectors and the rules for what they select. -/
structure Ruleset where
  /-- The number that only this ruleset has. -/
  serial : Nat
  /-- The number of the ruleset that this one was compiled from. -/
  source : Option Nat
  header : Header
  rules : List Node

/-- A mixin with its rules. -/
structure Definition where
  signature : Signature
  rules : List Node
  /-- The frames around the definition, innermost first, once they are known. -/
  closure : Option (List Ruleset)

end

namespace Node

mutual

/-- Number the rulesets of a rule, from the next free number on. -/
def ofRule : Rule → StateM Nat Node
  | .declaration d => pure (.declaration d)
  | .ruleset header rules => do
    let serial ← modifyGet fun n => (n, n + 1)
    return .ruleset { serial, source := none, header, rules := ← ofRules rules }
  | .definition signature rules => do
    return .definition { signature, rules := ← ofRules rules, closure := none }
  | .call c => pure (.call c)
  | .inclusion i => pure (.inclusion i)
  | .comment c => pure (.comment c)
  | .media head rules => do return .media head (← ofRules rules)
  | .directive head none => pure (.directive head none)
  | .directive head (some rules) => do return .directive head (some (← ofRules rules))

/-- Number the rulesets of some rules, in their order. -/
def ofRules : List Rule → StateM Nat (List Node)
  | [] => pure []
  | rule :: rules => do
    let node ← ofRule rule
    return node :: (← ofRules rules)

end

mutual

/-- The plain rule of a node. A reference to a block has none of its own, and gives an empty
block. -/
def toRule : Node → Rule
  | .declaration d => .declaration d
  | .ruleset ⟨_, _, header, rules⟩ => .ruleset header (toRules rules)
  | .definition ⟨signature, rules, _⟩ => .definition signature (toRules rules)
  | .call c => .call c
  | .inclusion i => .inclusion i
  | .comment c => .comment c
  | .media head rules => .media head (toRules rules)
  | .block _ => .media { features := "" } []
  | .directive head none => .directive head none
  | .directive head (some rules) => .directive head (some (toRules rules))

/-- The plain rules of some nodes. -/
def toRules : List Node → List Rule
  | [] => []
  | node :: nodes => toRule node :: toRules nodes

end

mutual

/-- How many blocks are nested in a node, the node included. `blocks` gives the heights of the
blocks that are referred to by number. -/
def height (blocks : List Nat) : Node → Nat
  | .ruleset ⟨_, _, _, rules⟩ | .media _ rules => heights blocks rules + 1
  | .directive _ (some rules) => heights blocks rules + 1
  | .block index => (blocks[index]?).getD 0
  | _ => 0

/-- The greatest height of the nodes. -/
def heights (blocks : List Nat) : List Node → Nat
  | [] => 0
  | node :: nodes => max (height blocks node) (heights blocks nodes)

end

mutual

/-- Give new numbers to the rulesets of a node. Those inside mixin definitions keep theirs. -/
def renew : Node → StateM Nat Node
  | .ruleset ⟨_, source, header, rules⟩ => do
    let serial ← modifyGet fun n => (n, n + 1)
    return .ruleset { serial, source, header, rules := ← renewAll rules }
  | .media head rules => do return .media head (← renewAll rules)
  | .directive head (some rules) => do return .directive head (some (← renewAll rules))
  | node => pure node

/-- Give new numbers to the rulesets of some nodes. -/
def renewAll : List Node → StateM Nat (List Node)
  | [] => pure []
  | node :: nodes => do
    let node ← renew node
    return node :: (← renewAll nodes)

end

mutual

/-- Mark the declarations of a node as important, except those of mixin definitions. -/
def markImportant : Node → Node
  | .declaration d => .declaration { d with important := true }
  | .ruleset ⟨serial, source, header, rules⟩ =>
    .ruleset ⟨serial, source, header, markAllImportant rules⟩
  | .media head rules => .media head (markAllImportant rules)
  | .directive head (some rules) => .directive head (some (markAllImportant rules))
  | node => node

/-- Mark the declarations of some nodes as important. -/
def markAllImportant : List Node → List Node
  | [] => []
  | node :: nodes => markImportant node :: markAllImportant nodes

end

mutual

/-- The numbers of the blocks that a node refers to, in their order. -/
def blockIndices : Node → List Nat
  | .block index => [index]
  | .ruleset ⟨_, _, _, rules⟩ | .media _ rules => allBlockIndices rules
  | .directive _ (some rules) => allBlockIndices rules
  | _ => []

/-- The numbers of the blocks that some nodes refer to. -/
def allBlockIndices : List Node → List Nat
  | [] => []
  | node :: nodes => blockIndices node ++ allBlockIndices nodes

end

mutual

/-- Put the given nodes in place of the references to blocks, each by its number. -/
def inline (contents : List Node) : Node → Node
  | .block index => (contents[index]?).getD (.block index)
  | .ruleset ⟨serial, source, header, rules⟩ =>
    .ruleset ⟨serial, source, header, inlineAll contents rules⟩
  | .media head rules => .media head (inlineAll contents rules)
  | .directive head (some rules) => .directive head (some (inlineAll contents rules))
  | node => node

/-- Put the given nodes in place of the references to blocks in some nodes. -/
def inlineAll (contents : List Node) : List Node → List Node
  | [] => []
  | node :: nodes => inline contents node :: inlineAll contents nodes

end

/-- The variable that a node declares. -/
def binding? : Node → Option Declaration
  | .declaration d => if d.isVariable then some d else none
  | _ => none

end Node

namespace Ruleset

/-- The variables that a ruleset declares, in their order. -/
def bindings (r : Ruleset) : List Declaration := r.rules.filterMap Node.binding?

/-- The last declaration of a variable. -/
def binding? (r : Ruleset) (name : String) : Option Declaration :=
  r.bindings.reverse.find? (·.name = name)

end Ruleset

end Stylesheet
