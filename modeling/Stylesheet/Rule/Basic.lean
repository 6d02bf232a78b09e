import Stylesheet.Selector.Basic
import Stylesheet.Span
import Stylesheet.Value.Basic

/-!
# Rules

A style sheet is a list of rules, and several kinds of rules hold rules of their own. `Rule` is the
plain tree: what is read, written back and printed. The parts of a rule other than the rules inside
it are structures of their own, since they are shared with the tree that the compiler works on.
-/

namespace Stylesheet

/-- A property or a variable, and what is assigned to it. -/
structure Declaration where
  name : String
  value : Value
  important : Bool := false
  span : Span := {}
deriving DecidableEq, Repr

/-- A name that starts with an at-sign is a variable. Variables are not printed. -/
def Declaration.isVariable (d : Declaration) : Bool := d.name.toList.head? == some '@'

/-- What a ruleset has besides its rules. -/
structure Header where
  selectors : List Selector := []
  /-- Whether the ruleset is a document, which prints its rules without selectors and braces. -/
  root : Bool := false
  /-- Whether the ruleset is the outermost document. -/
  firstRoot : Bool := false
  /-- Whether imports are replaced here even where imports are strict. -/
  allowImports : Bool := false
  /-- Whether imports stay as they are unless they are allowed. -/
  strictImports : Bool := false
  /-- The joined selectors, once they are known. -/
  paths : List Path := []
deriving DecidableEq, Repr

/-- The header of a whole document. -/
def Header.document : Header := { root := true, firstRoot := true }

/-- A parameter of a mixin, and its value where a call gives none. -/
structure Param where
  name : String
  fallback : Option Value := none
deriving DecidableEq, Repr

/-- What a mixin definition has besides its rules. -/
structure Signature where
  name : Selector
  params : List Param := []
  span : Span := {}
deriving DecidableEq, Repr

/-- The use of a mixin. -/
structure MixinCall where
  selector : Selector
  args : List Value := []
  important : Bool := false
  span : Span := {}
deriving DecidableEq, Repr

/-- The use of another source. A `css` import is left to the reader of the output. -/
structure Import where
  path : String
  css : Bool := false
  span : Span := {}
deriving DecidableEq, Repr

/-- A comment, with its delimiters. A silent one is never printed. -/
structure Comment where
  text : String
  silent : Bool := false
deriving DecidableEq, Repr

/-- Whether a comment is printed: compact output keeps only those that ask for it. -/
def Comment.isPrinted (compact : Bool) (c : Comment) : Bool :=
  !c.silent && (!compact || ['/', '*', '!'].isPrefixOf c.text.toList)

/-- What a media block has besides its rules. -/
structure MediaHead where
  features : String
  span : Span := {}
deriving DecidableEq, Repr

/-- What any other at-rule has besides its rules. -/
structure DirectiveHead where
  name : String
  value : Option String := none
  span : Span := {}
deriving DecidableEq, Repr

/-- One entry of a style sheet. -/
inductive Rule where
  | declaration (d : Declaration)
  | ruleset (header : Header) (rules : List Rule)
  | definition (signature : Signature) (rules : List Rule)
  | call (c : MixinCall)
  | inclusion (i : Import)
  | comment (c : Comment)
  | media (head : MediaHead) (rules : List Rule)
  /-- An at-rule, with a block or without. -/
  | directive (head : DirectiveHead) (rules : Option (List Rule))

namespace Rule

mutual

/-- Whether a rule prints anything. Rulesets and media blocks do if some rule inside does. -/
def isVisible (compact : Bool) : Rule → Bool
  | .declaration d => !d.isVariable
  | .ruleset _ rules | .media _ rules => anyVisible compact rules
  | .definition .. | .call _ => false
  | .inclusion _ | .directive .. => true
  | .comment c => c.isPrinted compact

/-- Whether one of the rules prints anything. -/
def anyVisible (compact : Bool) : List Rule → Bool
  | [] => false
  | rule :: rules => isVisible compact rule || anyVisible compact rules

end

/-- Whether a rule is printed as a block of its own, after the plain rules around it. In a
document, comments are too. -/
def isBlock (atRoot : Bool) : Rule → Bool
  | .ruleset .. | .media .. | .directive .. => true
  | .comment _ => atRoot
  | .declaration _ | .definition .. | .call _ | .inclusion _ => false

mutual

/-- How many blocks are nested in a rule, the rule included. Mixin definitions count as none:
their rules are compiled where they are called. -/
def height : Rule → Nat
  | .ruleset _ rules | .media _ rules => heights rules + 1
  | .directive _ (some rules) => heights rules + 1
  | _ => 0

/-- The greatest height of the rules. -/
def heights : List Rule → Nat
  | [] => 0
  | rule :: rules => max (height rule) (heights rules)

end

theorem anyVisible_eq_any (compact : Bool) (rules : List Rule) :
    anyVisible compact rules = rules.any (isVisible compact) := by
  induction rules with
  | nil => rfl
  | cons rule rules ih => rw [anyVisible, ih, List.any_cons]

end Rule

end Stylesheet
