import Stylesheet.Text.Blank

/-!
# Selectors

A selector is a chain of elements such as `.a > .b:hover`. An element is one simple selector and
the combinator that ties it to the element before it; the elements of a compound such as
`.b:hover` are tied by the empty combinator.

The printed form depends on whether the output is compact. The text of a selector is its loose
printed form without leading blanks; it names the selector in messages and in lookups.
-/

namespace Stylesheet

/-- How an element relates to the one before it. -/
inductive Combinator where
  /-- Part of the same compound: nothing is written between the two. -/
  | compound
  | descendant
  | child
  | sibling
  | generalSibling
deriving DecidableEq, Repr, Inhabited

/-- What is written for a combinator. -/
def Combinator.css (compact : Bool) : Combinator → String
  | .compound => ""
  | .descendant => " "
  | .child => if compact then ">" else " > "
  | .sibling => if compact then "+" else " + "
  | .generalSibling => if compact then "~" else " ~ "

/-- A simple selector, and the combinator before it. -/
structure Element where
  combinator : Combinator := .compound
  value : String
deriving DecidableEq, Repr

namespace Element

/-- Whether an element stands for the selectors of the enclosing ruleset. -/
def isParent (e : Element) : Bool := e.value == "&"

/-- The element with its combinator, as it is written inside a selector. -/
def css (compact : Bool) (e : Element) : String := e.combinator.css compact ++ e.value

end Element

/-- A chain of elements. `evaluated` records that the holes of its values were filled. -/
structure Selector where
  elements : List Element
  evaluated : Bool := false
deriving DecidableEq, Repr

/-- Selectors to be matched one inside the other, outermost first. -/
abbrev Path := List Selector

namespace Selector

/-- The same selector around other elements. -/
def derive (s : Selector) (elements : List Element) : Selector := { s with elements }

/-- Whether some element stands for the enclosing selectors. -/
def hasParent (s : Selector) : Bool := s.elements.any Element.isParent

/-- The elements one after the other. -/
def css (compact : Bool) (s : Selector) : String :=
  String.join (s.elements.map (Element.css compact))

/-- The loose printed form without leading blanks. -/
def text (s : Selector) : String :=
  String.ofList (Text.dropBlanks (s.css false).toList)

/-- The texts of several selectors with a comma and a space between them. -/
def listText (selectors : List Selector) : String :=
  ", ".intercalate (selectors.map text)

/-- How many leading elements of `query` are those of `own`, or zero unless all of `own` leads
`query`. The first combinator is not compared, so that what is left of a query inside a namespace
(`> .m` of `#ns > .m`) matches a bare `.m`. -/
def matchLength (query own : Selector) : Nat :=
  match query.elements, own.elements with
  | q :: qs, o :: os => if q.value = o.value ∧ os <+: qs then os.length + 1 else 0
  | _, _ => 0

@[simp] theorem elements_derive (s : Selector) (es : List Element) : (s.derive es).elements = es :=
  rfl

@[simp] theorem evaluated_derive (s : Selector) (es : List Element) :
    (s.derive es).evaluated = s.evaluated := rfl

end Selector

end Stylesheet
