import Stylesheet.Selector.Basic

/-!
# Printing paths

A path is printed as one selector. The start of each selector in it decides what stands between it
and the selector before it: a descendant blank unless its first element has another combinator. In
front of the whole path a blank is not printed, but any other combinator is.
-/

namespace Stylesheet.Path

/-- What is printed before the first element of a selector, at the start of a path or inside. -/
def leadCss (compact atStart : Bool) : Combinator → String
  | .compound => if atStart then "" else " "
  | .descendant => if atStart then "" else " "
  | c => c.css compact

/-- A selector of a path. -/
def selectorCss (compact atStart : Bool) (s : Selector) : String :=
  match s.elements with
  | [] => ""
  | e :: es =>
    leadCss compact atStart e.combinator ++ e.value ++ String.join (es.map (Element.css compact))

/-- A path as one selector. -/
def css (compact : Bool) : Path → String
  | [] => ""
  | s :: rest =>
    selectorCss compact true s ++ String.join (rest.map (selectorCss compact false))

end Stylesheet.Path
