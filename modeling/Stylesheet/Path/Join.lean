import Stylesheet.Error
import Stylesheet.Selector.Basic

/-!
# Joining selectors onto paths

The selectors of a nested ruleset are joined onto the paths of the ruleset around it, its context.
A selector without a parent reference is put at the end of every context path. In one with parent
references each reference is replaced by every context path in turn, so that `n` references and
`k` paths give `k ^ n` results; the elements between two references are added to the selector
before them.

Outside of all rulesets the context is empty. There a reference stands for nothing, and only the
combinator before it is kept, on an element without characters.
-/

namespace Stylesheet.Path

/-- Add elements to the last selector of a path. -/
def extend (elements : List Element) : Path → Path
  | [] => [{ elements }]
  | [s] => [s.derive (s.elements ++ elements)]
  | s :: t :: rest => s :: extend elements (t :: rest)

/-- Add elements to each of the paths, unless there are none to add. -/
def extendAll (elements : List Element) (paths : List Path) : List Path :=
  if elements.isEmpty then paths else paths.map (extend elements)

/-- The elements of the last selector of a path. -/
def lastElements (path : Path) : List Element :=
  match path.getLast? with
  | none => []
  | some s => s.elements

/-- Put a context path in place of a reference in `s` that follows `path` and has the combinator
`c`. The first selector of the context path goes on where `path` ends, with `c` before its first
element. -/
def attach (s : Selector) (c : Combinator) (path parent : Path) : Except Error Path :=
  match parent with
  | [] => .ok (if path.isEmpty then [] else path.dropLast ++ [s.derive (lastElements path)])
  | head :: more =>
    match head.elements with
    | [] => .error (.selectorSyntax s.text .emptyParent .unknown)
    | first :: others =>
      .ok (path.dropLast ++ s.derive (lastElements path ++ ⟨c, first.value⟩ :: others) :: more)

/-- Keep the combinator of a reference that stands for nothing, behind the first selector. -/
def keepCombinator (c : Combinator) : Path → Path
  | [] => []
  | first :: rest => first.derive (first.elements ++ [⟨c, ""⟩]) :: rest

/-- Replace one reference after each of the paths by every context path. The context varies
fastest. -/
def multiply (context : List Path) (s : Selector) (c : Combinator) (paths : List Path) :
    Except Error (List Path) :=
  if context.isEmpty then .ok (paths.map (keepCombinator c))
  else do return (← paths.mapM fun path => context.mapM (attach s c path)).flatten

/-- Go through the elements of a selector. `pending` holds those since the last reference, and
`paths` what was built up to it. -/
def weave (context : List Path) (s : Selector) (pending : List Element) (paths : List Path) :
    List Element → Except Error (List Path)
  | [] => .ok (extendAll pending paths)
  | e :: es =>
    if e.isParent then do
      weave context s [] (← multiply context s e.combinator (extendAll pending paths)) es
    else weave context s (pending ++ [e]) paths es

/-- Join one selector onto the context. A result without selectors is left out. -/
def joinOne (context : List Path) (s : Selector) : Except Error (List Path) :=
  if s.hasParent then do return (← weave context s [] [[]] s.elements).filter (!·.isEmpty)
  else .ok (if context.isEmpty then [[s]] else context.map (· ++ [s]))

/-- Join several selectors onto the context, one after the other. -/
def join (context : List Path) (selectors : List Selector) : Except Error (List Path) := do
  return (← selectors.mapM (joinOne context)).flatten

end Stylesheet.Path
