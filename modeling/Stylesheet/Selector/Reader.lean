import Stylesheet.Error
import Stylesheet.Selector.Basic

/-!
# Reading selectors

A selector is read one character at a time. The reader holds the elements finished so far, the
characters of the element being read, and what will decide the combinator of the next element: a
combinator sign, or a blank. Inside brackets every character belongs to the element being read.

A list of selectors is cut at the commas outside brackets. Terms without characters are left out.
-/

namespace Stylesheet.Selector

/-- A pair of brackets inside which a selector is not taken apart. -/
inductive Bracket where
  | square
  | round
deriving DecidableEq, Repr

/-- The opening sign of a pair. -/
def Bracket.opening : Bracket → Char
  | .square => '['
  | .round => '('

/-- The closing sign of a pair. -/
def Bracket.closing : Bracket → Char
  | .square => ']'
  | .round => ')'

/-- What is known between two characters of a selector. -/
structure Reader where
  /-- The elements read so far, in their order. -/
  elements : List Element := []
  /-- The characters of the element being read. -/
  current : List Char := []
  /-- The combinator sign since the last element. -/
  combinator : Option Combinator := none
  /-- Whether a blank was seen since the last element. -/
  spaced : Bool := false
  /-- Whether the last character was the first colon of an element. -/
  colon : Bool := false
  /-- The pair of brackets that is open, and how many more of its kind are open inside it. -/
  region : Option (Bracket × Nat) := none
deriving DecidableEq, Repr

namespace Reader

/-- The combinator that the next element will have: the sign that was read, else a blank between
two elements, else none. -/
def nextCombinator (r : Reader) : Combinator :=
  r.combinator.getD (if r.spaced && !r.elements.isEmpty then .descendant else .compound)

/-- Finish the element being read. Without characters there is none, and nothing changes. -/
def flush (r : Reader) : Reader :=
  if r.current.isEmpty then r
  else
    { r with
      elements := r.elements ++ [⟨r.nextCombinator, String.ofList r.current⟩]
      current := []
      combinator := none
      spaced := false }

/-- Add a character to the element being read. -/
def push (r : Reader) (c : Char) : Reader := { r with current := r.current ++ [c] }

/-- Read a combinator sign, of which there may be one between two elements. -/
def sign (r : Reader) (combinator : Combinator) : Except SelectorFault Reader :=
  match r.flush.combinator with
  | some _ => .error .consecutiveCombinators
  | none => .ok { r.flush with combinator := some combinator }

/-- Read a character inside brackets. Only brackets of the pair that is open are counted, and
the end of a square pair ends the element. -/
def inside (r : Reader) (b : Bracket) (more : Nat) (c : Char) : Reader :=
  let r := r.push c
  if c = b.opening then { r with region := some (b, more + 1) }
  else if c = b.closing then
    match more, b with
    | more + 1, _ => { r with region := some (b, more) }
    | 0, .square => { r with region := none }.flush
    | 0, .round => { r with region := none }
  else r

/-- Read a character outside brackets. -/
def outside (r : Reader) (c : Char) : Except SelectorFault Reader :=
  if Text.isBlank c then .ok { r.flush with spaced := true }
  else
    match c with
    | '>' => r.sign .child
    | '+' => r.sign .sibling
    | '~' => r.sign .generalSibling
    | ',' => .error .comma
    | '&' => .ok (r.flush.push '&').flush
    | '.' | '#' => .ok (r.flush.push c)
    | ':' => .ok { r.flush.push ':' with colon := true }
    | '[' => .ok { r.flush.push '[' with region := some (.square, 0) }
    | '(' => .ok { r.push '(' with region := some (.round, 0) }
    | _ => .ok (r.push c)

/-- Read one character. A colon right after the colon that starts an element belongs to that
element. -/
def step (r : Reader) (c : Char) : Except SelectorFault Reader :=
  match r.region with
  | some (b, more) => .ok (r.inside b more c)
  | none =>
    if r.colon && c == ':' then .ok { r.push ':' with colon := false }
    else { r with colon := false }.outside c

/-- The elements at the end of the text. -/
def finish (r : Reader) : Except SelectorFault (List Element) :=
  if r.region.isSome then .error .unbalanced
  else if r.flush.combinator.isSome then .error .trailingCombinator
  else if r.flush.elements.isEmpty then .error .empty
  else .ok r.flush.elements

end Reader

/-- The elements that a text is made of. -/
def readElements (cs : List Char) : Except SelectorFault (List Element) := do
  (← cs.foldlM Reader.step {}).finish

/-- Read one selector. -/
def read (text : String) : Except Error Selector :=
  match readElements text.toList with
  | .ok elements => .ok { elements }
  | .error fault => .error (.selectorSyntax text fault .unknown)

/-- Cut a text at the commas outside brackets. `depth` counts the brackets open before it, of
both kinds together, and `term` holds what was read of the first term. -/
def splitTerms (depth : Nat) (term : List Char) : List Char → List (List Char)
  | [] => [term]
  | c :: cs =>
    if c = ',' ∧ depth = 0 then term :: splitTerms 0 [] cs
    else
      let depth := match c with
        | '(' | '[' => depth + 1
        | ')' | ']' => depth - 1
        | _ => depth
      splitTerms depth (term ++ [c]) cs

/-- The terms of a selector list: trimmed, and without the empty ones. -/
def terms (text : String) : List String :=
  (((splitTerms 0 [] text.toList).map Text.trimBlanks).filter (!·.isEmpty)).map String.ofList

/-- Read a list of selectors divided by commas. -/
def readList (text : String) : Except Error (List Selector) :=
  (terms text).mapM read

end Stylesheet.Selector
