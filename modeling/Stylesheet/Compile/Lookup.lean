import Stylesheet.Compile.Store

/-!
# Finding mixins

A query is looked up among the rules of a ruleset. A nested ruleset or a mixin definition is found
if one of its selectors is the whole query. If the selector is only the start of the query, the
rest of the query is looked up inside. Of the selectors of a ruleset the first one that leads the
query decides, whatever follows it.

The answer for a ruleset is kept under the text of the query, and given again without a search.
-/

namespace Stylesheet

/-- How many elements of the query the first matching selector takes up. -/
def Selector.firstMatch? (query : Selector) (selectors : List Selector) : Option Nat :=
  (selectors.map query.matchLength).find? (· ≠ 0)

/-- The query without its first elements. -/
def Selector.rest (query : Selector) (count : Nat) : Selector :=
  query.derive (query.elements.drop count)

mutual

/-- What a query finds at a node. A ruleset with the excluded number finds nothing. -/
def Node.find (excluded : Option Nat) (query : Selector) : Node → StateM Store (List Candidate)
  | .ruleset r =>
    if excluded = some r.serial then pure []
    else
      match query.firstMatch? r.header.selectors with
      | none => pure []
      | some count =>
        if count < query.elements.length then r.find excluded (query.rest count)
        else pure [.ruleset r]
  | .definition d =>
    match query.firstMatch? [d.signature.name] with
    | none => pure []
    | some count =>
      if count < query.elements.length then d.find excluded (query.rest count)
      else pure [.definition d]
  | _ => pure []

/-- What a query finds among the rules of a ruleset. -/
def Ruleset.find (excluded : Option Nat) (query : Selector) :
    Ruleset → StateM Store (List Candidate)
  | ⟨serial, _, _, rules⟩ => do
    let key := query.text
    match (← get).remembered? serial key with
    | some found =>
      record (.lookupHit key)
      return found
    | none =>
      record (.lookupMiss key)
      let found ← Node.findAll excluded query rules
      modify (·.remember serial key found)
      return found

/-- What a query finds among the rules of a mixin definition. -/
def Definition.find (excluded : Option Nat) (query : Selector) :
    Definition → StateM Store (List Candidate)
  | ⟨_, rules, _⟩ => Node.findAll excluded query rules

/-- What a query finds among some nodes, in their order. -/
def Node.findAll (excluded : Option Nat) (query : Selector) :
    List Node → StateM Store (List Candidate)
  | [] => pure []
  | node :: nodes => do
    let found ← node.find excluded query
    return found ++ (← Node.findAll excluded query nodes)

end

/-- What a query finds in the innermost of some frames that has anything for it. -/
def findInFrames (query : Selector) : List Ruleset → StateM Store (Option (List Candidate))
  | [] => pure none
  | frame :: frames => do
    let found ← frame.find none query
    if found.isEmpty then findInFrames query frames else return some found

end Stylesheet
