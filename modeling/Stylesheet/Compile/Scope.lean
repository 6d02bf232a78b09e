import Stylesheet.Compile.Lookup
import Stylesheet.Options
import Stylesheet.Value.Reader

/-!
# Scopes

A scope is what the rules at one place can see: the frames around them, the options, and the
sources that can be imported. Scopes are passed inward and never changed by what is inside.

A variable has the value of its last declaration in the innermost frame that declares it. Values
are resolved where they are used, so the variables in the value of a variable are looked up in the
scope of the use.
-/

namespace Stylesheet

/-- The rules that can be imported, by their paths. -/
abbrev Sources := List (String × List Rule)

namespace Sources

/-- Put rules under a path, in place of those that were there. -/
def insert (s : Sources) (path : String) (rules : List Rule) : Sources :=
  s.filter (·.1 ≠ path) ++ [(path, rules)]

/-- The sources that some entries give, of which a later one replaces an earlier one. -/
def ofEntries (entries : List (String × List Rule)) : Sources :=
  entries.foldl (fun s (path, rules) => s.insert path rules) []

/-- The sum of the heights of the sources. -/
def height (s : Sources) : Nat :=
  s.foldr (fun (_, rules) total => Rule.heights rules + total) 0

end Sources

/-- What can be seen at a place in a style sheet. -/
structure Scope where
  /-- The rulesets around the place as far as they are compiled, innermost first. -/
  frames : List Ruleset := []
  /-- The selectors of the rulesets around the place, innermost first. -/
  selectors : List (List Selector) := []
  /-- The variables whose values are being resolved. -/
  pending : List String := []
  /-- The paths that are being imported. -/
  importing : List String := []
  /-- How many mixins are being expanded. -/
  depth : Nat := 0
  options : Options := {}
  sources : Option Sources := none

namespace Scope

/-- The scope inside a ruleset. -/
def enter (sc : Scope) (frame : Ruleset) (selectors : List Selector) : Scope :=
  { sc with frames := frame :: sc.frames, selectors := selectors :: sc.selectors }

/-- The scope with another innermost frame. -/
def replaceFrame (sc : Scope) (frame : Ruleset) : Scope :=
  { sc with frames := frame :: sc.frames.tail }

/-- The scope outside of the innermost ruleset. -/
def leave (sc : Scope) : Scope :=
  { sc with frames := sc.frames.tail, selectors := sc.selectors.tail }

/-- The declaration that a variable has its value from. -/
def binding? (sc : Scope) (name : String) : Option Declaration :=
  sc.frames.findSome? (·.binding? name)

/-- The names of all variables in the frames. -/
def variableNames (sc : Scope) : List String :=
  sc.frames.flatMap fun frame => frame.bindings.map Declaration.name

/-- The names of the variables that are not being resolved. -/
def idleNames (sc : Scope) : List String :=
  sc.variableNames.filter fun name => !sc.pending.contains name

/-- Whether the given ruleset is one that a frame was compiled from. -/
def isCompiling (sc : Scope) (r : Ruleset) : Bool :=
  sc.frames.any fun frame => frame.serial == r.serial || frame.source == some r.serial

theorem mem_variableNames_of_binding? {sc : Scope} {name : String} {d : Declaration}
    (h : sc.binding? name = some d) : name ∈ sc.variableNames := by
  obtain ⟨frame, hframe, hd⟩ := List.exists_of_findSome?_eq_some h
  have hname : d.name = name := by simpa using List.find?_some hd
  have hmem : d ∈ frame.bindings := by simpa using List.mem_of_find?_eq_some hd
  exact List.mem_flatMap.2 ⟨frame, hframe, List.mem_map.2 ⟨d, hmem, hname⟩⟩

/-- Resolving one more variable leaves fewer that are not being resolved. -/
theorem length_idleNames_lt {sc : Scope} {name : String} {d : Declaration}
    (h : sc.binding? name = some d) (hp : name ∉ sc.pending) :
    { sc with pending := name :: sc.pending }.idleNames.length < sc.idleNames.length := by
  have hmem : name ∈ sc.idleNames :=
    List.mem_filter.2 ⟨mem_variableNames_of_binding? h, by simpa using hp⟩
  have hsub : { sc with pending := name :: sc.pending }.idleNames =
      sc.idleNames.filter (fun n => n ≠ name) := by
    simp only [idleNames, variableNames, List.filter_filter]
    congr 1
    funext n
    by_cases hn : n = name <;> simp [hn]
  rw [hsub]
  exact List.length_filter_lt_length_iff_exists.2 ⟨name, hmem, by simp⟩

/-- The value of a variable, with the references in it resolved. A variable that needs its own
value has none. -/
def resolve (sc : Scope) (name : String) (span : Span) : Except Error Value :=
  match _h : sc.binding? name with
  | none => .error (.undefinedVariable name span)
  | some d =>
    if _hp : name ∈ sc.pending then .error (.recursiveVariable name span)
    else d.value.fill fun inner => do
      return (← resolve { sc with pending := name :: sc.pending } inner d.span).text
termination_by sc.idleNames.length
decreasing_by exact length_idleNames_lt _h _hp

/-- The text of a variable. -/
def lookup (sc : Scope) (span : Span) (name : String) : Except Error String := do
  return (← sc.resolve name span).text

/-- A value with its references resolved. -/
def value (sc : Scope) (v : Value) (span : Span) : Except Error Value := v.fill (sc.lookup span)

/-- A text with its holes filled. -/
def interpolate (sc : Scope) (text : String) (span : Span) : Except Error String :=
  (Value.readHoles text).fillText (sc.lookup span)

/-- An element with the holes of its value filled. -/
def element (sc : Scope) (e : Element) : Except Error Element := do
  return { e with value := ← sc.interpolate e.value .unknown }

/-- A selector with the holes of its elements filled. -/
def selector (sc : Scope) (s : Selector) : Except Error Selector := do
  return { elements := ← s.elements.mapM sc.element, evaluated := true }

/-- A declaration with its value resolved. -/
def declaration (sc : Scope) (d : Declaration) : Except Error Declaration := do
  return { d with value := ← sc.value d.value d.span }

/-- The candidates for a mixin call. -/
def mixin (sc : Scope) (query : Selector) : StateM Store (Option (List Candidate)) :=
  findInFrames query sc.frames

end Scope

end Stylesheet
