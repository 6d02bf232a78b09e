import Stylesheet.Path.Printer
import Stylesheet.Rule.Basic

/-!
# Printing style sheets

A ruleset prints its plain rules in braces after its paths, and then the blocks nested in it, each
on its own. A document prints its plain rules without paths and braces. Media blocks and other
at-rules print their rules as a document one level deeper, in braces.

Compact output has no line breaks, no indentation, and no semicolon after the last declaration of a
body. In loose output a document that prints nothing else is one line break.
-/

namespace Stylesheet.Css

/-- Two spaces for each level, or nothing in compact output. -/
def indent (compact : Bool) (level : Nat) : String :=
  if compact then "" else String.join (List.replicate level "  ")

/-- A line break and the indentation after it, or nothing in compact output. -/
def lineBreak (compact : Bool) (level : Nat) : String :=
  if compact then "" else "\n" ++ indent compact level

/-- The opening brace of a body, up to its first rule. -/
def opening (compact : Bool) (level : Nat) : String :=
  if compact then "\x7b" else " \x7b" ++ lineBreak compact (level + 1)

/-- The closing brace of a body. -/
def closing (compact : Bool) (level : Nat) : String := lineBreak compact level ++ "\x7d"

/-- The paths of a ruleset, each on a line of its own. -/
def pathsCss (compact : Bool) (level : Nat) (paths : List Path) : String :=
  ("," ++ lineBreak compact level).intercalate (paths.map (Path.css compact))

/-- A declaration. Compact output leaves out the semicolon of the last one. -/
def declarationCss (compact last : Bool) (d : Declaration) : String :=
  d.name ++ (if compact then ":" else ": ") ++ d.value.text ++
    (if d.important then (if compact then "!important" else " !important") else "") ++
    (if compact && last then "" else ";")

/-- The start of an at-rule. -/
def directiveCss (head : DirectiveHead) : String :=
  match head.value with
  | none => head.name
  | some value => head.name ++ " " ++ value

/-- The paths printed for a ruleset. Selectors that were not joined yet stand for themselves. -/
def headerPaths (h : Header) : List Path :=
  if h.paths.isEmpty then h.selectors.map ([·]) else h.paths

/-- Where a rule is printed. -/
structure Place where
  /-- How deep the rule is indented. -/
  level : Nat := 0
  /-- Whether it is the last rule of a body. -/
  last : Bool := false
  /-- Whether nothing was printed before it. -/
  fresh : Bool := false

/-- A rule, and the text it prints at each place. -/
structure Item where
  rule : Rule
  css : Place → String

/-- Plain rules with a gap after each, except after the last one if it ends a body. -/
def plainCss (level : Nat) (gap : String) (ends : Bool) : List Item → String
  | [] => ""
  | [item] => item.css { level, last := ends } ++ (if ends then "" else gap)
  | item :: next :: rest => item.css { level } ++ gap ++ plainCss level gap ends (next :: rest)

/-- Blocks with a gap between each two, and `lead` before the first. -/
def blocksCss (level : Nat) (gap lead : String) (fresh : Bool) : List Item → String
  | [] => ""
  | item :: rest =>
    let css := lead ++ item.css { level, fresh := fresh && lead.isEmpty }
    css ++ blocksCss level gap gap (fresh && css.isEmpty) rest

/-- The rules of a ruleset, or of a document if there are no paths. -/
def bodyCss (compact : Bool) (place : Place) (paths : Option (List Path)) (firstRoot : Bool)
    (items : List Item) : String :=
  let shown := items.filter (·.rule.isVisible compact)
  let blocks := shown.filter (·.rule.isBlock paths.isNone)
  let plain := shown.filter (!·.rule.isBlock paths.isNone)
  let level := place.level
  let plainText := match paths with
    | none =>
      plainCss level (lineBreak compact level) (blocks.isEmpty || firstRoot) plain
    | some paths =>
      if plain.isEmpty then ""
      else
        pathsCss compact level paths ++ opening compact level ++
          plainCss level (lineBreak compact (level + 1)) true plain ++ closing compact level
  let gap := lineBreak compact level
  let css := plainText ++
    blocksCss level gap (if plain.isEmpty then "" else gap) (place.fresh && plainText.isEmpty)
      blocks
  if css.isEmpty && place.fresh && firstRoot && !compact then "\n" else css

/-- Rules printed as a document one level deeper, in braces. -/
def blockCss (compact : Bool) (level : Nat) (items : List Item) : String :=
  opening compact level ++ bodyCss compact { level := level + 1 } none false items ++
    closing compact level

mutual

/-- The text of a rule at a place. -/
def ruleCss (compact : Bool) : Rule → Place → String
  | .declaration d, place => declarationCss compact place.last d
  | .ruleset header rules, place =>
    bodyCss compact place (if header.root then none else some (headerPaths header))
      header.firstRoot (items compact rules)
  | .definition .., _ | .call _, _ => ""
  | .inclusion i, _ => "@import \"" ++ i.path ++ "\";"
  | .comment c, _ => c.text
  | .media head rules, place =>
    "@media " ++ head.features ++ blockCss compact place.level (items compact rules)
  | .directive head none, _ => directiveCss head ++ ";"
  | .directive head (some rules), place =>
    directiveCss head ++ blockCss compact place.level (items compact rules)

/-- The rules with their texts. -/
def items (compact : Bool) : List Rule → List Item
  | [] => []
  | rule :: rules => ⟨rule, ruleCss compact rule⟩ :: items compact rules

end

/-- The text of a whole style sheet. -/
def print (compact : Bool) (header : Header) (rules : List Rule) : String :=
  ruleCss compact (.ruleset header rules) { fresh := true }

theorem items_eq_map (compact : Bool) (rules : List Rule) :
    items compact rules = rules.map fun rule => ⟨rule, ruleCss compact rule⟩ := by
  induction rules with
  | nil => rfl
  | cons rule rules ih => rw [items, ih, List.map_cons]

end Stylesheet.Css
