import Stylesheet.Json.Basic
import Stylesheet.Rule.Decoder

/-!
# Writing rule trees

A rule is written as an object with its kind and all its fields, also those that could be left out.
Left out are only the paths of a ruleset that has none, and the file of a span that has none.
Selectors and values are written as their texts.
-/

namespace Stylesheet

/-- Write a span. -/
def Span.toJson (s : Span) : Json :=
  let file := match s.file with
    | none => []
    | some file => [("file", Json.string file)]
  .object (file ++ [("line", .natural s.line), ("column", .natural s.column)])

/-- Write a selector as its text. -/
def Selector.toJson (s : Selector) : Json := .string s.text

/-- Write a value as its text. -/
def Value.toJson (v : Value) : Json := .string v.text

/-- Write a parameter. -/
def Param.toJson (p : Param) : Json :=
  .object [("name", .string p.name), ("default", (p.fallback.map Value.toJson).getD .null)]

/-- The fields of a declaration. -/
def Declaration.toFields (d : Declaration) : Decoded.Fields :=
  [("name", .string d.name), ("value", d.value.toJson), ("important", .bool d.important),
   ("span", d.span.toJson)]

/-- The fields of a header, with the rules that are already written. -/
def Header.toFields (h : Header) (rules : List Json) : Decoded.Fields :=
  [("selectors", .array (h.selectors.map Selector.toJson)), ("rules", .array rules),
   ("root", .bool h.root), ("first_root", .bool h.firstRoot),
   ("allow_imports", .bool h.allowImports), ("strict_imports", .bool h.strictImports)] ++
  (if h.paths.isEmpty then []
    else [("paths", .array (h.paths.map fun path => .array (path.map Selector.toJson)))])

/-- The fields of a mixin definition, with the rules that are already written. -/
def Signature.toFields (s : Signature) (rules : List Json) : Decoded.Fields :=
  [("name", s.name.toJson), ("params", .array (s.params.map Param.toJson)),
   ("rules", .array rules), ("span", s.span.toJson)]

/-- The fields of a mixin call. -/
def MixinCall.toFields (c : MixinCall) : Decoded.Fields :=
  [("selector", c.selector.toJson), ("args", .array (c.args.map Value.toJson)),
   ("important", .bool c.important), ("span", c.span.toJson)]

/-- The fields of an import. -/
def Import.toFields (i : Import) : Decoded.Fields :=
  [("path", .string i.path), ("css", .bool i.css), ("span", i.span.toJson)]

/-- The fields of a comment. -/
def Comment.toFields (c : Comment) : Decoded.Fields :=
  [("text", .string c.text), ("silent", .bool c.silent)]

/-- The fields of a media block, with the rules that are already written. -/
def MediaHead.toFields (m : MediaHead) (rules : List Json) : Decoded.Fields :=
  [("features", .string m.features), ("rules", .array rules), ("span", m.span.toJson)]

/-- The fields of an at-rule, with the rules that are already written. -/
def DirectiveHead.toFields (d : DirectiveHead) (rules : Json) : Decoded.Fields :=
  [("name", .string d.name), ("value", (d.value.map Json.string).getD .null), ("rules", rules),
   ("span", d.span.toJson)]

namespace Rule

/-- An object of a kind. -/
def tagged (kind : Kind) (fields : Decoded.Fields) : Json :=
  .object (("type", .string kind.name) :: fields)

mutual

/-- Write a rule. -/
def toJson : Rule → Json
  | .declaration d => tagged .declaration d.toFields
  | .ruleset header rules => tagged .ruleset (header.toFields (listToJson rules))
  | .definition signature rules => tagged .definition (signature.toFields (listToJson rules))
  | .call c => tagged .call c.toFields
  | .inclusion i => tagged .inclusion i.toFields
  | .comment c => tagged .comment c.toFields
  | .media head rules => tagged .media (head.toFields (listToJson rules))
  | .directive head none => tagged .directive (head.toFields .null)
  | .directive head (some rules) => tagged .directive (head.toFields (.array (listToJson rules)))

/-- Write each of some rules. -/
def listToJson : List Rule → List Json
  | [] => []
  | rule :: rules => toJson rule :: listToJson rules

end

/-- Write a ruleset on its own, without a kind. -/
def rulesetToJson (header : Header) (rules : List Rule) : Json :=
  .object (header.toFields (listToJson rules))

end Rule

end Stylesheet
