import Stylesheet.Json.Record
import Stylesheet.Rule.Basic
import Stylesheet.Selector.Reader
import Stylesheet.Value.Reader

/-!
# Reading rule trees

A rule is a record with a kind. As an object it has the kind as its entry `type`; as an array it
starts with it. Selectors and values are strings, which are read by their own grammars. Most fields
have a value for when they are left out, but only the fields that stand for something absent may be
null.

A kind is given by its name. Inside another rule it may also be given by its number.
-/

namespace Stylesheet

/-- Why a value is not a rule tree. -/
inductive DecodeFault where
  /-- The value has another shape than the tree. -/
  | malformed
  /-- The text of a selector is at fault. -/
  | selector (error : Error)
deriving DecidableEq, Repr

/-- What was read from a value, or why nothing was. -/
abbrev Decoded := Except DecodeFault

namespace Decoded

/-- A reading that fails without a reason of its own. -/
def ofOption {α : Type} : Option α → Decoded α
  | some a => .ok a
  | none => .error .malformed

/-- The fields of a record. -/
abbrev Fields := List (String × Json)

/-- A field that has to be given. -/
def field {α : Type} (fields : Fields) (name : String) (read : Json → Decoded α) : Decoded α :=
  match fields.lookup name with
  | none => .error .malformed
  | some json => read json

/-- A field that may be left out. -/
def fieldOr {α : Type} (fields : Fields) (name : String) (absent : α)
    (read : Json → Decoded α) : Decoded α :=
  match fields.lookup name with
  | none => .ok absent
  | some json => read json

/-- A value that may be absent, which is written as null. -/
def nullable {α : Type} (read : Json → Decoded α) : Json → Decoded (Option α)
  | .null => .ok none
  | json => (read json).map some

/-- An array of values of one kind. -/
def list {α : Type} (read : Json → Decoded α) (json : Json) : Decoded (List α) := do
  (← ofOption json.array?).mapM read

/-- A truth value. -/
def asBool (json : Json) : Decoded Bool := ofOption json.bool?

/-- A text. -/
def asString (json : Json) : Decoded String := ofOption json.string?

/-- A line or a column. -/
def asWord (json : Json) : Decoded Nat := ofOption json.word?

/-- A selector, as a text. -/
def asSelector (json : Json) : Decoded Selector := do
  (Selector.read (← asString json)).mapError .selector

/-- A value, as a text. -/
def asValue (json : Json) : Decoded Value := do
  return Value.read (← asString json)

end Decoded

open Decoded

/-- Read a span. Each of its fields may be left out. -/
def Span.ofJson (json : Json) : Decoded Span := do
  let fields ← ofOption (json.fields? ["file", "line", "column"])
  return {
    file := ← fieldOr fields "file" none (nullable asString)
    line := ← fieldOr fields "line" 0 asWord
    column := ← fieldOr fields "column" 0 asWord }

/-- The span of a rule. -/
def Decoded.spanField (fields : Fields) : Decoded Span := fieldOr fields "span" {} Span.ofJson

/-- Read a parameter. -/
def Param.ofJson (json : Json) : Decoded Param := do
  let fields ← ofOption (json.fields? ["name", "default"])
  return {
    name := ← field fields "name" asString
    fallback := ← fieldOr fields "default" none (nullable asValue) }

/-- The kinds of rules. -/
inductive Rule.Kind where
  | declaration
  | ruleset
  | definition
  | call
  | inclusion
  | comment
  | media
  | directive
deriving DecidableEq, Repr

namespace Rule.Kind

/-- The kinds in the order of their numbers. -/
def all : List Kind :=
  [.declaration, .ruleset, .definition, .call, .inclusion, .comment, .media, .directive]

/-- The name of a kind. -/
def name : Kind → String
  | .declaration => "declaration"
  | .ruleset => "ruleset"
  | .definition => "mixin_definition"
  | .call => "mixin_call"
  | .inclusion => "import"
  | .comment => "comment"
  | .media => "media"
  | .directive => "directive"

/-- The fields of a kind, in their order. -/
def fields : Kind → List String
  | .declaration => ["name", "value", "important", "span"]
  | .ruleset =>
    ["selectors", "rules", "root", "first_root", "allow_imports", "strict_imports", "paths"]
  | .definition => ["name", "params", "rules", "span"]
  | .call => ["selector", "args", "important", "span"]
  | .inclusion => ["path", "css", "span"]
  | .comment => ["text", "silent"]
  | .media => ["features", "rules", "span"]
  | .directive => ["name", "value", "rules", "span"]

/-- Read a kind. -/
def ofJson (nested : Bool) : Json → Decoded Kind
  | .string s => ofOption (all.find? (·.name = s))
  | .natural n => if nested then ofOption all[n]? else .error .malformed
  | _ => .error .malformed

end Rule.Kind

/-- The declaration that some fields give. -/
def Declaration.ofFields (fields : Fields) : Decoded Declaration := do
  return {
    name := ← field fields "name" asString
    value := ← field fields "value" asValue
    important := ← fieldOr fields "important" false asBool
    span := ← spanField fields }

/-- The header that some fields give. -/
def Header.ofFields (fields : Fields) : Decoded Header := do
  return {
    selectors := ← fieldOr fields "selectors" [] (list asSelector)
    root := ← fieldOr fields "root" false asBool
    firstRoot := ← fieldOr fields "first_root" false asBool
    allowImports := ← fieldOr fields "allow_imports" false asBool
    strictImports := ← fieldOr fields "strict_imports" false asBool
    paths := ← fieldOr fields "paths" [] (list (list asSelector)) }

/-- The signature that some fields give. -/
def Signature.ofFields (fields : Fields) : Decoded Signature := do
  return {
    name := ← field fields "name" asSelector
    params := ← fieldOr fields "params" [] (list Param.ofJson)
    span := ← spanField fields }

/-- The call that some fields give. -/
def MixinCall.ofFields (fields : Fields) : Decoded MixinCall := do
  return {
    selector := ← field fields "selector" asSelector
    args := ← fieldOr fields "args" [] (list asValue)
    important := ← fieldOr fields "important" false asBool
    span := ← spanField fields }

/-- Read a call on its own. -/
def MixinCall.ofJson (json : Json) : Decoded MixinCall := do
  MixinCall.ofFields (← ofOption (json.fields? Rule.Kind.call.fields))

/-- The import that some fields give. -/
def Import.ofFields (fields : Fields) : Decoded Import := do
  return {
    path := ← field fields "path" asString
    css := ← fieldOr fields "css" false asBool
    span := ← spanField fields }

/-- Read an import on its own. -/
def Import.ofJson (json : Json) : Decoded Import := do
  Import.ofFields (← ofOption (json.fields? Rule.Kind.inclusion.fields))

/-- The comment that some fields give. -/
def Comment.ofFields (fields : Fields) : Decoded Comment := do
  return {
    text := ← field fields "text" asString
    silent := ← fieldOr fields "silent" false asBool }

/-- The media head that some fields give. -/
def MediaHead.ofFields (fields : Fields) : Decoded MediaHead := do
  return {
    features := ← field fields "features" asString
    span := ← spanField fields }

/-- The head of an at-rule that some fields give. -/
def DirectiveHead.ofFields (fields : Fields) : Decoded DirectiveHead := do
  return {
    name := ← field fields "name" asString
    value := ← fieldOr fields "value" none (nullable asString)
    span := ← spanField fields }

namespace Rule

/-- The rule of a kind that some fields give. What was read from the field `rules`, if it is
given, comes with them. -/
def ofFields (kind : Kind) (fields : Fields) (rules : Option (Decoded (List Rule))) :
    Decoded Rule := do
  match kind with
  | .declaration => return .declaration (← Declaration.ofFields fields)
  | .ruleset => return .ruleset (← Header.ofFields fields) (← rules.getD (.ok []))
  | .definition => return .definition (← Signature.ofFields fields) (← rules.getD (.ok []))
  | .call => return .call (← MixinCall.ofFields fields)
  | .inclusion => return .inclusion (← Import.ofFields fields)
  | .comment => return .comment (← Comment.ofFields fields)
  | .media => return .media (← MediaHead.ofFields fields) (← rules.getD (.ok []))
  | .directive =>
    let head ← DirectiveHead.ofFields fields
    match fields.lookup "rules" with
    | none | some .null => return .directive head none
    | some _ => return .directive head (some (← rules.getD (.ok [])))

/-- The only entry `type` of an object. -/
def tag? (entries : List (String × Json)) : Option Json :=
  match entries.filter (·.1 = "type") with
  | [(_, tag)] => some tag
  | _ => none

mutual

/-- Read a rule. -/
def ofJson (nested : Bool) : Json → Decoded Rule
  | .object entries => do
    let kind ← Kind.ofJson nested (← ofOption (tag? entries))
    let fields ← ofOption ((Json.object entries).fields? kind.fields)
    ofFields kind fields (rulesEntry entries)
  | .array (tag :: items) => do
    let kind ← Kind.ofJson nested tag
    let fields ← ofOption ((Json.array items).fields? kind.fields)
    ofFields kind fields ((kind.fields.zip (eachAsRules items)).lookup "rules")
  | _ => .error .malformed

/-- Read an array of rules. -/
def listOfJson (nested : Bool) : Json → Decoded (List Rule)
  | .array items => listOfItems nested items
  | _ => .error .malformed

/-- Read rules one after the other. -/
def listOfItems (nested : Bool) : List Json → Decoded (List Rule)
  | [] => .ok []
  | item :: items => do
    let rule ← ofJson nested item
    return rule :: (← listOfItems nested items)

/-- Read the entry `rules` of an object, if it has one. -/
def rulesEntry : List (String × Json) → Option (Decoded (List Rule))
  | [] => none
  | (key, value) :: entries =>
    if key = "rules" then some (listOfJson true value) else rulesEntry entries

/-- Read each item of an array as rules. -/
def eachAsRules : List Json → List (Decoded (List Rule))
  | [] => []
  | item :: items => listOfJson true item :: eachAsRules items

end

/-- Read the rules of a document. -/
def readList (json : Json) : Decoded (List Rule) := listOfJson false json

/-- Read a ruleset on its own, without a kind. -/
def readRuleset (json : Json) : Decoded (Header × List Rule) := do
  let fields ← ofOption (json.fields? Kind.ruleset.fields)
  return (← Header.ofFields fields, ← fieldOr fields "rules" [] readList)

end Rule

end Stylesheet
