import Stylesheet.Compile.Scope
import Stylesheet.Json.Reader
import Stylesheet.Rule.Decoder

/-!
# Bundles

A bundle is a document together with the sources that it may import. It is read from a JSON record
in which the sources may be left out.
-/

namespace Stylesheet

/-- A document and the sources that it may import. -/
structure Bundle where
  rules : List Rule
  sources : Sources

namespace Bundle

/-- How deep arrays and objects may be nested in a bundle, the bundle included. -/
def maxDepth : Nat := 127

/-- Whether a field of a bundle is valid throughout and not nested too deeply. -/
def isReadable (json : Json) : Bool := json.isValid && json.depth < maxDepth

/-- Read sources, of which a later one replaces an earlier one with the same path. -/
def sourcesOfJson : Json → Decoded Sources
  | .object entries => do
    return Sources.ofEntries (← entries.mapM fun (path, json) => do
      return (path, ← Rule.readList json))
  | _ => .error .malformed

/-- Read a bundle. -/
def ofJson (json : Json) : Decoded Bundle := do
  let fields ← Decoded.ofOption (json.fields? ["rules", "imports"])
  if fields.all fun (_, value) => isReadable value then
    return {
      rules := ← Decoded.field fields "rules" Rule.readList
      sources := ← Decoded.fieldOr fields "imports" [] sourcesOfJson }
  else .error .malformed

/-- Read the text of a bundle file. -/
def read (text : String) : Decoded Bundle := do
  ofJson (← Decoded.ofOption (Json.read text))

end Bundle

end Stylesheet
