import Stylesheet.Json.Reader
import Stylesheet.Json.Record

/-!
# Options

How a style sheet is compiled and printed. Options are read from a JSON record in which every field
may be left out.
-/

namespace Stylesheet

/-- How a style sheet is compiled and printed. -/
structure Options where
  /-- Print without line breaks and indentation. -/
  compress : Bool := false
  /-- Replace imports only in documents, and in rulesets that allow them. -/
  strictImports : Bool := false
  /-- How many mixins may be expanded inside each other. -/
  maxMixinDepth : Nat := 64
deriving DecidableEq, Repr

namespace Options

/-- Read options. -/
def ofJson? (json : Json) : Option Options := do
  let fields ← json.fields? ["compress", "strictImports", "maxMixinDepth"]
  let absent : Options := {}
  return {
    compress := ← Json.fieldOr? fields "compress" absent.compress Json.bool?
    strictImports := ← Json.fieldOr? fields "strictImports" absent.strictImports Json.bool?
    maxMixinDepth := ← Json.fieldOr? fields "maxMixinDepth" absent.maxMixinDepth Json.word? }

/-- Read the text of an options file. -/
def read? (text : String) : Option Options := do
  ofJson? (← Json.read text)

end Options

end Stylesheet
