import Stylesheet.Bundle
import Stylesheet.Command
import Stylesheet.Compile.Basic
import Stylesheet.Json.Writer
import Stylesheet.Main
import Stylesheet.Proofs.Compile.Arguments
import Stylesheet.Proofs.Compile.Inert
import Stylesheet.Proofs.Compile.Lexical
import Stylesheet.Proofs.Compile.Reached
import Stylesheet.Proofs.Compile.SourceOrder
import Stylesheet.Proofs.Compile.Stable
import Stylesheet.Proofs.Compile.Unreachable
import Stylesheet.Proofs.Compile.Unused
import Stylesheet.Proofs.Css.Headers
import Stylesheet.Proofs.Css.Ink
import Stylesheet.Proofs.Environment.Restored
import Stylesheet.Proofs.Import.Inlining
import Stylesheet.Proofs.Path.Flat
import Stylesheet.Proofs.Path.Nesting
import Stylesheet.Proofs.Rule.RoundTrip
import Stylesheet.Rule.Selectors
import Stylesheet.Proofs.Compile.Substitution
import Stylesheet.Proofs.Selector.Outline
import Stylesheet.Proofs.Selector.Grammar
import Stylesheet.Proofs.Compile.Expansion
import Stylesheet.Proofs.Compile.Levels
import Stylesheet.Proofs.Compile.Concatenation
import Stylesheet.Proofs.Selector.Lists
import Stylesheet.Proofs.Value.References
import Stylesheet.Proofs.Css.Hoisted
import Stylesheet.Proofs.Css.Invisible
import Stylesheet.Proofs.Css.Separation
import Stylesheet.Proofs.Compile.Exclusion
import Stylesheet.Proofs.Compile.Important
import Stylesheet.Proofs.Compile.Paths
import Stylesheet.Proofs.Css.Pen
import Stylesheet.Proofs.Compile.Enrolled
