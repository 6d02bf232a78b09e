import Stylesheet.Compile.Ruleset
import Stylesheet.Css
import Stylesheet.Node.Join

/-!
# Compiling style sheets

The compiler ties the steps of compiling a ruleset into a knot, in two turns. Nested rulesets are
compiled by the same steps with one level of nesting less; the number of levels is bounded by the
height of the tree, in which blocks count as they are at the start, together with the heights of all
sources, of which each is replaced once. Mixins are expanded by the same compiler with one expansion
less; their number is bounded by the options.

`compileTree` compiles a document and joins its selectors, and `compileToCss` prints it as well.
-/

namespace Stylesheet

/-- Compile rulesets that are nested at most so deep. -/
def Expander.nested (expand : Expander) : Nat → Compiler
  | 0 => fun _ _ => throw (.internal .nesting)
  | levels + 1 => Ruleset.compileWith expand (Expander.nested expand levels)

/-- How deep rulesets can be nested in some rules, with all sources imported. -/
def Scope.levels (sc : Scope) (s : Store) (rules : List Node) : Nat :=
  s.heights rules + 1 + (sc.sources.map Sources.height).getD 0

/-- Compile rulesets with the given expander for mixin calls. -/
def Expander.compiler (expand : Expander) : Compiler := fun sc r => do
  expand.nested (sc.levels (← get) r.rules) sc r

/-- The expander that allows so many expansions inside each other. -/
def Expander.upTo : Nat → Expander
  | 0 => Expander.refuse
  | budget + 1 => Expander.ofCompiler (Expander.upTo budget).compiler

namespace Scope

/-- How many more mixins may be expanded inside each other. -/
def budget (sc : Scope) : Nat := sc.options.maxMixinDepth - sc.depth

/-- The expander for the mixin calls in a scope. -/
def expander (sc : Scope) : Expander := Expander.upTo sc.budget

end Scope

/-- Compile a ruleset. -/
def Ruleset.compile (sc : Scope) (r : Ruleset) : CompileM Ruleset := sc.expander.compiler sc r

/-- Compile a node that is replaced by exactly one node. -/
def Node.compile (sc : Scope) (node : Node) : CompileM Node :=
  node.compileWith sc.expander.compiler sc

/-- The nodes that replace a mixin call. -/
def MixinCall.compile (sc : Scope) (call : MixinCall) : CompileM (List Node) :=
  call.compileWith sc.expander sc

/-- Join the selectors of a block onto nothing. -/
def Block.join (b : Block) : Except Error Block := do
  return { b with rules := ← Node.joinAll [] b.rules }

/-- Join the selectors of a ruleset onto nothing, and those of the blocks that it refers to. -/
def Ruleset.join (r : Ruleset) : CompileM Ruleset := do
  let r ← r.renew
  let (paths, inner) ← ofExcept (r.header.join [])
  let rules ← ofExcept (Node.joinAll inner r.rules)
  let s ← get
  set { s with blocks := ← ofExcept (s.mapReachable r.rules Block.join) }
  return { r with header := { r.header with paths }, rules }

/-- The ruleset of a whole document. -/
def Ruleset.document (rules : List Node) : StateM Store Ruleset :=
  Ruleset.build Header.document rules none

/-- Compile a document and join its selectors. -/
def compileTree (sc : Scope) (rules : List Node) : CompileM Ruleset := do
  let compiled ← (← Ruleset.document rules).compile sc
  if sc.frames.isEmpty then
    record .joining
    compiled.join
  else throw (.internal (.framesLeft sc.frames.length))

/-- The text of a ruleset with the blocks that it refers to. -/
def Store.css (s : Store) (compact : Bool) (r : Ruleset) : String :=
  Css.print compact r.header (s.rulesOf r.rules)

/-- Compile a document and print it. -/
def compileDocument (sc : Scope) (rules : List Rule) : CompileM String := do
  let root ← compileTree sc (← numberRules rules)
  return (← get).css sc.options.compress root

/-- Compile a style sheet and print it. Without sources, imports stay as they are. -/
def compileToCss (rules : List Rule) (options : Options) (sources : Option Sources) :
    Except Error String :=
  ((compileDocument { options, sources } rules).run.run {}).1

end Stylesheet
