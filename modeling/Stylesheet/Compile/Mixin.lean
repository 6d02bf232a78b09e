import Stylesheet.Compile.Scope

/-!
# Expanding mixin calls

A call expands every candidate of the innermost frame that has any, except rulesets that are being
compiled and candidates that take another number of arguments. The rules of a candidate are
compiled as a body of their own: what is seen there is first the parameters, then the frames where
the candidate was defined, and then the frames of the call.

How the rules of a candidate are compiled is left open here, since that takes the compiler again.
-/

namespace Stylesheet

/-- How a ruleset is compiled in a scope. -/
abbrev Compiler := Scope → Ruleset → CompileM Ruleset

/-- How a candidate is expanded for a call with the given arguments. -/
abbrev Expander := Scope → MixinCall → List Value → Candidate → CompileM (List Node)

namespace Candidate

/-- The declarations of the parameters from `index` on: the argument where there is one, else the
fallback, which is resolved in the scope of the call. -/
def bindParams (c : Candidate) (sc : Scope) (span : Span) (args : List Value) :
    List Param → List Value → Except Error (List Declaration)
  | [], _ => .ok []
  | p :: params, arg :: rest => do
    return { name := p.name, value := arg, span } :: (← bindParams c sc span args params rest)
  | p :: params, [] =>
    match p.fallback with
    | none => .error (.argumentMismatch c.name args.length span)
    | some fallback => do
      let value ← sc.value fallback span
      return { name := p.name, value, span } :: (← bindParams c sc span args params [])

/-- The declarations that the rules of a candidate see: its parameters, and all arguments in one
value. -/
def bindings (c : Candidate) (sc : Scope) (span : Span) (args : List Value) :
    Except Error (List Declaration) := do
  return (← c.bindParams sc span args c.params args) ++
    [{ name := "@arguments", value := Value.join args }]

end Candidate

/-- The block with all its declarations marked as important. -/
def Block.markImportant (b : Block) : StateM Store Block := do
  let b ← b.renew
  return { b with rules := Node.markAllImportant b.rules }

/-- Mark the declarations of some nodes, and of the blocks from a given one on, as important. -/
def markImportant (first : Nat) (nodes : List Node) : StateM Store (List Node) := do
  let nodes ← renewNodes nodes
  let marked ← ((← get).blocks.drop first).mapM Block.markImportant
  modify fun s => { s with blocks := s.blocks.take first ++ marked }
  return Node.markAllImportant nodes

namespace Expander

/-- The expander that allows no further expansion. -/
def refuse : Expander := fun sc call _ _ =>
  throw (.mixinRecursion call.selector.text sc.options.maxMixinDepth call.span)

/-- The expander that compiles the rules of a candidate with the given compiler. The result refers
only to blocks that the expansion adds. -/
def ofCompiler (compile : Compiler) : Expander := fun sc call args c => do
  let depth := sc.depth + 1
  record (.expanding call.selector depth)
  let bindings ← ofExcept (c.bindings sc call.span args)
  let frame ← Ruleset.build {} (bindings.map .declaration) none
  let body ← Ruleset.build {} c.rules none
  let first := (← get).blocks.length
  let compiled ← compile { sc with frames := frame :: (c.closure ++ sc.frames), depth } body
  if call.important then markImportant first compiled.rules else return compiled.rules

end Expander

/-- Expand candidates one after the other. -/
def expandAll (expand : Candidate → CompileM (List Node)) : List Candidate → CompileM (List Node)
  | [] => pure []
  | c :: candidates => do
    let nodes ← expand c
    return nodes ++ (← expandAll expand candidates)

/-- Whether a call with that many arguments expands the candidate. -/
def Scope.isEligible (sc : Scope) (arity : Nat) (c : Candidate) : Bool :=
  c.accepts arity &&
    match c with
    | .ruleset r => !sc.isCompiling r
    | .definition _ => true

/-- The nodes that replace a mixin call. -/
def MixinCall.compileWith (expand : Expander) (sc : Scope) (call : MixinCall) :
    CompileM (List Node) := do
  let args ← ofExcept (call.args.mapM fun arg => sc.value arg call.span)
  match ← sc.mixin call.selector with
  | none => throw (.mixinNotFound call.selector.text call.span)
  | some candidates =>
    let eligible := candidates.filter (sc.isEligible args.length)
    if eligible.isEmpty then
      throw (.argumentMismatch call.selector.text args.length call.span)
    else
      let nodes ← expandAll (expand sc call args) eligible
      record (.expanded call.selector nodes.length)
      return nodes

end Stylesheet
