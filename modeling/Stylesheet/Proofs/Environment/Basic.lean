import Stylesheet.Compile.Basic

/-!
# Compiling with one environment

The compiler hands scopes inward and keeps the store apart. Here the scope and the
store are one record that every step changes in place: frames are pushed and
popped, the innermost frame is overwritten while its ruleset is compiled, the whole
frame stack is exchanged around the rules of a mixin, and names, paths and the
depth of expansions are put down before a step and taken back after it.

Nothing here keeps a copy of an earlier scope, except around the rules of a mixin,
so whether the scope is right again afterwards depends on every step undoing
exactly what it did, also when something inside it fails.

Loops that end only because of what the environment holds get a count of rounds.
It is read off the environment where the loop starts, and never runs out.
-/

namespace Stylesheet

/-- What a compilation sees and what it leaves behind. -/
structure Environment where
  scope : Scope
  store : Store

/-- A computation with the environment. An error leaves the environment as it is at that point. -/
abbrev EnvironmentM := ExceptT Error (StateM Environment)

namespace Environment

variable {α : Type}

/-- Do something to the store alone. -/
def withStore (x : StateM Store α) : EnvironmentM α :=
  liftM (m := StateM Environment)
    (modifyGet fun env => ((x.run env.store).1, { env with store := (x.run env.store).2 }))

/-- Change the scope. -/
def changeScope (change : Scope → Scope) : StateM Environment Unit :=
  modify fun env => { env with scope := change env.scope }

/-- Change the scope before a computation and change it back after it, however it ends. -/
def between (before after : Scope → Scope) (x : EnvironmentM α) : EnvironmentM α :=
  ExceptT.mk do
    changeScope before
    let result ← x.run
    changeScope after
    return result

/-- Run with other frames, and put the present ones back however it ends. -/
def withFrames (frames : List Ruleset) (x : EnvironmentM α) : EnvironmentM α :=
  ExceptT.mk do
    let saved := (← get).scope.frames
    changeScope fun sc => { sc with frames }
    let result ← x.run
    changeScope fun sc => { sc with frames := saved }
    return result

/-- Run inside a ruleset: its frame and its selectors are pushed, and popped at the end. -/
def inFrame (frame : Ruleset) (selectors : List Selector) (x : EnvironmentM α) : EnvironmentM α :=
  between (·.enter frame selectors) Scope.leave x

/-- Overwrite the innermost frame, if there is one. -/
def replaceTop (frame : Ruleset) : EnvironmentM Unit :=
  liftM (changeScope fun sc =>
    match sc.frames with
    | [] => sc
    | _ :: frames => { sc with frames := frame :: frames })

/-- Run while a variable is being resolved. -/
def resolving (name : String) (x : EnvironmentM α) : EnvironmentM α :=
  between (fun sc => { sc with pending := name :: sc.pending })
    (fun sc => { sc with pending := sc.pending.tail }) x

/-- Run while a path is being imported. -/
def importing (path : String) (x : EnvironmentM α) : EnvironmentM α :=
  between (fun sc => { sc with importing := path :: sc.importing })
    (fun sc => { sc with importing := sc.importing.tail }) x

/-- Run while one more mixin is being expanded. -/
def expanding (x : EnvironmentM α) : EnvironmentM α :=
  between (fun sc => { sc with depth := sc.depth + 1 })
    (fun sc => { sc with depth := sc.depth - 1 })
    x

/-- The value of a variable, in at most so many rounds. -/
def resolveIn : Nat → String → Span → EnvironmentM Value
  | 0, _, _ => throw (.internal .nesting)
  | rounds + 1, name, span => do
    let sc := (← get).scope
    match sc.binding? name with
    | none => throw (.undefinedVariable name span)
    | some d =>
      if name ∈ sc.pending then throw (.recursiveVariable name span)
      else resolving name (d.value.fill fun inner => do
        return (← resolveIn rounds inner d.span).text)

/-- The value of a variable. -/
def resolve (name : String) (span : Span) : EnvironmentM Value := do
  resolveIn ((← get).scope.idleNames.length + 1) name span

/-- The text of a variable. -/
def lookup (span : Span) (name : String) : EnvironmentM String := do
  return (← resolve name span).text

/-- A value with its references resolved. -/
def value (v : Value) (span : Span) : EnvironmentM Value := v.fill (lookup span)

/-- An element with the holes of its value filled. -/
def element (e : Element) : EnvironmentM Element := do
  return { e with value := ← (Value.readHoles e.value).fillText (lookup .unknown) }

/-- A selector with the holes of its elements filled. -/
def selector (s : Selector) : EnvironmentM Selector := do
  return { elements := ← s.elements.mapM element, evaluated := true }

/-- A declaration with its value resolved. -/
def declaration (d : Declaration) : EnvironmentM Declaration := do
  return { d with value := ← value d.value d.span }

/-- Replace the imports among some nodes, from left to right. -/
def replaceImports (replace : Import → EnvironmentM (List Node)) :
    List Node → EnvironmentM (List Node)
  | [] => pure []
  | .inclusion i :: nodes => do
    let replacement ← replace i
    return replacement ++ (← replaceImports replace nodes)
  | node :: nodes => do return node :: (← replaceImports replace nodes)

/-- The nodes that replace an import, in at most so many rounds. -/
def importIn : Nat → Import → EnvironmentM (List Node)
  | 0, _ => throw (.internal .nesting)
  | rounds + 1, i => do
    let sc := (← get).scope
    if i.css then return [.inclusion i]
    else if i.path ∈ sc.importing then throw (.importFailed i.path .recursive i.span)
    else
      match sc.sources with
      | none => return [.inclusion i]
      | some sources =>
        match sources.lookup i.path with
        | none => throw (.importFailed i.path .notFound i.span)
        | some rules =>
          match ← withStore (load i.path rules) with
          | none => return []
          | some nodes => importing i.path (replaceImports (importIn rounds) nodes)

/-- The nodes that replace an import. -/
def compileImport (i : Import) : EnvironmentM (List Node) := do
  importIn ((← get).scope.idlePaths.length + 1) i

/-- How a ruleset is compiled in the environment. -/
abbrev Compiler := Ruleset → EnvironmentM Ruleset

/-- How a candidate is expanded in the environment for a call with the given arguments. -/
abbrev Expander := MixinCall → List Value → Candidate → EnvironmentM (List Node)

/-- The declarations of the parameters of a candidate. -/
def bindParams (c : Candidate) (span : Span) (args : List Value) :
    List Param → List Value → EnvironmentM (List Declaration)
  | [], _ => pure []
  | p :: params, arg :: rest => do
    return { name := p.name, value := arg, span } :: (← bindParams c span args params rest)
  | p :: params, [] =>
    match p.fallback with
    | none => throw (.argumentMismatch c.name args.length span)
    | some fallback => do
      let value ← value fallback span
      return { name := p.name, value, span } :: (← bindParams c span args params [])

/-- The declarations that the rules of a candidate see: its parameters, and all arguments in one
value. -/
def bindings (c : Candidate) (span : Span) (args : List Value) :
    EnvironmentM (List Declaration) := do
  return (← bindParams c span args c.params args) ++
    [{ name := "@arguments", value := Value.join args }]

/-- Compile the rules of a candidate: below its parameters, the frames that it brings along, and the
frames of the call. -/
def expandBody (compile : Compiler) (span : Span) (args : List Value) (c : Candidate) :
    EnvironmentM (Nat × List Node) := do
  let bindings ← bindings c span args
  let frame ← withStore (Ruleset.build {} (bindings.map .declaration) none)
  let body ← withStore (Ruleset.build {} c.rules none)
  let first := (← get).store.blocks.length
  let frames := frame :: (c.closure ++ (← get).scope.frames)
  return (first, (← withFrames frames (compile body)).rules)

/-- Expand a candidate, unless too many expansions are under way. -/
def expandWith (compile : Compiler) : Expander := fun call args c => do
  let sc := (← get).scope
  if sc.options.maxMixinDepth ≤ sc.depth then
    throw (.mixinRecursion call.selector.text sc.options.maxMixinDepth call.span)
  else
    let (first, nodes) ← expanding do
      withStore (record (.expanding call.selector (← get).scope.depth))
      expandBody compile call.span args c
    if call.important then withStore (markImportant first nodes) else return nodes

/-- Expand those of the candidates that a call with that many arguments expands, one after the
other, and say whether there was one. -/
def expandEach (expand : Candidate → EnvironmentM (List Node)) (arity : Nat) :
    List Candidate → EnvironmentM (Bool × List Node)
  | [] => return (false, [])
  | c :: candidates => do
    if (← get).scope.isEligible arity c then
      let nodes ← expand c
      let (_, more) ← expandEach expand arity candidates
      return (true, nodes ++ more)
    else expandEach expand arity candidates

/-- The nodes that replace a mixin call. -/
def callWith (expand : Expander) (call : MixinCall) : EnvironmentM (List Node) := do
  let args ← call.args.mapM fun arg => value arg call.span
  match ← withStore ((← get).scope.mixin call.selector) with
  | none => throw (.mixinNotFound call.selector.text call.span)
  | some candidates =>
    let (matched, nodes) ← expandEach (expand call args) args.length candidates
    if matched then
      withStore (record (.expanded call.selector nodes.length))
      return nodes
    else throw (.argumentMismatch call.selector.text args.length call.span)

/-- Replace the mixin calls among the nodes that are still to come. -/
def expandCalls (expand : Expander) (frame : Ruleset) (done : List Slot) :
    List Node → EnvironmentM (Ruleset × List Slot)
  | [] => return (frame, done)
  | .call c :: nodes => do
    let results ← callWith expand c
    let kept := results.filter frame.admits
    let frame ← withStore (frame.rebuild (done.map Slot.node ++ kept ++ nodes))
    replaceTop frame
    expandCalls expand frame (done ++ kept.map .expanded) nodes
  | node :: nodes => expandCalls expand frame (done ++ [.own node]) nodes

/-- Compile rules as a body without selectors. -/
def compileBody (compile : Compiler) (rules : List Node) : EnvironmentM (List Node) := do
  return (← compile (← withStore (Ruleset.build {} rules none))).rules

/-- Compile a media block. -/
def compileMedia (compile : Compiler) (head : MediaHead) (rules : List Node) :
    EnvironmentM Node := do
  let rules ← compileBody compile rules
  withStore (modifyGet fun s =>
    (.block s.blocks.length, { s with blocks := s.blocks ++ [⟨head, rules⟩] }))

/-- Compile a node that is replaced by exactly one node. -/
def nodeWith (compile : Compiler) : Node → EnvironmentM Node
  | .declaration d => do return .declaration (← declaration d)
  | .ruleset r => do return .ruleset (← compile r)
  | .media head rules => compileMedia compile head rules
  | .block index => do
    match (← get).store.blocks[index]? with
    | none => return .block index
    | some b => compileMedia compile b.head b.rules
  | .directive head (some rules) => do return .directive head (some (← compileBody compile rules))
  | .call c => throw (.internal (.unexpandedCall c.selector.text))
  | node => return node

/-- Compile the nodes in the slots that are still to come. -/
def compileSlots (compile : Compiler) (frame : Ruleset) (done : List Node) :
    List Slot → EnvironmentM (Ruleset × List Node)
  | [] => return (frame, done)
  | .expanded node :: slots => compileSlots compile frame (done ++ [node]) slots
  | .own (.definition d) :: slots => compileSlots compile frame (done ++ [.definition d]) slots
  | .own node :: slots => do
    let compiled ← nodeWith compile node
    match compiled with
    | .ruleset _ =>
      let frame ← withStore (frame.rebuild (done ++ [compiled] ++ slots.map Slot.node))
      replaceTop frame
      compileSlots compile frame (done ++ [compiled]) slots
    | _ => compileSlots compile frame (done ++ [compiled]) slots

/-- Wrap the blocks from a given one on in the innermost selectors. -/
def bubble (first : Nat) : EnvironmentM Unit := do
  match (← get).scope.selectors with
  | [] => return
  | selectors :: _ => withStore (Stylesheet.bubble selectors first)

/-- Compile the rules of a ruleset from its frame on: the calls, the other nodes, the blocks. -/
def fillFrame (expand : Expander) (compile : Compiler) (frame : Ruleset) :
    EnvironmentM Ruleset := do
  let first := (← get).store.blocks.length
  let (frame, slots) ← expandCalls expand frame [] frame.rules
  let (frame, rules) ← compileSlots compile frame [] slots
  bubble first
  withStore (frame.rebuild rules)

/-- Let the definitions of a ruleset take hold of the frames, and compile its rules. -/
def captureInside (expand : Expander) (compile : Compiler) (home : Ruleset) :
    EnvironmentM Ruleset := do
  let frame ← withStore (home.rebuild (captureFrames (← get).scope.frames home.rules))
  replaceTop frame
  fillFrame expand compile frame

/-- Compile a ruleset inside its own frame, which is overwritten as its rules become known. -/
def compileInside (expand : Expander) (compile : Compiler) (replaces : Bool) (frame : Ruleset) :
    EnvironmentM Ruleset := do
  if replaces then
    let home ← withStore (frame.rebuild (← replaceImports compileImport frame.rules))
    replaceTop home
    captureInside expand compile home
  else captureInside expand compile frame

/-- Compile a ruleset. What is nested in it is compiled by the given compiler. -/
def compileWith (expand : Expander) (compile : Compiler) : Compiler := fun r => do
  let selectors ← r.header.selectors.mapM selector
  withStore (record (.compiling selectors r.rules.length))
  let replaces := (← get).scope.replacesImports r.header
  let frame ← withStore
    (Ruleset.build { r.header with selectors, paths := [] } r.rules (some r.serial))
  inFrame frame selectors (compileInside expand compile replaces frame)

/-- Compile rulesets that are nested at most so deep. -/
def nested (expand : Expander) : Nat → Compiler
  | 0 => fun _ => throw (.internal .nesting)
  | levels + 1 => compileWith expand (nested expand levels)

/-- Compile rulesets with the given expander for mixin calls. -/
def compiler (expand : Expander) : Compiler := fun r => do
  let env ← get
  nested expand (env.scope.levels env.store r.rules) r

/-- Expand candidates, in at most so many rounds inside each other. -/
def expandIn : Nat → Expander
  | 0 => fun _ _ _ => throw (.internal .nesting)
  | rounds + 1 => expandWith (compiler (expandIn rounds))

/-- Compile a ruleset. -/
def compileRuleset (r : Ruleset) : EnvironmentM Ruleset := do
  compiler (expandIn ((← get).scope.budget + 1)) r

/-- Compile a node that is replaced by exactly one node. -/
def compileNode (node : Node) : EnvironmentM Node := do
  nodeWith (compiler (expandIn ((← get).scope.budget + 1))) node

/-- The nodes that replace a mixin call. -/
def compileCall (call : MixinCall) : EnvironmentM (List Node) := do
  callWith (expandIn ((← get).scope.budget + 1)) call

/-- Do something with the store alone that may fail. -/
def tryStore (x : CompileM α) : EnvironmentM α := do
  match ← withStore x.run with
  | .ok a => return a
  | .error e => throw e

/-- Compile a document and join its selectors, if all frames have been popped by then. -/
def compileTree (rules : List Node) : EnvironmentM Ruleset := do
  let compiled ← compileRuleset (← withStore (Ruleset.document rules))
  let frames := (← get).scope.frames
  if frames.isEmpty then
    withStore (record .joining)
    tryStore compiled.join
  else throw (.internal (.framesLeft frames.length))

/-- Compile a document and print it. -/
def compileDocument (rules : List Rule) : EnvironmentM String := do
  let root ← compileTree (← withStore (numberRules rules))
  let env ← get
  return env.store.css env.scope.options.compress root

end Environment

end Stylesheet
