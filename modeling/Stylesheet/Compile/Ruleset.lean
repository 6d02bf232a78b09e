import Stylesheet.Compile.Import
import Stylesheet.Compile.Mixin

/-!
# Compiling rulesets

A ruleset is compiled in steps. Its selectors are filled in. Its imports are replaced, where that
is allowed. Its mixin definitions take hold of the frames around them. Its mixin calls are replaced
by what they expand to, from left to right. Then every other node is compiled, again from left to
right, and at last the media blocks found on the way are wrapped in the selectors.

All along, the frame of the ruleset shows the rules as far as they are known, so that later rules
see what earlier ones became. A frame whose rules change gets a new number.
-/

namespace Stylesheet

/-- Let the mixin definitions among some nodes take hold of the frames around them, unless they
have frames already. -/
def captureFrames (frames : List Ruleset) (nodes : List Node) : List Node :=
  nodes.map fun
    | .definition ⟨signature, rules, none⟩ => .definition ⟨signature, rules, some frames⟩
    | node => node

/-- A rule on its way to being compiled. -/
inductive Slot where
  /-- A node that a mixin call was replaced by, which is compiled already. -/
  | expanded (node : Node)
  /-- A node of the ruleset itself. -/
  | own (node : Node)

/-- The node in a slot. -/
def Slot.node : Slot → Node
  | .expanded node | .own node => node

/-- Whether an expanded node is kept in a frame: a variable that the frame declares is not
declared again. -/
def Ruleset.admits (frame : Ruleset) : Node → Bool
  | .declaration d => !d.isVariable || (frame.binding? d.name).isNone
  | _ => true

/-- Replace the mixin calls among the nodes that are still to come. `inside` is the scope of the
ruleset with a given frame. -/
def expandCalls (expand : Expander) (inside : Ruleset → Scope) (frame : Ruleset)
    (done : List Slot) : List Node → CompileM (Ruleset × List Slot)
  | [] => pure (frame, done)
  | .call c :: nodes => do
    let results ← c.compileWith expand (inside frame)
    let kept := results.filter frame.admits
    let frame ← frame.rebuild (done.map Slot.node ++ kept ++ nodes)
    expandCalls expand inside frame (done ++ kept.map .expanded) nodes
  | node :: nodes => expandCalls expand inside frame (done ++ [.own node]) nodes

/-- Compile rules as a body without selectors. -/
def compileBody (compile : Compiler) (sc : Scope) (rules : List Node) : CompileM (List Node) := do
  let body ← Ruleset.build {} rules none
  return (← compile sc body).rules

/-- Compile a media block. It joins the blocks of the store, after those inside it. -/
def compileMedia (compile : Compiler) (sc : Scope) (head : MediaHead) (rules : List Node) :
    CompileM Node := do
  let rules ← compileBody compile sc rules
  modifyGet fun s => (.block s.blocks.length, { s with blocks := s.blocks ++ [⟨head, rules⟩] })

/-- How a node is compiled in a scope. -/
abbrev NodeCompiler := Scope → Node → CompileM Node

/-- Compile a node that is replaced by exactly one node. A block that was compiled before is
compiled again, as it is by now, and becomes a block of its own. -/
def Node.compileWith (compile : Compiler) (sc : Scope) : Node → CompileM Node
  | .declaration d => do return .declaration (← ofExcept (sc.declaration d))
  | .ruleset r => do return .ruleset (← compile sc r)
  | .media head rules => compileMedia compile sc head rules
  | .block index => do
    match (← get).blocks[index]? with
    | none => return .block index
    | some b => compileMedia compile sc b.head b.rules
  | .directive head (some rules) => do
    return .directive head (some (← compileBody compile sc rules))
  | .call c => throw (.internal (.unexpandedCall c.selector.text))
  | node => pure node

/-- Compile the nodes in the slots that are still to come. Mixin definitions stay as they are. A
ruleset goes back into the frame once it is compiled. -/
def compileSlots (compile : NodeCompiler) (inside : Ruleset → Scope) (frame : Ruleset)
    (done : List Node) : List Slot → CompileM (Ruleset × List Node)
  | [] => pure (frame, done)
  | .expanded node :: slots => compileSlots compile inside frame (done ++ [node]) slots
  | .own (.definition d) :: slots =>
    compileSlots compile inside frame (done ++ [.definition d]) slots
  | .own node :: slots => do
    let compiled ← compile (inside frame) node
    let done := done ++ [compiled]
    match compiled with
    | .ruleset _ =>
      let frame ← frame.rebuild (done ++ slots.map Slot.node)
      compileSlots compile inside frame done slots
    | _ => compileSlots compile inside frame done slots

/-- Wrap the rules of a block in a ruleset. -/
def Block.wrap (selectors : List Selector) (b : Block) : StateM Store Block := do
  return { b with rules := [.ruleset (← Ruleset.build { selectors } b.rules none)] }

/-- Wrap the blocks from a given one on in selectors, if there are any. -/
def bubble (selectors : List Selector) (first : Nat) : StateM Store Unit := do
  let blocks := (← get).blocks
  if selectors.isEmpty || blocks.length ≤ first then return
  record (.bubbling (blocks.length - first) selectors.length)
  let wrapped ← (blocks.drop first).mapM (Block.wrap selectors)
  modify fun s => { s with blocks := blocks.take first ++ wrapped }

/-- Whether the imports of a ruleset are replaced. -/
def Scope.replacesImports (sc : Scope) (h : Header) : Bool :=
  h.root || h.allowImports || !(h.strictImports || sc.options.strictImports)

/-- Compile a ruleset. What is nested in it is compiled by the given compiler. -/
def Ruleset.compileWith (expand : Expander) (compile : Compiler) : Compiler := fun sc r => do
  let selectors ← ofExcept (r.header.selectors.mapM sc.selector)
  record (.compiling selectors r.rules.length)
  let inside (frame : Ruleset) : Scope := sc.enter frame selectors
  let frame ← Ruleset.build { r.header with selectors, paths := [] } r.rules (some r.serial)
  let frame ←
    if sc.replacesImports r.header then
      frame.rebuild (← replaceImports (Import.compile (inside frame)) frame.rules)
    else pure frame
  let frame ← frame.rebuild (captureFrames (inside frame).frames frame.rules)
  let first := (← get).blocks.length
  let (frame, slots) ← expandCalls expand inside frame [] frame.rules
  let (frame, rules) ← compileSlots (Node.compileWith compile) inside frame [] slots
  bubble selectors first
  frame.rebuild rules

end Stylesheet
