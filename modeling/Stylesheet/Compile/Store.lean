import Stylesheet.Compile.Event
import Stylesheet.Error
import Stylesheet.Node.Candidate

/-!
# The store

The store is what a compilation leaves behind, also when it fails: the media blocks it compiled,
the paths it imported, the answers to lookups, the numbers it gave out, and the record of its steps.

Media blocks are referred to by their number in the list of blocks. The rules of a block refer only
to blocks before it, so each block can be written out in full once those before it are.
-/

namespace Stylesheet

/-- A media block that was compiled. -/
structure Block where
  head : MediaHead
  rules : List Node

/-- The answers to earlier lookups, by the number of the ruleset and the text of the selector. -/
abbrev Memo := List ((Nat × String) × List Candidate)

/-- What a compilation leaves behind. -/
structure Store where
  /-- The next number for a ruleset. -/
  nextSerial : Nat := 0
  /-- The media blocks, in the order in which they were finished. -/
  blocks : List Block := []
  /-- How many of the blocks come from before the present table of sources was installed. -/
  inherited : Nat := 0
  /-- The paths that were imported. -/
  imported : List String := []
  memo : Memo := []
  /-- The steps so far, the last one first. -/
  log : List Event := []

/-- A computation with the store. An error leaves the store as it is at that point. -/
abbrev CompileM := ExceptT Error (StateM Store)

namespace Store

/-- The blocks of the present compilation. -/
def media (s : Store) : List Block := s.blocks.drop s.inherited

/-- The record of the steps, the first one first. -/
def events (s : Store) : List Event := s.log.reverse

/-- Record a step. -/
def record (s : Store) (e : Event) : Store := { s with log := e :: s.log }

/-- The answer to an earlier lookup. -/
def remembered? (s : Store) (serial : Nat) (key : String) : Option (List Candidate) :=
  s.memo.lookup (serial, key)

/-- Keep the answer to a lookup. -/
def remember (s : Store) (serial : Nat) (key : String) (found : List Candidate) : Store :=
  { s with memo := ((serial, key), found) :: s.memo }

/-- Drop the answers to the lookups in one ruleset. -/
def forget (s : Store) (serial : Nat) : Store :=
  { s with memo := s.memo.filter (·.1.1 ≠ serial) }

/-- Run a numbering with the free numbers of the store. -/
def numbered {α : Type} (s : Store) (number : StateM Nat α) : α × Store :=
  let (a, next) := number.run s.nextSerial
  (a, { s with nextSerial := next })

/-- The store for a new table of sources. What refers to the blocks may go on to do so, but they
are not blocks of the new compilation. -/
def restart (s : Store) : Store := { s with inherited := s.blocks.length, imported := [] }

/-- Each block written out as a media node, with the blocks inside it written out as well. -/
def contents (s : Store) : List Node :=
  s.blocks.foldl (fun nodes b => nodes ++ [.media b.head (Node.inlineAll nodes b.rules)]) []

/-- The height of each block, with the blocks inside it. -/
def blockHeights (s : Store) : List Nat :=
  s.blocks.foldl (fun heights b => heights ++ [Node.heights heights b.rules + 1]) []

/-- The greatest height of some nodes, with the blocks that they refer to. -/
def heights (s : Store) (nodes : List Node) : Nat := Node.heights s.blockHeights nodes

/-- The plain rules of some nodes, with the blocks written out. -/
def rulesOf (s : Store) (nodes : List Node) : List Rule :=
  Node.toRules (Node.inlineAll s.contents nodes)

/-- The numbers of the blocks that some nodes refer to, directly or through other blocks. -/
def reachable (s : Store) (nodes : List Node) : List Nat :=
  s.blocks.zipIdx.foldr
    (fun (b, index) reached =>
      if reached.contains index then Node.allBlockIndices b.rules ++ reached else reached)
    (Node.allBlockIndices nodes)

/-- The blocks, of which those that some nodes refer to are changed, in their order. -/
def mapReachable {m : Type → Type} [Monad m] (s : Store) (nodes : List Node)
    (change : Block → m Block) : m (List Block) :=
  let reached := s.reachable nodes
  s.blocks.zipIdx.mapM fun (b, index) => if reached.contains index then change b else pure b

end Store

/-- Record a step. -/
def record (e : Event) : StateM Store Unit := modify (·.record e)

/-- Run a numbering with the free numbers of the store. -/
def numbering {α : Type} (number : StateM Nat α) : StateM Store α :=
  modifyGet (·.numbered number)

/-- A free number for a ruleset. -/
def freshSerial : StateM Store Nat := numbering (modifyGet fun n => (n, n + 1))

/-- The nodes of some rules, with numbers of their own. -/
def numberRules (rules : List Rule) : StateM Store (List Node) := numbering (Node.ofRules rules)

/-- The same nodes with new numbers. -/
def renewNodes (nodes : List Node) : StateM Store (List Node) := numbering (Node.renewAll nodes)

/-- A ruleset with a number of its own around some rules. -/
def Ruleset.build (header : Header) (rules : List Node) (source : Option Nat) :
    StateM Store Ruleset := do
  return { serial := ← freshSerial, source, header, rules }

/-- The same block with new numbers for its rulesets. -/
def Block.renew (b : Block) : StateM Store Block := do
  return { b with rules := ← renewNodes b.rules }

/-- The same ruleset with new numbers for itself and for all rulesets in it, also in the blocks that
it refers to. -/
def Ruleset.renew (r : Ruleset) : StateM Store Ruleset := do
  let rules ← renewNodes r.rules
  let blocks ← (← get).mapReachable r.rules Block.renew
  modify fun s => { s with blocks }
  Ruleset.build r.header rules r.source

/-- The same ruleset around other rules, with a number of its own. -/
def Ruleset.rebuild (r : Ruleset) (rules : List Node) : StateM Store Ruleset :=
  Ruleset.build r.header rules r.source

end Stylesheet
