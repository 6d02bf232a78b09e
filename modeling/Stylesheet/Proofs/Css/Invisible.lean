import Stylesheet.Proofs.Css.Hoisted
import Stylesheet.Proofs.Css.Pruned

/-!
# Nodes that print nothing

A style sheet is printed from its nodes and from the blocks of the store that they refer to. A node
is visible if the rule that it reads as is, so whether a ruleset is visible depends on the blocks
that it leads to. All nodes that are not visible can be taken out, those in the blocks included,
and the text stays as it is.
-/

namespace Stylesheet

namespace Rule

/-- The rule stands among the rules or somewhere inside them, but not in a mixin definition. -/
inductive Inside (rule : Rule) : List Rule → Prop
  | here {rules : List Rule} (hrule : rule ∈ rules) : Inside rule rules
  | ruleset {header : Header} {body rules : List Rule} (hbody : Inside rule body)
      (hrules : .ruleset header body ∈ rules) : Inside rule rules
  | media {head : MediaHead} {body rules : List Rule} (hbody : Inside rule body)
      (hrules : .media head body ∈ rules) : Inside rule rules
  | directive {head : DirectiveHead} {body rules : List Rule} (hbody : Inside rule body)
      (hrules : .directive head (some body) ∈ rules) : Inside rule rules

variable {compact : Bool}

theorem mem_pruneAll_iff {rule : Rule} {rules : List Rule} :
    rule ∈ pruneAll compact rules ↔
      ∃ old ∈ rules, old.isVisible compact = true ∧ rule = old.prune compact := by
  induction rules with
  | nil => simp [pruneAll]
  | cons old rules ih =>
    rw [pruneAll, List.exists_mem_cons_iff, ← ih]
    split
    next hvisible => rw [List.mem_cons, and_iff_right hvisible]
    next hvisible => simp [hvisible]

/-- All that is left of some rules is visible, at any depth. -/
theorem isVisible_of_inside_pruneAll {rule : Rule} {rules : List Rule}
    (h : rule.Inside (pruneAll compact rules)) : rule.isVisible compact = true := by
  generalize hpruned : pruneAll compact rules = pruned at h
  induction h generalizing rules with
  | here hrule =>
    subst hpruned
    obtain ⟨old, -, hvisible, rfl⟩ := mem_pruneAll_iff.1 hrule
    rwa [isVisible_prune]
  | ruleset _ hrules ih =>
    subst hpruned
    obtain ⟨old, -, -, hold⟩ := mem_pruneAll_iff.1 hrules
    cases old with
    | ruleset header body => exact ih (Rule.ruleset.inj hold).2.symm
    | directive head body => cases body <;> cases hold
    | _ => cases hold
  | media _ hrules ih =>
    subst hpruned
    obtain ⟨old, -, -, hold⟩ := mem_pruneAll_iff.1 hrules
    cases old with
    | media head body => exact ih (Rule.media.inj hold).2.symm
    | directive head body => cases body <;> cases hold
    | _ => cases hold
  | directive _ hrules ih =>
    subst hpruned
    obtain ⟨old, -, -, hold⟩ := mem_pruneAll_iff.1 hrules
    cases old with
    | directive head body =>
      cases body with
      | none => cases hold
      | some body => exact ih (Option.some.inj (Rule.directive.inj hold).2).symm
    | _ => cases hold

end Rule

namespace Node

mutual

/-- The node without the nodes inside that print nothing, where `look` says what a block reads
as. -/
def prune (compact : Bool) (look : Nat → Rule) : Node → Node
  | .ruleset ⟨serial, source, header, rules⟩ =>
    .ruleset ⟨serial, source, header, pruneAll compact look rules⟩
  | .media head rules => .media head (pruneAll compact look rules)
  | .directive head (some rules) => .directive head (some (pruneAll compact look rules))
  | node => node

/-- The nodes that print something, without what prints nothing inside. -/
def pruneAll (compact : Bool) (look : Nat → Rule) : List Node → List Node
  | [] => []
  | node :: nodes =>
    if (node.read look).isVisible compact then
      prune compact look node :: pruneAll compact look nodes
    else pruneAll compact look nodes

end

variable {compact : Bool} {look look' : Nat → Rule}

mutual

/-- What is left of a node reads as what is left of its rule, if that is so for the blocks. -/
theorem read_prune (hlook : ∀ index, look' index = (look index).prune compact) :
    ∀ n : Node, (n.prune compact look).read look' = (n.read look).prune compact
  | .block index => hlook index
  | .ruleset ⟨_, _, header, rules⟩ =>
    congrArg (Rule.ruleset header) (readAll_pruneAll hlook rules)
  | .media head rules => congrArg (Rule.media head) (readAll_pruneAll hlook rules)
  | .directive head (some rules) =>
    congrArg (fun rules => Rule.directive head (some rules)) (readAll_pruneAll hlook rules)
  | .declaration _ | .definition ⟨_, _, _⟩ | .call _ | .inclusion _ | .comment _
  | .directive _ none => rfl

theorem readAll_pruneAll (hlook : ∀ index, look' index = (look index).prune compact) :
    ∀ nodes : List Node,
      readAll look' (pruneAll compact look nodes) = Rule.pruneAll compact (readAll look nodes)
  | [] => rfl
  | n :: nodes => by
    rw [pruneAll, readAll, Rule.pruneAll]
    split
    · rw [readAll, read_prune hlook n, readAll_pruneAll hlook nodes]
    · exact readAll_pruneAll hlook nodes

end

end Node

/-- The blocks without the nodes that print nothing. Each is read with the blocks before it. -/
def pruneBlocks (compact : Bool) (blocks : List Block) : List Block :=
  blocks.mapIdx fun index b =>
    { b with rules := Node.pruneAll compact (lookBelow index (readBlocks blocks)) b.rules }

/-- What is left of a block reads as what is left of its rule. -/
theorem readBlocks_pruneBlocks (compact : Bool) (blocks : List Block) (index : Nat) :
    readBlocks (pruneBlocks compact blocks) index = (readBlocks blocks index).prune compact := by
  induction index using Nat.strongRecOn with
  | ind index ih =>
    by_cases hindex : index < blocks.length
    · have hold : blocks[index]? = some blocks[index] := List.getElem?_eq_getElem hindex
      have hnew : (pruneBlocks compact blocks)[index]? =
          some { blocks[index] with
            rules := Node.pruneAll compact (lookBelow index (readBlocks blocks))
              blocks[index].rules } := by
        rw [pruneBlocks, List.getElem?_mapIdx, hold, Option.map_some]
      have hbelow : ∀ i, lookBelow index (readBlocks (pruneBlocks compact blocks)) i =
          (lookBelow index (readBlocks blocks) i).prune compact := by
        intro i
        by_cases hi : i < index
        · rw [lookBelow_of_lt _ hi, lookBelow_of_lt _ hi, ih i hi]
        · rw [lookBelow_of_le _ (Nat.not_lt.1 hi), lookBelow_of_le _ (Nat.not_lt.1 hi)]
          rfl
      rw [readBlocks_of_getElem? hnew, readBlocks_of_getElem? hold, Rule.prune,
        Node.readAll_pruneAll hbelow]
    · have hle : blocks.length ≤ index := Nat.not_lt.1 hindex
      rw [readBlocks_of_le hle, readBlocks_of_le (by rwa [pruneBlocks, List.length_mapIdx])]
      rfl

namespace Store

/-- The store with only the nodes in its blocks that print something. -/
def prune (s : Store) (compact : Bool) : Store :=
  { s with blocks := pruneBlocks compact s.blocks }

/-- The ruleset with only the nodes that print something, given the blocks of the store. -/
def pruneRuleset (s : Store) (compact : Bool) (r : Ruleset) : Ruleset :=
  { r with rules := Node.pruneAll compact (readBlocks s.blocks) r.rules }

theorem rulesOf_prune (s : Store) (compact : Bool) (nodes : List Node) :
    (s.prune compact).rulesOf (Node.pruneAll compact (readBlocks s.blocks) nodes) =
      Rule.pruneAll compact (s.rulesOf nodes) := by
  rw [rulesOf_eq_readAll, rulesOf_eq_readAll]
  exact Node.readAll_pruneAll (readBlocks_pruneBlocks compact s.blocks) nodes

/-- Nodes that are not visible leave no trace in the text. What is left without them, in the tree
and in the blocks, is visible at every depth. -/
theorem css_prune (s : Store) (compact : Bool) (r : Ruleset) :
    (s.prune compact).css compact (s.pruneRuleset compact r) = s.css compact r ∧
      ∀ rule : Rule, rule.Inside ((s.prune compact).rulesOf (s.pruneRuleset compact r).rules) →
        rule.isVisible compact = true := by
  rw [css, css, pruneRuleset, rulesOf_prune]
  refine ⟨?_, fun rule => Rule.isVisible_of_inside_pruneAll⟩
  -- The ruleset itself is printed in any case, and only its rules are looked at.
  exact congrFun (Css.ruleCss_prune (.ruleset r.header (s.rulesOf r.rules))) { fresh := true }

end Store

namespace Css

/-- A store with the block `@media print { @w: 1; .c {} .d { width: 0; } }`. -/
def spare : Store where
  blocks := [⟨{ features := "print" },
    [.declaration { name := "@w", value := .literal "1" }, .ruleset (classRuleset 1 ".c" []),
      .ruleset (classRuleset 2 ".d" [width "0"])]⟩]

/-- A document with that block, in which a ruleset ends with a comment and with another ruleset that
holds only a silent one. -/
def spareSheet : Ruleset where
  serial := 3
  source := none
  header := Header.document
  rules := [.definition ⟨{ name := { elements := [⟨.compound, ".m"⟩] } }, [width "2"], none⟩,
    .ruleset (classRuleset 4 ".a" [width "1", .comment { text := "/* a */" },
      .ruleset (classRuleset 5 ".b" [.comment { text := "// b", silent := true }])]), .block 0]

end Css

/-- In compact output, what is taken out includes a comment behind the last declaration of a body
and the last block of one. -/
theorem Store.css_prune_spareSheet :
    Css.spare.css true Css.spareSheet =
      ".a\x7bwidth:1\x7d@media print\x7b.d\x7bwidth:0\x7d\x7d" ∧
    (Css.spare.prune true).css true (Css.spare.pruneRuleset true Css.spareSheet) =
      Css.spare.css true Css.spareSheet ∧
    Node.allBlockIndices (Css.spare.pruneRuleset true Css.spareSheet).rules = [0] ∧
    (Css.spare.pruneRuleset true Css.spareSheet).rules.length = 2 ∧
    (Css.spare.prune true).blocks.map (·.rules.length) = [1] :=
  ⟨by decide +kernel, (Store.css_prune Css.spare true Css.spareSheet).1, by decide +kernel,
    by decide +kernel, by decide +kernel⟩

end Stylesheet
