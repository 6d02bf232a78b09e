import Stylesheet.Compile.Store
import Stylesheet.Node.Join
import Stylesheet.Proofs.Css.Pruned
import Stylesheet.Proofs.Except

/-!
# Bare nodes

The numbers of rulesets and all mixin definitions are of no use once a document is
compiled. A bare node is without them. Joining selectors, writing blocks out and printing
do the same with bare nodes as with the nodes they come from.
-/

namespace Stylesheet

namespace Node

/-- Whether the node is a mixin definition. -/
def isDefinition : Node → Bool
  | .definition _ => true
  | _ => false

mutual

/-- The node without numbers and mixin definitions inside. -/
def bare : Node → Node
  | .ruleset ⟨_, _, header, rules⟩ => .ruleset ⟨0, none, header, bareAll rules⟩
  | .definition ⟨signature, _, _⟩ => .definition ⟨signature, [], none⟩
  | .media head rules => .media head (bareAll rules)
  | .directive head (some rules) => .directive head (some (bareAll rules))
  | node => node

/-- The nodes without numbers and mixin definitions. -/
def bareAll : List Node → List Node
  | [] => []
  | node :: nodes => if node.isDefinition then bareAll nodes else bare node :: bareAll nodes

end

variable {n : Node} {nodes : List Node}

theorem bareAll_cons_definition (h : n.isDefinition = true) :
    bareAll (n :: nodes) = bareAll nodes := by rw [bareAll, if_pos h]

theorem bareAll_cons (h : n.isDefinition = false) :
    bareAll (n :: nodes) = bare n :: bareAll nodes := by
  rw [bareAll, if_neg (ne_true_of_eq_false h)]

theorem isDefinition_renew (n : Node) (next : Nat) :
    ((renew n).run next).1.isDefinition = n.isDefinition := by
  cases n with
  | ruleset r =>
    obtain ⟨serial, source, header, rules⟩ := r
    rfl
  | directive head rules => cases rules <;> rfl
  | _ => rfl

mutual

theorem bare_renew : ∀ (n : Node) (next : Nat), ((renew n).run next).1.bare = n.bare
  | .ruleset ⟨_, _, header, rules⟩, next => by
    exact congrArg (fun rules => Node.ruleset ⟨0, none, header, rules⟩)
      (bareAll_renewAll rules (next + 1))
  | .media head rules, next => congrArg (Node.media head) (bareAll_renewAll rules next)
  | .directive head (some rules), next =>
    congrArg (fun rules => Node.directive head (some rules)) (bareAll_renewAll rules next)
  | .declaration _, _ | .definition _, _ | .call _, _ | .inclusion _, _ | .comment _, _
  | .block _, _ | .directive _ none, _ => rfl

theorem bareAll_renewAll : ∀ (nodes : List Node) (next : Nat),
    bareAll ((renewAll nodes).run next).1 = bareAll nodes
  | [], _ => rfl
  | n :: nodes, next => by
    change bareAll (((renew n).run next).1 :: ((renewAll nodes).run ((renew n).run next).2).1) = _
    rw [bareAll, bareAll, isDefinition_renew, bare_renew n next, bareAll_renewAll nodes]

end

mutual

theorem blockIndices_bare : ∀ n : Node, n.bare.blockIndices = n.blockIndices
  | .ruleset ⟨_, _, _, rules⟩ | .media _ rules | .directive _ (some rules) =>
    allBlockIndices_bareAll rules
  | .declaration _ | .definition ⟨_, _, _⟩ | .call _ | .inclusion _ | .comment _ | .block _
  | .directive _ none => rfl

theorem allBlockIndices_bareAll : ∀ nodes : List Node,
    allBlockIndices (bareAll nodes) = allBlockIndices nodes
  | [] => rfl
  | n :: nodes => by
    cases hdefinition : n.isDefinition with
    | true =>
      rw [bareAll_cons_definition hdefinition, allBlockIndices_bareAll nodes, allBlockIndices]
      cases n with
      | definition d => rfl
      | _ => cases hdefinition
    | false =>
      rw [bareAll_cons hdefinition, allBlockIndices, allBlockIndices, blockIndices_bare n,
        allBlockIndices_bareAll nodes]

end

section Joining

theorem isDefinition_join {context : List Path} {m : Node} (h : join context n = .ok m) :
    m.isDefinition = n.isDefinition := by
  cases n with
  | ruleset r =>
    obtain ⟨serial, source, header, rules⟩ := r
    rw [join] at h
    obtain ⟨paths, -, h⟩ := bind_eq_ok_iff.1 h
    obtain ⟨joined, -, ⟨⟩⟩ := bind_eq_ok_iff.1 h
    rfl
  | media head rules =>
    rw [join] at h
    obtain ⟨joined, -, ⟨⟩⟩ := bind_eq_ok_iff.1 h
    rfl
  | directive head rules =>
    cases rules with
    | none =>
      cases h
      rfl
    | some rules =>
      rw [join] at h
      obtain ⟨joined, -, ⟨⟩⟩ := bind_eq_ok_iff.1 h
      rfl
  | _ =>
    cases h
    rfl

mutual

/-- Bare nodes are joined like the nodes they come from. -/
theorem join_bare : ∀ (n : Node) (context : List Path),
    join context n.bare = (join context n).map bare
  | .ruleset ⟨serial, source, header, rules⟩, context => by
    rw [bare, join, join]
    cases header.join context with
    | error e => rfl
    | ok joined =>
      obtain ⟨paths, inner⟩ := joined
      rw [ok_bind, ok_bind]
      dsimp only
      rw [joinAll_bareAll rules inner]
      cases joinAll inner rules with
      | error e => rfl
      | ok nodes => rfl
  | .media head rules, _ => by
    rw [bare, join, join, joinAll_bareAll rules []]
    cases joinAll [] rules with
    | error e => rfl
    | ok nodes => rfl
  | .directive head (some rules), _ => by
    rw [bare, join, join, joinAll_bareAll rules []]
    cases joinAll [] rules with
    | error e => rfl
    | ok nodes => rfl
  | .definition ⟨_, _, _⟩, _ | .declaration _, _ | .call _, _ | .inclusion _, _ | .comment _, _
  | .block _, _ | .directive _ none, _ => rfl

theorem joinAll_bareAll : ∀ (nodes : List Node) (context : List Path),
    joinAll context (bareAll nodes) = (joinAll context nodes).map bareAll
  | [], _ => rfl
  | n :: nodes, context => by
    have hrest := joinAll_bareAll nodes context
    rw [joinAll]
    cases hn : join context n with
    | error e =>
      have hdefinition : n.isDefinition = false := by
        cases n with
        | definition d => cases hn
        | _ => rfl
      rw [bareAll_cons hdefinition, joinAll, join_bare n context, hn]
      rfl
    | ok m =>
      have hm := isDefinition_join hn
      rw [ok_bind]
      cases hdefinition : n.isDefinition with
      | true =>
        rw [bareAll_cons_definition hdefinition, hrest]
        cases joinAll context nodes with
        | error e => rfl
        | ok joined =>
          exact congrArg Except.ok (bareAll_cons_definition (hm.trans hdefinition)).symm
      | false =>
        rw [bareAll_cons hdefinition, joinAll, join_bare n context, hn, hrest]
        cases joinAll context nodes with
        | error e => rfl
        | ok joined => exact congrArg Except.ok (bareAll_cons (hm.trans hdefinition)).symm

end

end Joining

section Inlining

variable {contents : List Node}

theorem isDefinition_inline (hcontents : ∀ m ∈ contents, m.isDefinition = false) (n : Node) :
    (inline contents n).isDefinition = n.isDefinition := by
  cases n with
  | ruleset r =>
    obtain ⟨serial, source, header, rules⟩ := r
    rfl
  | block index =>
    rw [inline]
    cases hm : contents[index]? with
    | none => rfl
    | some m => exact hcontents m (List.mem_of_getElem? hm)
  | directive head rules => cases rules <;> rfl
  | _ => rfl

mutual

theorem inline_bare (hcontents : ∀ m ∈ contents, m.isDefinition = false) :
    ∀ n : Node, inline (contents.map bare) n.bare = (inline contents n).bare
  | .ruleset ⟨_, _, header, rules⟩ =>
    congrArg (fun rules => Node.ruleset ⟨0, none, header, rules⟩)
      (inlineAll_bareAll hcontents rules)
  | .media head rules => congrArg (Node.media head) (inlineAll_bareAll hcontents rules)
  | .directive head (some rules) =>
    congrArg (fun rules => Node.directive head (some rules)) (inlineAll_bareAll hcontents rules)
  | .block index => by
    change ((contents.map bare)[index]?).getD (.block index) =
      ((contents[index]?).getD (.block index)).bare
    rw [List.getElem?_map]
    cases contents[index]? <;> rfl
  | .definition ⟨_, _, _⟩ | .declaration _ | .call _ | .inclusion _ | .comment _
  | .directive _ none => rfl

/-- Blocks are written out in bare nodes like in the nodes they come from. -/
theorem inlineAll_bareAll (hcontents : ∀ m ∈ contents, m.isDefinition = false) :
    ∀ nodes : List Node, inlineAll (contents.map bare) (bareAll nodes) =
      bareAll (inlineAll contents nodes)
  | [] => rfl
  | n :: nodes => by
    have hn := isDefinition_inline hcontents n
    rw [inlineAll]
    cases hdefinition : n.isDefinition with
    | true =>
      rw [bareAll_cons_definition hdefinition, bareAll_cons_definition (hn.trans hdefinition),
        inlineAll_bareAll hcontents nodes]
    | false =>
      rw [bareAll_cons hdefinition, bareAll_cons (hn.trans hdefinition), inlineAll,
        inline_bare hcontents n, inlineAll_bareAll hcontents nodes]

end

end Inlining

section Printing

variable {compact : Bool}

theorem isVisible_eq_false_of_isDefinition (h : n.isDefinition = true) :
    n.toRule.isVisible compact = false := by
  cases n with
  | definition d =>
    obtain ⟨signature, rules, closure⟩ := d
    rfl
  | _ => cases h

mutual

theorem isVisible_toRule_bare : ∀ n : Node,
    n.bare.toRule.isVisible compact = n.toRule.isVisible compact
  | .ruleset ⟨_, _, _, rules⟩ | .media _ rules => anyVisible_toRules_bareAll rules
  | .definition ⟨_, _, _⟩ | .declaration _ | .call _ | .inclusion _ | .comment _ | .block _
  | .directive _ none | .directive _ (some _) => rfl

theorem anyVisible_toRules_bareAll : ∀ nodes : List Node,
    Rule.anyVisible compact (toRules (bareAll nodes)) = Rule.anyVisible compact (toRules nodes)
  | [] => rfl
  | n :: nodes => by
    cases hdefinition : n.isDefinition with
    | true =>
      rw [bareAll_cons_definition hdefinition, anyVisible_toRules_bareAll nodes, toRules,
        Rule.anyVisible, isVisible_eq_false_of_isDefinition hdefinition, Bool.false_or]
    | false =>
      rw [bareAll_cons hdefinition, toRules, toRules, Rule.anyVisible, Rule.anyVisible,
        isVisible_toRule_bare n, anyVisible_toRules_bareAll nodes]

end

mutual

theorem prune_toRule_bare : ∀ n : Node, n.isDefinition = false →
    n.bare.toRule.prune compact = n.toRule.prune compact
  | .ruleset ⟨_, _, header, rules⟩, _ =>
    congrArg (Rule.ruleset header) (pruneAll_toRules_bareAll rules)
  | .media head rules, _ => congrArg (Rule.media head) (pruneAll_toRules_bareAll rules)
  | .directive head (some rules), _ =>
    congrArg (fun rules => Rule.directive head (some rules)) (pruneAll_toRules_bareAll rules)
  | .declaration _, _ | .call _, _ | .inclusion _, _ | .comment _, _ | .block _, _
  | .directive _ none, _ => rfl

/-- Bare nodes print like the nodes they come from. -/
theorem pruneAll_toRules_bareAll : ∀ nodes : List Node,
    Rule.pruneAll compact (toRules (bareAll nodes)) = Rule.pruneAll compact (toRules nodes)
  | [] => rfl
  | n :: nodes => by
    cases hdefinition : n.isDefinition with
    | true =>
      rw [bareAll_cons_definition hdefinition, pruneAll_toRules_bareAll nodes, toRules,
        Rule.pruneAll, isVisible_eq_false_of_isDefinition hdefinition, if_neg Bool.false_ne_true]
    | false =>
      rw [bareAll_cons hdefinition, toRules, toRules, Rule.pruneAll, Rule.pruneAll,
        isVisible_toRule_bare n, prune_toRule_bare n hdefinition, pruneAll_toRules_bareAll nodes]

end

end Printing

end Node

end Stylesheet
