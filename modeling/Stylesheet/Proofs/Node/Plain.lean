import Stylesheet.Node.Basic

/-!
# Nodes as plain rules

Numbering the rulesets of a plain tree, or giving them new numbers, leaves the tree as it is.
-/

namespace Stylesheet.Node

theorem toRules_eq_map (nodes : List Node) : toRules nodes = nodes.map toRule := by
  induction nodes with
  | nil => rfl
  | cons node nodes ih => rw [toRules, ih, List.map_cons]

theorem toRules_append (l m : List Node) : toRules (l ++ m) = toRules l ++ toRules m := by
  rw [toRules_eq_map, toRules_eq_map, toRules_eq_map, List.map_append]

mutual

@[simp] theorem toRule_ofRule : ∀ (rule : Rule) (next : Nat),
    ((ofRule rule).run next).1.toRule = rule
  | .declaration _, _ | .call _, _ | .inclusion _, _ | .comment _, _ | .directive _ none, _ => rfl
  | .ruleset header rules, next => congrArg (Rule.ruleset header) (toRules_ofRules rules (next + 1))
  | .definition signature rules, next =>
    congrArg (Rule.definition signature) (toRules_ofRules rules next)
  | .media head rules, next => congrArg (Rule.media head) (toRules_ofRules rules next)
  | .directive head (some rules), next =>
    congrArg (fun rules => Rule.directive head (some rules)) (toRules_ofRules rules next)

@[simp] theorem toRules_ofRules : ∀ (rules : List Rule) (next : Nat),
    toRules ((ofRules rules).run next).1 = rules
  | [], _ => rfl
  | rule :: rules, next => by
    change toRule ((ofRule rule).run next).1 ::
      toRules ((ofRules rules).run ((ofRule rule).run next).2).1 = rule :: rules
    rw [toRule_ofRule rule, toRules_ofRules rules]

end

end Stylesheet.Node
