import Stylesheet.Node.Basic

/-!
# Numbers are given out upwards

Numbering rules and renewing the numbers of nodes go through the free numbers from the
next one on, and never back. So every ruleset that gets a number from some point on gets
one that was free at that point.
-/

namespace Stylesheet.Node

variable {nodes : List Node}

mutual

theorem le_next_ofRule : ∀ (rule : Rule) (next : Nat), next ≤ ((ofRule rule).run next).2
  | .declaration _, next | .call _, next | .inclusion _, next | .comment _, next
  | .directive _ none, next => Nat.le_refl next
  | .ruleset _ rules, next => Nat.le_trans (Nat.le_succ next) (le_next_ofRules rules (next + 1))
  | .definition _ rules, next | .media _ rules, next | .directive _ (some rules), next =>
    le_next_ofRules rules next

theorem le_next_ofRules : ∀ (rules : List Rule) (next : Nat), next ≤ ((ofRules rules).run next).2
  | [], next => Nat.le_refl next
  | rule :: rules, next => Nat.le_trans (le_next_ofRule rule next) (le_next_ofRules rules _)

end

mutual

theorem le_next_renew : ∀ (n : Node) (next : Nat), next ≤ ((renew n).run next).2
  | .ruleset ⟨_, _, _, rules⟩, next =>
    Nat.le_trans (Nat.le_succ next) (le_next_renewAll rules (next + 1))
  | .media _ rules, next | .directive _ (some rules), next => le_next_renewAll rules next
  | .declaration _, next | .definition _, next | .call _, next | .inclusion _, next
  | .comment _, next | .block _, next | .directive _ none, next => Nat.le_refl next

theorem le_next_renewAll : ∀ (nodes : List Node) (next : Nat),
    next ≤ ((renewAll nodes).run next).2
  | [], next => Nat.le_refl next
  | n :: nodes, next => Nat.le_trans (le_next_renew n next) (le_next_renewAll nodes _)

end

/-- What holds of every rule that is numbered from `start` or later on holds of all nodes. -/
theorem forall_ofRules {P : Node → Prop} {rules : List Rule} {start next : Nat}
    (h : ∀ rule ∈ rules, ∀ next, start ≤ next → P ((ofRule rule).run next).1)
    (hstart : start ≤ next) : ∀ m ∈ ((ofRules rules).run next).1, P m := by
  induction rules generalizing next with
  | nil => exact fun m hm => by cases hm
  | cons rule rules ih =>
    intro m hm
    rcases List.mem_cons.1 hm with rfl | hm
    · exact h rule (by simp) next hstart
    · exact ih (fun r hr => h r (by simp [hr]))
        (Nat.le_trans hstart (le_next_ofRule rule next)) m hm

theorem forall_renewAll_of_le {P : Node → Prop} {start next : Nat}
    (h : ∀ n ∈ nodes, ∀ next, start ≤ next → P ((renew n).run next).1) (hstart : start ≤ next) :
    ∀ m ∈ ((renewAll nodes).run next).1, P m := by
  induction nodes generalizing next with
  | nil => exact fun m hm => by cases hm
  | cons n nodes ih =>
    intro m hm
    rcases List.mem_cons.1 hm with rfl | hm
    · exact h n (by simp) next hstart
    · exact ih (fun m hm => h m (by simp [hm])) (Nat.le_trans hstart (le_next_renew n next)) m hm

end Stylesheet.Node
