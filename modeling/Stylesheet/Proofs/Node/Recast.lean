import Stylesheet.Compile.Basic
import Stylesheet.Proofs.Compile.Steps

/-!
# Trees with their headers recast

To say that two trees differ only in some part of their headers, that part is cut away in both. A
node is recast by a change of headers: every ruleset in it gets the changed header and loses its
number, except inside mixin definitions, which stay as they are. With no change at all, only the
numbers are lost.

Joining writes the paths of headers and reads none. So a node without paths is joined like the node
itself, and what it becomes differs from the node in paths only.
-/

namespace Stylesheet

/-- The header without its paths. -/
def Header.unjoined (h : Header) : Header := { h with paths := [] }

theorem Header.join_unjoined (h : Header) (context : List Path) :
    h.unjoined.join context = h.join context := rfl

namespace Node

mutual

/-- The node with its headers changed and its rulesets without numbers, outside of mixin
definitions. -/
def recast (change : Header → Header) : Node → Node
  | .ruleset ⟨_, source, header, rules⟩ =>
    .ruleset ⟨0, source, change header, recastAll change rules⟩
  | .media head rules => .media head (recastAll change rules)
  | .directive head (some rules) => .directive head (some (recastAll change rules))
  | node => node

/-- The nodes with their headers changed and without the numbers of rulesets. -/
def recastAll (change : Header → Header) : List Node → List Node
  | [] => []
  | node :: nodes => recast change node :: recastAll change nodes

end

mutual

/-- The outermost mixin definitions in a node, in their order. -/
def definitions : Node → List Definition
  | .definition d => [d]
  | .ruleset ⟨_, _, _, rules⟩ | .media _ rules => allDefinitions rules
  | .directive _ (some rules) => allDefinitions rules
  | _ => []

/-- The outermost mixin definitions in some nodes. -/
def allDefinitions : List Node → List Definition
  | [] => []
  | node :: nodes => definitions node ++ allDefinitions nodes

end

variable {change : Header → Header}

mutual

theorem recast_renew : ∀ (n : Node) (serial : Nat),
    ((renew n).run serial).1.recast change = n.recast change
  | .ruleset ⟨_, source, header, rules⟩, serial =>
    congrArg (fun rules => Node.ruleset ⟨0, source, change header, rules⟩)
      (recastAll_renewAll rules (serial + 1))
  | .media head rules, serial => congrArg (Node.media head) (recastAll_renewAll rules serial)
  | .directive head (some rules), serial =>
    congrArg (fun rules => Node.directive head (some rules)) (recastAll_renewAll rules serial)
  | .declaration _, _ | .definition _, _ | .call _, _ | .inclusion _, _ | .comment _, _
  | .block _, _ | .directive _ none, _ => rfl

/-- New numbers do not show once numbers are left out. -/
theorem recastAll_renewAll : ∀ (nodes : List Node) (serial : Nat),
    recastAll change ((renewAll nodes).run serial).1 = recastAll change nodes
  | [], _ => rfl
  | n :: nodes, serial => by
    change recast change ((renew n).run serial).1 ::
      recastAll change ((renewAll nodes).run ((renew n).run serial).2).1 = _
    rw [recast_renew n, recastAll_renewAll nodes, recastAll]

end

mutual

theorem blockIndices_recast : ∀ n : Node, (n.recast change).blockIndices = n.blockIndices
  | .ruleset ⟨_, _, _, rules⟩ | .media _ rules | .directive _ (some rules) =>
    allBlockIndices_recastAll rules
  | .declaration _ | .definition _ | .call _ | .inclusion _ | .comment _ | .block _
  | .directive _ none => rfl

/-- Nodes refer to the same blocks however their headers are changed. -/
theorem allBlockIndices_recastAll : ∀ nodes : List Node,
    allBlockIndices (recastAll change nodes) = allBlockIndices nodes
  | [] => rfl
  | n :: nodes => by
    rw [recastAll, allBlockIndices, allBlockIndices, blockIndices_recast n,
      allBlockIndices_recastAll nodes]

end

mutual

theorem definitions_recast : ∀ n : Node, (n.recast change).definitions = n.definitions
  | .ruleset ⟨_, _, _, rules⟩ | .media _ rules | .directive _ (some rules) =>
    allDefinitions_recastAll rules
  | .declaration _ | .definition _ | .call _ | .inclusion _ | .comment _ | .block _
  | .directive _ none => rfl

/-- Nodes have the same mixin definitions however their headers are changed. -/
theorem allDefinitions_recastAll : ∀ nodes : List Node,
    allDefinitions (recastAll change nodes) = allDefinitions nodes
  | [] => rfl
  | n :: nodes => by
    rw [recastAll, allDefinitions, allDefinitions, definitions_recast n,
      allDefinitions_recastAll nodes]

end

section Joining

mutual

/-- A node without paths and numbers is joined like the node, except for the numbers. -/
theorem join_recast_unjoined : ∀ (n : Node) (context : List Path),
    join context (n.recast .unjoined) = (join context n).map (recast id)
  | .ruleset ⟨serial, source, header, rules⟩, context => by
    rw [recast, join, join, Header.join_unjoined]
    cases header.join context with
    | error e => rfl
    | ok joined =>
      obtain ⟨paths, inner⟩ := joined
      rw [ok_bind, ok_bind]
      dsimp only
      rw [joinAll_recastAll_unjoined rules inner]
      cases joinAll inner rules with
      | error e => rfl
      | ok nodes => rfl
  | .media head rules, _ => by
    rw [recast, join, join, joinAll_recastAll_unjoined rules []]
    cases joinAll [] rules with
    | error e => rfl
    | ok nodes => rfl
  | .directive head (some rules), _ => by
    rw [recast, join, join, joinAll_recastAll_unjoined rules []]
    cases joinAll [] rules with
    | error e => rfl
    | ok nodes => rfl
  | .declaration _, _ | .definition _, _ | .call _, _ | .inclusion _, _ | .comment _, _
  | .block _, _ | .directive _ none, _ => rfl

theorem joinAll_recastAll_unjoined : ∀ (nodes : List Node) (context : List Path),
    joinAll context (recastAll .unjoined nodes) = (joinAll context nodes).map (recastAll id)
  | [], _ => rfl
  | n :: nodes, context => by
    rw [recastAll, joinAll, joinAll, join_recast_unjoined n context,
      joinAll_recastAll_unjoined nodes context]
    cases join context n with
    | error e => rfl
    | ok m =>
      cases joinAll context nodes with
      | error e => rfl
      | ok joined => rfl

end

mutual

/-- A joined node differs from the node in paths only. -/
theorem recast_unjoined_of_join : ∀ (n : Node) {context : List Path} {m : Node},
    join context n = .ok m → m.recast .unjoined = n.recast .unjoined
  | .ruleset ⟨serial, source, header, rules⟩, context, m, h => by
    rw [join] at h
    obtain ⟨joined, -, h⟩ := bind_eq_ok_iff.1 h
    obtain ⟨nodes, hnodes, ⟨⟩⟩ := bind_eq_ok_iff.1 h
    exact congrArg (fun rules => Node.ruleset ⟨0, source, header.unjoined, rules⟩)
      (recastAll_unjoined_of_joinAll rules hnodes)
  | .media head rules, _, m, h => by
    rw [join] at h
    obtain ⟨nodes, hnodes, ⟨⟩⟩ := bind_eq_ok_iff.1 h
    exact congrArg (Node.media head) (recastAll_unjoined_of_joinAll rules hnodes)
  | .directive head (some rules), _, m, h => by
    rw [join] at h
    obtain ⟨nodes, hnodes, ⟨⟩⟩ := bind_eq_ok_iff.1 h
    exact congrArg (fun rules => Node.directive head (some rules))
      (recastAll_unjoined_of_joinAll rules hnodes)
  | .declaration _, _, _, h | .definition _, _, _, h | .call _, _, _, h | .inclusion _, _, _, h
  | .comment _, _, _, h | .block _, _, _, h | .directive _ none, _, _, h => by
    obtain ⟨⟩ := h
    rfl

theorem recastAll_unjoined_of_joinAll : ∀ (nodes : List Node) {context : List Path}
    {joined : List Node}, joinAll context nodes = .ok joined →
      recastAll .unjoined joined = recastAll .unjoined nodes
  | [], _, _, h => by
    obtain ⟨⟩ := h
    rfl
  | n :: nodes, context, joined, h => by
    rw [joinAll] at h
    obtain ⟨m, hm, h⟩ := bind_eq_ok_iff.1 h
    obtain ⟨rest, hrest, ⟨⟩⟩ := bind_eq_ok_iff.1 h
    rw [recastAll, recastAll, recast_unjoined_of_join n hm,
      recastAll_unjoined_of_joinAll nodes hrest]

end

/-- Nodes that differ in paths and numbers only are joined to nodes that differ in numbers only. -/
theorem join_congr {n m n' : Node} {context : List Path}
    (hsame : m.recast .unjoined = n.recast .unjoined) (h : join context n = .ok n') :
    ∃ m', join context m = .ok m' ∧ m'.recast id = n'.recast id := by
  rw [← map_eq_ok_iff, ← join_recast_unjoined, hsame, join_recast_unjoined, h]
  rfl

theorem joinAll_congr {nodes others joined : List Node} {context : List Path}
    (hsame : recastAll .unjoined others = recastAll .unjoined nodes)
    (h : joinAll context nodes = .ok joined) :
    ∃ joined', joinAll context others = .ok joined' ∧
      recastAll id joined' = recastAll id joined := by
  rw [← map_eq_ok_iff, ← joinAll_recastAll_unjoined, hsame, joinAll_recastAll_unjoined, h]
  rfl

end Joining

end Node

end Stylesheet
