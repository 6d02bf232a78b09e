import Stylesheet.Compile.Scope
import Stylesheet.Proofs.Except

/-!
# Literal rules

A selector without holes, and a value without references, is the same in every scope. A rule is
literal if nothing in it needs a scope: it uses no variable, declares none, and has no mixins and
no imports. Compiling such a rule cannot fail. For that it is enough that nothing in it is left to
be filled in.
-/

namespace Stylesheet

section Selectors

/-- Where no hole is opened, a text is one piece. -/
theorem Value.scanHoles_eq_textPart {cs : List Char} (h : ¬ ['@', '\x7b'] <:+: cs)
    (before : List Char) : scanHoles before none cs = textPart (before ++ cs) := by
  induction cs generalizing before with
  | nil => rw [scanHoles, List.append_nil]
  | cons c cs ih =>
    have hrest : ¬ ['@', '\x7b'] <:+: cs := fun hcs => h (hcs.trans (List.suffix_cons c cs).isInfix)
    rw [scanHoles, ih hrest, List.append_assoc, List.singleton_append]
    rintro rest rfl rfl
    exact h (List.prefix_append ['@', '\x7b'] rest).isInfix

theorem fillText_textPart (lookup : String → Except Error String) (cs : List Char) :
    Value.fillText lookup { parts := Value.textPart cs } = .ok (String.ofList cs) := by
  unfold Value.textPart
  split
  next hempty =>
    rw [List.isEmpty_iff.1 hempty]
    rfl
  next =>
    have hjoin : String.join [String.ofList cs] = String.ofList cs := by
      rw [String.join_cons, String.join_nil, String.append_empty]
    exact congrArg Except.ok hjoin

/-- No element of the selector has a hole. -/
def Selector.IsLiteral (s : Selector) : Prop :=
  ∀ e ∈ s.elements, ¬ ['@', '\x7b'] <:+: e.value.toList

instance (s : Selector) : Decidable s.IsLiteral :=
  inferInstanceAs (Decidable (∀ e ∈ s.elements, ¬ ['@', '\x7b'] <:+: e.value.toList))

/-- The selector as one whose holes are filled. -/
def Selector.evaluate (s : Selector) : Selector := { s with evaluated := true }

theorem Scope.selector_of_isLiteral (sc : Scope) {s : Selector} (h : s.IsLiteral) :
    sc.selector s = .ok s.evaluate := by
  have helement : ∀ e ∈ s.elements, sc.element e = .ok e := by
    intro e he
    rw [Scope.element, Scope.interpolate, Value.readHoles, Value.scanHoles_eq_textPart (h e he),
      List.nil_append, fillText_textPart, String.ofList_toList]
    rfl
  have helements : s.elements.mapM sc.element = .ok s.elements :=
    mapM_eq_ok_iff.2 (List.forall₂_same.2 helement)
  rw [Scope.selector, helements]
  rfl

theorem mapM_selector_of_isLiteral (sc : Scope) {selectors : List Selector}
    (h : ∀ s ∈ selectors, s.IsLiteral) :
    selectors.mapM sc.selector = .ok (selectors.map Selector.evaluate) := by
  refine mapM_eq_ok_iff.2 (List.forall₂_map_right_iff.2 (List.forall₂_same.2 fun s hs => ?_))
  exact sc.selector_of_isLiteral (h s hs)

end Selectors

theorem Scope.declaration_of_isResolved (sc : Scope) {d : Declaration}
    (h : d.value.isResolved = true) : sc.declaration d = .ok d := by
  rw [Scope.declaration, Scope.value, Value.fill, if_pos h]
  rfl

namespace Rule

mutual

/-- Nothing in the rule needs a scope, and every selector in it has an element. -/
def IsLiteral : Rule → Prop
  | .declaration d => d.isVariable = false ∧ d.value.isResolved = true
  | .ruleset header rules =>
    (∀ s ∈ header.selectors, s.IsLiteral ∧ s.elements ≠ []) ∧ AllLiteral rules
  | .media _ rules => AllLiteral rules
  | .directive _ (some rules) => AllLiteral rules
  | .comment _ | .directive _ none => True
  | .definition .. | .call _ | .inclusion _ => False

/-- Nothing in the rules needs a scope. -/
def AllLiteral : List Rule → Prop
  | [] => True
  | rule :: rules => IsLiteral rule ∧ AllLiteral rules

end

mutual

/-- No value and no selector in the rule is left to be filled in, outside of mixin definitions. -/
def IsFilled : Rule → Prop
  | .declaration d => d.value.isResolved = true
  | .ruleset header rules => (∀ s ∈ header.selectors, s.IsLiteral) ∧ AllFilled rules
  | .media _ rules => AllFilled rules
  | .directive _ (some rules) => AllFilled rules
  | .definition .. | .call _ | .inclusion _ | .comment _ | .directive _ none => True

/-- Nothing in the rules is left to be filled in. -/
def AllFilled : List Rule → Prop
  | [] => True
  | rule :: rules => IsFilled rule ∧ AllFilled rules

end

mutual

theorem IsLiteral.isFilled : ∀ {rule : Rule}, rule.IsLiteral → rule.IsFilled
  | .declaration _, h => h.2
  | .ruleset _ _, h => ⟨fun s hs => (h.1 s hs).1, AllLiteral.allFilled h.2⟩
  | .media _ _, h | .directive _ (some _), h => AllLiteral.allFilled h
  | .comment _, _ | .directive _ none, _ => trivial

theorem AllLiteral.allFilled : ∀ {rules : List Rule}, AllLiteral rules → AllFilled rules
  | [], _ => trivial
  | _ :: _, h => ⟨IsLiteral.isFilled h.1, AllLiteral.allFilled h.2⟩

end

end Rule

end Stylesheet
