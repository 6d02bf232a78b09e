import Stylesheet.Css
import Stylesheet.Proofs.Except

/-!
# Rules that print nothing

A body prints those of its rules that are visible, and of them only the texts count, and
which of them are blocks. So a rule that is not visible leaves no trace, at any depth.
-/

namespace Stylesheet

namespace Rule

mutual

/-- The rule without the rules inside that print nothing. -/
def prune (compact : Bool) : Rule → Rule
  | .ruleset header rules => .ruleset header (pruneAll compact rules)
  | .media head rules => .media head (pruneAll compact rules)
  | .directive head (some rules) => .directive head (some (pruneAll compact rules))
  | rule => rule

/-- The rules that print something, without what prints nothing inside. -/
def pruneAll (compact : Bool) : List Rule → List Rule
  | [] => []
  | rule :: rules =>
    if rule.isVisible compact then prune compact rule :: pruneAll compact rules
    else pruneAll compact rules

end

variable {compact : Bool}

theorem pruneAll_append (l m : List Rule) :
    pruneAll compact (l ++ m) = pruneAll compact l ++ pruneAll compact m := by
  induction l with
  | nil => rfl
  | cons rule l ih =>
    rw [List.cons_append, pruneAll, pruneAll, ih]
    split
    · rfl
    · rfl

theorem isBlock_prune (atRoot : Bool) (rule : Rule) :
    (rule.prune compact).isBlock atRoot = rule.isBlock atRoot := by
  cases rule with
  | directive head rules => cases rules <;> rfl
  | _ => rfl

mutual

theorem isVisible_prune : ∀ rule : Rule,
    (rule.prune compact).isVisible compact = rule.isVisible compact
  | .ruleset _ rules | .media _ rules => anyVisible_pruneAll rules
  | .declaration _ | .definition .. | .call _ | .inclusion _ | .comment _ | .directive _ none
  | .directive _ (some _) => rfl

theorem anyVisible_pruneAll : ∀ rules : List Rule,
    anyVisible compact (pruneAll compact rules) = anyVisible compact rules
  | [] => rfl
  | rule :: rules => by
    rw [pruneAll, anyVisible]
    split
    next hvisible => rw [anyVisible, isVisible_prune rule, hvisible, Bool.true_or, Bool.true_or]
    next hvisible => rw [anyVisible_pruneAll rules, eq_false_of_ne_true hvisible, Bool.false_or]

end

end Rule

namespace Css

variable {compact : Bool}

/-- The items print the same, in the same part of a body. -/
structure Item.Same (a b : Item) : Prop where
  css : b.css = a.css
  isBlock : ∀ atRoot, b.rule.isBlock atRoot = a.rule.isBlock atRoot

theorem plainCss_congr {items items' : List Item} (h : List.Forall₂ Item.Same items items')
    (level : Nat) (gap : String) (ends : Bool) :
    plainCss level gap ends items' = plainCss level gap ends items := by
  induction h with
  | nil => rfl
  | cons hitem hrest ih =>
    cases hrest with
    | nil => rw [plainCss, plainCss, hitem.css]
    | cons _ _ => rw [plainCss, plainCss, hitem.css, ih]

theorem blocksCss_congr {items items' : List Item} (h : List.Forall₂ Item.Same items items')
    (level : Nat) (gap lead : String) (fresh : Bool) :
    blocksCss level gap lead fresh items' = blocksCss level gap lead fresh items := by
  induction h generalizing lead fresh with
  | nil => rfl
  | cons hitem _ ih => simp only [blocksCss, hitem.css, ih]

/-- A body depends only on its items that are visible. -/
theorem bodyCss_congr {items items' : List Item}
    (h : List.Forall₂ Item.Same (items.filter (·.rule.isVisible compact))
      (items'.filter (·.rule.isVisible compact)))
    (place : Place) (paths : Option (List Path)) (firstRoot : Bool) :
    bodyCss compact place paths firstRoot items' = bodyCss compact place paths firstRoot items := by
  have hblocks : List.Forall₂ Item.Same
      ((items.filter (·.rule.isVisible compact)).filter (·.rule.isBlock paths.isNone))
      ((items'.filter (·.rule.isVisible compact)).filter (·.rule.isBlock paths.isNone)) := by
    refine List.rel_filter ?_ h
    intro a b hab
    dsimp only
    rw [hab.isBlock]
  have hplain : List.Forall₂ Item.Same
      ((items.filter (·.rule.isVisible compact)).filter (!·.rule.isBlock paths.isNone))
      ((items'.filter (·.rule.isVisible compact)).filter (!·.rule.isBlock paths.isNone)) := by
    refine List.rel_filter ?_ h
    intro a b hab
    dsimp only
    rw [hab.isBlock]
  simp only [bodyCss, isEmpty_eq_of_forall₂ hblocks, isEmpty_eq_of_forall₂ hplain,
    plainCss_congr hplain, blocksCss_congr hblocks]

mutual

/-- What prints nothing inside a rule leaves no trace in its text. -/
theorem ruleCss_prune : ∀ rule : Rule, ruleCss compact (rule.prune compact) = ruleCss compact rule
  | .ruleset header rules => by
    funext place
    rw [Rule.prune, ruleCss, ruleCss]
    exact bodyCss_congr (same_items rules) place _ _
  | .media head rules => by
    funext place
    rw [Rule.prune, ruleCss, ruleCss, blockCss, blockCss, bodyCss_congr (same_items rules)]
  | .directive head (some rules) => by
    funext place
    rw [Rule.prune, ruleCss, ruleCss, blockCss, blockCss, bodyCss_congr (same_items rules)]
  | .declaration _ | .definition .. | .call _ | .inclusion _ | .comment _ | .directive _ none => rfl

theorem same_items : ∀ rules : List Rule,
    List.Forall₂ Item.Same ((items compact rules).filter (·.rule.isVisible compact))
      ((items compact (Rule.pruneAll compact rules)).filter (·.rule.isVisible compact))
  | [] => .nil
  | rule :: rules => by
    have hrest := same_items rules
    rw [Rule.pruneAll, items, List.filter_cons]
    by_cases hvisible : rule.isVisible compact = true
    · rw [if_pos hvisible, if_pos hvisible, items, List.filter_cons, Rule.isVisible_prune,
        if_pos hvisible]
      exact .cons ⟨ruleCss_prune rule, fun atRoot => Rule.isBlock_prune atRoot rule⟩ hrest
    · rw [if_neg hvisible, if_neg hvisible]
      exact hrest

end

/-- The text of a style sheet depends only on what prints something. -/
theorem print_eq_of_pruneAll_eq {header : Header} {rules rules' : List Rule}
    (h : Rule.pruneAll compact rules' = Rule.pruneAll compact rules) :
    print compact header rules' = print compact header rules := by
  rw [print, print, ← ruleCss_prune (.ruleset header rules'),
    ← ruleCss_prune (.ruleset header rules), Rule.prune, Rule.prune, h]

end Css

end Stylesheet
