import Stylesheet.Proofs.Css.Hoisted
import Mathlib.Data.List.Chain

/-!
# Where declarations end in compact output

In compact output nothing but its semicolon sets a declaration apart from what is printed next, and
the last declaration of a body has none. A closing brace comes next if the body has braces. A
document has none of its own: the outermost one leaves out the semicolon even where blocks follow,
and one that is nested in another body does if it has no blocks, whatever follows it in that body.

Compact output is cut into tokens here, and `Rule.runsOn` says of a tree whether a declaration runs
into the text of another rule.
-/

namespace Stylesheet

namespace Rule

/-- Whether the rule is printed among the plain rules of a body. -/
def printsPlain (atRoot : Bool) (rule : Rule) : Bool := rule.isVisible true && !rule.isBlock atRoot

/-- Whether the rule is printed among the blocks of a body. -/
def printsBlock (atRoot : Bool) (rule : Rule) : Bool := rule.isVisible true && rule.isBlock atRoot

/-- Whether the rule is a declaration. -/
def isDeclaration : Rule → Bool
  | .declaration _ => true
  | _ => false

/-- Whether the last one of the plain rules that are printed is a declaration. -/
def endInDeclaration (atRoot : Bool) (rules : List Rule) : Bool :=
  (rules.reverse.find? (printsPlain atRoot)).any isDeclaration

mutual

/-- Whether what is printed for a block ends in a declaration without a semicolon. -/
def endsOpen : Rule → Bool
  | .ruleset header rules =>
    if rules.any (printsBlock header.root) then lastEndsOpen header.root rules
    else header.root && endInDeclaration true rules
  | _ => false

/-- Whether that is so for the last block that is printed. -/
def lastEndsOpen (atRoot : Bool) : List Rule → Bool
  | [] => false
  | rule :: rules =>
    if rules.any (printsBlock atRoot) then lastEndsOpen atRoot rules
    else rule.printsBlock atRoot && endsOpen rule

end

mutual

/-- Whether some declaration in what is printed for a rule has nothing between it and the next
rule. -/
def runsOn : Rule → Bool
  | .ruleset header rules =>
    header.root && header.firstRoot && endInDeclaration true rules &&
        rules.any (printsBlock true) ||
      anyRunsOn header.root rules
  | .media _ rules => anyRunsOn true rules
  | .directive _ (some rules) => anyRunsOn true rules
  | _ => false

/-- Whether that is so inside one of the blocks, or between one of them and the next. -/
def anyRunsOn (atRoot : Bool) : List Rule → Bool
  | [] => false
  | rule :: rules =>
    rule.printsBlock atRoot && (runsOn rule || endsOpen rule && rules.any (printsBlock atRoot)) ||
      anyRunsOn atRoot rules

end

end Rule

namespace Css

/-- A part of compact output. -/
inductive Token where
  /-- A declaration, without a semicolon. -/
  | declaration (d : Declaration)
  | semicolon
  | closing
  /-- Another rule, or the start of one up to the opening brace. -/
  | text (css : String)

namespace Token

/-- The text of a token. -/
def css : Token → String
  | .declaration d => declarationCss true true d
  | .semicolon => ";"
  | .closing => "\x7d"
  | .text css => css

/-- The text of some tokens. -/
def allCss (tokens : List Token) : String := String.join (tokens.map css)

/-- Whether the token is a declaration. -/
def isDeclaration : Token → Bool
  | .declaration _ => true
  | _ => false

/-- Whether the token may follow a declaration. -/
def isStop : Token → Bool
  | .semicolon | .closing => true
  | _ => false

/-- After a declaration comes a semicolon, or the closing brace of the body that it stands in. -/
def MayPrecede (a b : Token) : Prop := a.isDeclaration = true → b.isStop = true

end Token

/-- Tokens in braces. -/
def bracedTokens (start : String) (body : List Token) : List Token :=
  .text (start ++ "\x7b") :: (body ++ [.closing])

mutual

/-- The tokens of a rule. A declaration that is the last in a body has no semicolon. -/
def ruleTokens : Rule → Bool → List Token
  | .declaration d, last => .declaration d :: if last then [] else [.semicolon]
  | .ruleset header rules, _ =>
    if header.root then
      plainTokens true (!rules.any (Rule.printsBlock true) || header.firstRoot) rules ++
        blockTokens true rules
    else
      (if rules.any (Rule.printsPlain false) then
        bracedTokens (pathsCss true 0 (headerPaths header)) (plainTokens false true rules)
      else []) ++ blockTokens false rules
  | .definition .., _ | .call _, _ => []
  | .inclusion i, _ => [.text ("@import \"" ++ i.path ++ "\";")]
  | .comment c, _ => [.text c.text]
  | .media head rules, _ =>
    bracedTokens ("@media " ++ head.features)
      (plainTokens true (!rules.any (Rule.printsBlock true)) rules ++ blockTokens true rules)
  | .directive head none, _ => [.text (directiveCss head ++ ";")]
  | .directive head (some rules), _ =>
    bracedTokens (directiveCss head)
      (plainTokens true (!rules.any (Rule.printsBlock true)) rules ++ blockTokens true rules)

/-- The tokens of the plain rules of a body. -/
def plainTokens (atRoot ends : Bool) : List Rule → List Token
  | [] => []
  | rule :: rules =>
    (if rule.printsPlain atRoot then
      ruleTokens rule (ends && !rules.any (Rule.printsPlain atRoot))
    else []) ++ plainTokens atRoot ends rules

/-- The tokens of the blocks of a body. -/
def blockTokens (atRoot : Bool) : List Rule → List Token
  | [] => []
  | rule :: rules =>
    (if rule.printsBlock atRoot then ruleTokens rule false else []) ++ blockTokens atRoot rules

end

/-- The tokens of a whole style sheet. -/
def tokens (header : Header) (rules : List Rule) : List Token :=
  ruleTokens (.ruleset header rules) false

section Text

@[simp] theorem Token.allCss_nil : Token.allCss [] = "" := rfl

@[simp] theorem Token.allCss_cons (token : Token) (tokens : List Token) :
    Token.allCss (token :: tokens) = token.css ++ Token.allCss tokens := by
  rw [allCss, List.map_cons, String.join_cons, allCss]

@[simp] theorem Token.allCss_append (l m : List Token) :
    Token.allCss (l ++ m) = Token.allCss l ++ Token.allCss m := by
  rw [allCss, List.map_append, String.join_append, allCss, allCss]

theorem allCss_bracedTokens (start : String) (body : List Token) (level : Nat) :
    Token.allCss (bracedTokens start body) =
      start ++ (opening true level ++ Token.allCss body ++ closing true level) := by
  simp [bracedTokens, Token.css, opening, closing, lineBreak, String.append_assoc]

theorem isEmpty_shownPlain (atRoot : Bool) (rules : List Rule) :
    (shownPlain true atRoot rules).isEmpty = !rules.any (Rule.printsPlain atRoot) := by
  induction rules with
  | nil => rfl
  | cons rule rules ih =>
    rw [shownPlain_cons, List.any_cons, Rule.printsPlain]
    split
    next h => simp [h]
    next h => simp [h, ih]

theorem isEmpty_shownBlocks (atRoot : Bool) (rules : List Rule) :
    (shownBlocks true atRoot rules).isEmpty = !rules.any (Rule.printsBlock atRoot) := by
  induction rules with
  | nil => rfl
  | cons rule rules ih =>
    rw [shownBlocks_cons, List.any_cons, Rule.printsBlock]
    split
    next h => simp [h]
    next h => simp [h, ih]

theorem lineBreak_compact (level : Nat) : lineBreak true level = "" := rfl

/-- A document prints its plain rules and its blocks in compact output, and nothing else. -/
theorem bodyCss_document (place : Place) (firstRoot : Bool) (rules : List Rule) :
    bodyCss true place none firstRoot (items true rules) =
      plainCss place.level "" (!rules.any (Rule.printsBlock true) || firstRoot)
          (shownPlain true true rules) ++
        blocksCss place.level "" ""
          (place.fresh && (plainCss place.level ""
            (!rules.any (Rule.printsBlock true) || firstRoot) (shownPlain true true rules)).isEmpty)
          (shownBlocks true true rules) := by
  rw [← isEmpty_shownBlocks]
  simp only [bodyCss, lineBreak_compact, ite_self, Bool.not_true, Bool.and_false,
    Bool.false_eq_true, if_false]
  rfl

/-- A ruleset has its plain rules in braces, whether it is marked as the outermost or not. -/
theorem bodyCss_paths (place : Place) (paths : List Path) (firstRoot : Bool) (rules : List Rule) :
    bodyCss true place (some paths) firstRoot (items true rules) =
      rulesetText true place.level paths (shownPlain true false rules) ++
        blocksCss place.level "" ""
          (place.fresh && (rulesetText true place.level paths
            (shownPlain true false rules)).isEmpty)
          (shownBlocks true false rules) := by
  simp only [bodyCss, lineBreak_compact, ite_self, Bool.not_true, Bool.and_false,
    Bool.false_eq_true, if_false]
  rfl

mutual

/-- The tokens of a rule make up its compact text. -/
theorem allCss_ruleTokens : ∀ (rule : Rule) (place : Place),
    Token.allCss (ruleTokens rule place.last) = ruleCss true rule place
  | .declaration d, place => by
    rw [ruleTokens, ruleCss, Token.allCss_cons]
    cases place.last <;> simp [Token.css, declarationCss]
  | .ruleset header rules, place => by
    rw [ruleTokens, ruleCss]
    cases header.root with
    | true =>
      rw [if_pos rfl, if_pos rfl, bodyCss_document, Token.allCss_append,
        ← allCss_plainTokens rules, ← allCss_blockTokens rules]
    | false =>
      rw [if_neg Bool.false_ne_true, if_neg Bool.false_ne_true, bodyCss_paths, rulesetText,
        Token.allCss_append, ← allCss_blockTokens rules, isEmpty_shownPlain, lineBreak_compact,
        ← allCss_plainTokens rules]
      congr 1
      cases rules.any (Rule.printsPlain false) with
      | false => rfl
      | true =>
        rw [if_pos rfl, if_neg (by simp), allCss_bracedTokens _ _ place.level]
        simp only [String.append_assoc]
        rfl
  | .media head rules, place => by
    rw [ruleTokens, ruleCss, blockCss, bodyCss_document, allCss_bracedTokens _ _ place.level,
      Token.allCss_append, ← allCss_plainTokens rules, ← allCss_blockTokens rules, Bool.or_false]
  | .directive head (some rules), place => by
    rw [ruleTokens, ruleCss, blockCss, bodyCss_document, allCss_bracedTokens _ _ place.level,
      Token.allCss_append, ← allCss_plainTokens rules, ← allCss_blockTokens rules, Bool.or_false]
  | .definition .., _ | .call _, _ => rfl
  | .inclusion _, _ | .comment _, _ | .directive _ none, _ => by
    simp [ruleTokens, ruleCss, Token.css]

theorem allCss_plainTokens : ∀ (rules : List Rule) (atRoot ends : Bool) (level : Nat),
    Token.allCss (plainTokens atRoot ends rules) =
      plainCss level "" ends (shownPlain true atRoot rules)
  | [], _, _, _ => rfl
  | rule :: rules, atRoot, ends, level => by
    rw [plainTokens, shownPlain_cons, Token.allCss_append,
      allCss_plainTokens rules atRoot ends level]
    change _ = plainCss level "" ends (if rule.printsPlain atRoot = true then _ else _)
    split
    · rw [plainCss_cons, isEmpty_shownPlain]
      dsimp only
      rw [← allCss_ruleTokens rule, ← allCss_ruleTokens rule]
      cases hany : rules.any (Rule.printsPlain atRoot) with
      | true => simp
      | false =>
        have hnone : shownPlain true atRoot rules = [] := by
          rw [← List.isEmpty_iff, isEmpty_shownPlain, hany]
          rfl
        simp [hnone, plainCss]
    · rw [Token.allCss_nil, String.empty_append]

theorem allCss_blockTokens : ∀ (rules : List Rule) (atRoot : Bool) (level : Nat) (fresh : Bool),
    Token.allCss (blockTokens atRoot rules) =
      blocksCss level "" "" fresh (shownBlocks true atRoot rules)
  | [], _, _, _ => rfl
  | rule :: rules, atRoot, level, fresh => by
    rw [blockTokens, shownBlocks_cons, Token.allCss_append]
    change _ = blocksCss level "" "" fresh (if rule.printsBlock atRoot = true then _ else _)
    split
    · rw [blocksCss, ← allCss_blockTokens rules, String.empty_append]
      dsimp only
      rw [← allCss_ruleTokens rule]
    · rw [Token.allCss_nil, String.empty_append, allCss_blockTokens rules]

end

end Text

namespace Token

/-- Every declaration is followed by a semicolon or a closing brace, or by nothing. -/
def Separated (tokens : List Token) : Prop := tokens.IsChain MayPrecede

/-- Whether the tokens end in a declaration without a semicolon. -/
def endOpen (tokens : List Token) : Bool := tokens.getLast?.any isDeclaration

/-- The tokens do not begin with what only ends other rules. -/
def Starts (tokens : List Token) : Prop := ∀ token ∈ tokens.head?, token.isStop = false

variable {l m : List Token}

theorem Starts.append (hl : Starts l) (hm : Starts m) : Starts (l ++ m) := by
  cases l with
  | nil => exact hm
  | cons token l => exact hl

theorem starts_cons {token : Token} (h : token.isStop = false) (tokens : List Token) :
    Starts (token :: tokens) := by
  rintro _ ⟨⟩
  exact h

theorem endOpen_append (l m : List Token) :
    endOpen (l ++ m) = if m.isEmpty then endOpen l else endOpen m := by
  cases m with
  | nil => rw [List.append_nil, List.isEmpty_nil, if_pos rfl]
  | cons token m =>
    rw [endOpen, List.getLast?_append_of_ne_nil _ (List.cons_ne_nil token m)]
    rfl

/-- What follows some tokens must not follow a declaration of theirs. -/
theorem separated_append (hm : Starts m) :
    Separated (l ++ m) ↔ Separated l ∧ Separated m ∧ (m.isEmpty = false → endOpen l = false) := by
  unfold Separated
  rw [List.isChain_append]
  refine and_congr_right fun _ => and_congr_right fun _ => ?_
  cases m with
  | nil => simp
  | cons token m =>
    have hstop : token.isStop = false := hm token rfl
    cases hlast : l.getLast? <;> simp [MayPrecede, endOpen, hlast, hstop]

end Token

open Token

section Separated

theorem isEmpty_tokens_append (l m : List Token) :
    (l ++ m).isEmpty = (l.isEmpty && m.isEmpty) := by
  cases l <;> rfl

theorem starts_bracedTokens (start : String) (body : List Token) :
    Starts (bracedTokens start body) := starts_cons rfl _

theorem endOpen_bracedTokens (start : String) (body : List Token) :
    endOpen (bracedTokens start body) = false := by
  rw [bracedTokens, ← List.cons_append, endOpen_append]
  rfl

/-- A brace may follow any token. -/
theorem separated_bracedTokens (start : String) (body : List Token) :
    Separated (bracedTokens start body) ↔ Separated body := by
  have hclosing : ∀ token : Token, MayPrecede token .closing := fun _ _ => rfl
  have htext : ∀ css token, MayPrecede (.text css) token := fun css token h => by cases h
  unfold Separated bracedTokens
  rw [List.isChain_cons, List.isChain_append]
  simp [hclosing, htext]

mutual

theorem starts_ruleTokens : ∀ (rule : Rule) (last : Bool), Starts (ruleTokens rule last)
  | .declaration _, _ | .inclusion _, _ | .comment _, _ | .directive _ none, _ => starts_cons rfl _
  | .ruleset header rules, _ => by
    rw [ruleTokens]
    split
    · exact (starts_plainTokens rules _ _).append (starts_blockTokens rules _)
    · refine Starts.append ?_ (starts_blockTokens rules _)
      split
      · exact starts_bracedTokens _ _
      · rintro _ ⟨⟩
  | .media .., _ | .directive _ (some _), _ => starts_bracedTokens _ _
  | .definition .., _ | .call _, _ => by rintro _ ⟨⟩

theorem starts_plainTokens : ∀ (rules : List Rule) (atRoot ends : Bool),
    Starts (plainTokens atRoot ends rules)
  | [], _, _ => by rintro _ ⟨⟩
  | rule :: rules, atRoot, ends => by
    refine Starts.append ?_ (starts_plainTokens rules atRoot ends)
    split
    · exact starts_ruleTokens rule _
    · rintro _ ⟨⟩

theorem starts_blockTokens : ∀ (rules : List Rule) (atRoot : Bool),
    Starts (blockTokens atRoot rules)
  | [], _ => by rintro _ ⟨⟩
  | rule :: rules, atRoot => by
    refine Starts.append ?_ (starts_blockTokens rules atRoot)
    split
    · exact starts_ruleTokens rule _
    · rintro _ ⟨⟩

end

mutual

/-- Something is printed for every rule that is visible. -/
theorem isEmpty_ruleTokens : ∀ (rule : Rule) (last : Bool), rule.isVisible true = true →
    (ruleTokens rule last).isEmpty = false
  | .declaration _, _, _ | .inclusion _, _, _ | .comment _, _, _ | .directive _ none, _, _
  | .media .., _, _ | .directive _ (some _), _, _ => rfl
  | .ruleset header rules, _, h => by
    have hshown : ∀ atRoot, rules.any (Rule.printsPlain atRoot) = true ∨
        rules.any (Rule.printsBlock atRoot) = true := by
      intro atRoot
      rw [Rule.isVisible, anyVisible_eq_shown true atRoot, isEmpty_shownPlain,
        isEmpty_shownBlocks] at h
      simpa using h
    rw [ruleTokens]
    split
    · rw [isEmpty_tokens_append, isEmpty_plainTokens rules, isEmpty_blockTokens rules]
      rcases hshown true with hany | hany <;> simp [hany]
    · rw [isEmpty_tokens_append, isEmpty_blockTokens rules]
      rcases hshown false with hany | hany <;> simp [hany, bracedTokens]
  | .definition .., _, h | .call _, _, h => by cases h

theorem isEmpty_plainTokens : ∀ (rules : List Rule) (atRoot ends : Bool),
    (plainTokens atRoot ends rules).isEmpty = !rules.any (Rule.printsPlain atRoot)
  | [], _, _ => rfl
  | rule :: rules, atRoot, ends => by
    rw [plainTokens, isEmpty_tokens_append, isEmpty_plainTokens rules, List.any_cons]
    split
    next h =>
      rw [isEmpty_ruleTokens rule _ (Bool.and_eq_true _ _ ▸ h).1, h]
      rfl
    next h => simp [h]

theorem isEmpty_blockTokens : ∀ (rules : List Rule) (atRoot : Bool),
    (blockTokens atRoot rules).isEmpty = !rules.any (Rule.printsBlock atRoot)
  | [], _ => rfl
  | rule :: rules, atRoot => by
    rw [blockTokens, isEmpty_tokens_append, isEmpty_blockTokens rules, List.any_cons]
    split
    next h =>
      rw [isEmpty_ruleTokens rule _ (Bool.and_eq_true _ _ ▸ h).1, h]
      rfl
    next h => simp [h]

end

/-- A plain rule has at most its semicolon behind it. -/
theorem plain_ruleTokens {rule : Rule} {atRoot : Bool} (h : rule.printsPlain atRoot = true)
    (last : Bool) :
    Separated (ruleTokens rule last) ∧
      endOpen (ruleTokens rule last) = (last && rule.isDeclaration) := by
  cases rule with
  | declaration d => cases last <;> simp [ruleTokens, Separated, MayPrecede, isStop, endOpen,
      isDeclaration, Rule.isDeclaration]
  | inclusion i => simp [ruleTokens, Separated, endOpen, isDeclaration, Rule.isDeclaration]
  | comment c => simp [ruleTokens, Separated, endOpen, isDeclaration, Rule.isDeclaration]
  | _ => simp [Rule.printsPlain, Rule.isVisible, Rule.isBlock] at h

theorem endInDeclaration_cons (atRoot : Bool) (rule : Rule) (rules : List Rule) :
    Rule.endInDeclaration atRoot (rule :: rules) =
      if rules.any (Rule.printsPlain atRoot) then Rule.endInDeclaration atRoot rules
      else rule.printsPlain atRoot && rule.isDeclaration := by
  rw [Rule.endInDeclaration, Rule.endInDeclaration, List.reverse_cons, List.find?_append]
  cases hany : rules.any (Rule.printsPlain atRoot) with
  | true =>
    obtain ⟨last, hlast⟩ : ∃ last, rules.reverse.find? (Rule.printsPlain atRoot) = some last := by
      rw [← Option.isSome_iff_exists, List.find?_isSome]
      simpa using hany
    rw [hlast, Option.some_or, if_pos rfl]
  | false =>
    have hnone : rules.reverse.find? (Rule.printsPlain atRoot) = none := by
      rw [List.find?_eq_none]
      simpa using hany
    rw [hnone, Option.none_or, if_neg Bool.false_ne_true, List.find?_singleton]
    cases rule.printsPlain atRoot <;> simp

/-- The last plain rule has no semicolon if the body ends with it. -/
theorem endOpen_plainTokens (rules : List Rule) (atRoot ends : Bool) :
    endOpen (plainTokens atRoot ends rules) = (ends && Rule.endInDeclaration atRoot rules) := by
  induction rules with
  | nil => simp [plainTokens, endOpen, Rule.endInDeclaration]
  | cons rule rules ih =>
    rw [plainTokens, endOpen_append, isEmpty_plainTokens, ih, endInDeclaration_cons]
    cases hany : rules.any (Rule.printsPlain atRoot) with
    | true => simp
    | false =>
      cases hplain : rule.printsPlain atRoot with
      | true => simp [(plain_ruleTokens hplain _).2]
      | false => simp [endOpen]

/-- Among plain rules, semicolons stand between declarations and what follows. -/
theorem separated_plainTokens (rules : List Rule) (atRoot ends : Bool) :
    Separated (plainTokens atRoot ends rules) := by
  induction rules with
  | nil => exact .nil
  | cons rule rules ih =>
    rw [plainTokens, separated_append (starts_plainTokens rules atRoot ends), isEmpty_plainTokens]
    cases hplain : rule.printsPlain atRoot with
    | false => exact ⟨.nil, ih, fun _ => rfl⟩
    | true =>
      obtain ⟨hrule, hopen⟩ := plain_ruleTokens hplain
        (ends && !rules.any (Rule.printsPlain atRoot))
      refine ⟨hrule, ih, fun hany => ?_⟩
      rw [if_pos rfl, hopen, hany, Bool.and_false, Bool.false_and]

mutual

/-- What is printed for a block ends open where it should. -/
theorem endOpen_ruleTokens : ∀ rule : Rule, endOpen (ruleTokens rule false) = rule.endsOpen
  | .ruleset header rules => by
    rw [ruleTokens, Rule.endsOpen]
    cases hroot : header.root with
    | true =>
      rw [if_pos rfl, endOpen_append, isEmpty_blockTokens, endOpen_blockTokens rules,
        endOpen_plainTokens]
      cases hany : rules.any (Rule.printsBlock true) <;> simp
    | false =>
      rw [if_neg Bool.false_ne_true, endOpen_append, isEmpty_blockTokens,
        endOpen_blockTokens rules, apply_ite endOpen, endOpen_bracedTokens]
      cases hany : rules.any (Rule.printsBlock false) <;> simp [endOpen]
  | .media .. | .directive _ (some _) => endOpen_bracedTokens _ _
  | .declaration _ | .definition .. | .call _ | .inclusion _ | .comment _ | .directive _ none => rfl

theorem endOpen_blockTokens : ∀ (rules : List Rule) (atRoot : Bool),
    endOpen (blockTokens atRoot rules) = Rule.lastEndsOpen atRoot rules
  | [], _ => rfl
  | rule :: rules, atRoot => by
    rw [blockTokens, endOpen_append, isEmpty_blockTokens, endOpen_blockTokens rules,
      Rule.lastEndsOpen]
    cases hany : rules.any (Rule.printsBlock atRoot) with
    | true => simp
    | false =>
      rw [Bool.not_false, if_pos rfl, if_neg Bool.false_ne_true, ← endOpen_ruleTokens rule]
      cases rule.printsBlock atRoot <;> rfl

end

/-- A document keeps its last declaration apart from its blocks unless it leaves out the
semicolon. -/
theorem separated_document (rules : List Rule) (firstRoot : Bool) :
    Separated (plainTokens true (!rules.any (Rule.printsBlock true) || firstRoot) rules ++
        blockTokens true rules) ↔
      Separated (blockTokens true rules) ∧
        (firstRoot && Rule.endInDeclaration true rules &&
          rules.any (Rule.printsBlock true)) = false := by
  rw [separated_append (starts_blockTokens rules true), isEmpty_blockTokens, endOpen_plainTokens,
    and_iff_right (separated_plainTokens rules _ _)]
  cases rules.any (Rule.printsBlock true) <;> simp

mutual

/-- Declarations are kept apart unless one runs on. -/
theorem separated_ruleTokens : ∀ rule : Rule,
    Separated (ruleTokens rule false) ↔ rule.runsOn = false
  | .ruleset header rules => by
    rw [ruleTokens, Rule.runsOn]
    cases hroot : header.root with
    | true =>
      rw [if_pos rfl, separated_document, separated_blockTokens rules, Bool.or_eq_false_iff,
        Bool.true_and, and_comm]
    | false =>
      rw [if_neg Bool.false_ne_true, separated_append (starts_blockTokens rules false),
        separated_blockTokens rules, apply_ite endOpen, endOpen_bracedTokens,
        apply_ite Separated, separated_bracedTokens]
      have hfront : Separated (plainTokens false true rules) := separated_plainTokens rules _ _
      have hnil : Separated [] := .nil
      simp [hfront, hnil, endOpen]
  | .media _ rules => by
    have hdocument := separated_document rules false
    rw [Bool.or_false, Bool.false_and, Bool.false_and, separated_blockTokens rules] at hdocument
    rw [ruleTokens, separated_bracedTokens, hdocument, Rule.runsOn, and_iff_left rfl]
  | .directive _ (some rules) => by
    have hdocument := separated_document rules false
    rw [Bool.or_false, Bool.false_and, Bool.false_and, separated_blockTokens rules] at hdocument
    rw [ruleTokens, separated_bracedTokens, hdocument, Rule.runsOn, and_iff_left rfl]
  | .declaration _ | .definition .. | .call _ | .inclusion _ | .comment _ | .directive _ none => by
    simp [ruleTokens, Separated, MayPrecede, isStop, Rule.runsOn]

theorem separated_blockTokens : ∀ (rules : List Rule) (atRoot : Bool),
    Separated (blockTokens atRoot rules) ↔ Rule.anyRunsOn atRoot rules = false
  | [], _ => by simp [blockTokens, Separated, Rule.anyRunsOn]
  | rule :: rules, atRoot => by
    rw [blockTokens, separated_append (starts_blockTokens rules atRoot), isEmpty_blockTokens,
      separated_blockTokens rules, Rule.anyRunsOn]
    cases hblock : rule.printsBlock atRoot with
    | true =>
      rw [if_pos rfl, separated_ruleTokens rule, endOpen_ruleTokens rule]
      cases rules.any (Rule.printsBlock atRoot) <;> simp [and_comm, and_assoc]
    | false =>
      have hnil : Separated [] := .nil
      simp [hnil, endOpen]

end

end Separated

end Css

/-- Compact output is made of tokens, and declarations are kept apart in it, unless one runs on.
That is so where the outermost document has blocks and its plain rules end in a declaration, and
where a block that is not the last of its body is a document without blocks that ends in one, or
ends with such a document. -/
theorem compileToCss_separated_iff {rules : List Rule} {options : Options}
    {sources : Option Sources} {css : String} (hcompress : options.compress = true)
    (h : compileToCss rules options sources = .ok css) :
    ∃ root t,
      (do compileTree { options, sources } (← numberRules rules) : CompileM Ruleset).run.run {} =
        (.ok root, t) ∧
      css = Css.Token.allCss (Css.tokens root.header (t.rulesOf root.rules)) ∧
      (Css.Token.Separated (Css.tokens root.header (t.rulesOf root.rules)) ↔
        (Rule.ruleset root.header (t.rulesOf root.rules)).runsOn = false) := by
  have hsome : ((do
      let root ← (do compileTree { options, sources } (← numberRules rules) : CompileM Ruleset)
      return (← get).css options.compress root : CompileM String).run.run {}).1.toOption =
        some css := congrArg Except.toOption h
  obtain ⟨root, t, hrun, hcss⟩ := exists_run_of_toOption_bind hsome
  refine ⟨root, t, hrun, ?_, Css.separated_ruleTokens _⟩
  have hprint : t.css options.compress root = css := Option.some.inj hcss
  rw [← hprint, hcompress, Store.css, Css.print]
  exact (Css.allCss_ruleTokens _ { fresh := true }).symm

namespace Css

/-- A media block with a declaration before a ruleset. -/
def printSheet : List Rule :=
  [.media { features := "print" } [.declaration { name := "width", value := .literal "1" },
    .ruleset { selectors := [{ elements := [⟨.compound, ".a"⟩] }] }
      [.declaration { name := "top", value := .literal "0" },
        .declaration { name := "left", value := .literal "0", important := true }]]]

/-- A ruleset behind some other rules. -/
def beforeRuleset (rules : List Rule) : List Rule :=
  rules ++ [.ruleset { selectors := [{ elements := [⟨.compound, ".a"⟩] }] }
    [.declaration { name := "width", value := .literal "1" }]]

end Css

/-- A media block keeps the semicolon between its declarations and its rulesets. -/
theorem compileToCss_separated_iff_printSheet :
    compileToCss Css.printSheet { compress := true } none =
        .ok "@media print\x7bwidth:1;.a\x7btop:0;left:0!important\x7d\x7d" ∧
      ∃ root t,
        (do compileTree { options := { compress := true } } (← numberRules Css.printSheet) :
          CompileM Ruleset).run.run {} = (.ok root, t) ∧
        Css.Token.Separated (Css.tokens root.header (t.rulesOf root.rules)) := by
  have hcss : compileToCss Css.printSheet { compress := true } none =
      .ok "@media print\x7bwidth:1;.a\x7btop:0;left:0!important\x7d\x7d" := by decide +kernel
  have hapart : ((do
      let root ← (do
        compileTree { options := { compress := true } } (← numberRules Css.printSheet) :
          CompileM Ruleset)
      return (Rule.ruleset root.header ((← get).rulesOf root.rules)).runsOn :
        CompileM Bool).run.run {}).1.toOption = some false := by decide +kernel
  obtain ⟨root, t, hrun, -, hiff⟩ := compileToCss_separated_iff rfl hcss
  rw [run_bind_ok hrun] at hapart
  exact ⟨hcss, root, t, hrun, hiff.2 (Option.some.inj hapart)⟩

/-- A declaration of the outermost document runs into the ruleset behind it, and so does one of a
document that stands among rulesets. -/
theorem compileToCss_declaration_runs_on :
    let color : Rule := .declaration { name := "color", value := .literal "red" }
    compileToCss (Css.beforeRuleset [color]) { compress := true } none =
        .ok "color:red.a\x7bwidth:1\x7d" ∧
      compileToCss (Css.beforeRuleset [.ruleset { root := true } [color]]) { compress := true }
        none = .ok "color:red.a\x7bwidth:1\x7d" ∧
      Css.Token.allCss (Css.tokens Header.document (Css.beforeRuleset [color])) =
        "color:red.a\x7bwidth:1\x7d" ∧
      ¬Css.Token.Separated (Css.tokens Header.document (Css.beforeRuleset [color])) := by
  refine ⟨by decide +kernel, by decide +kernel, by decide +kernel, ?_⟩
  rw [Css.tokens, Css.separated_ruleTokens]
  decide +kernel

end Stylesheet
