import Stylesheet.Compile.Basic
import Stylesheet.Proofs.Except

/-!
# Compact and loose output

The ink of a text is what is left of it without white space and semicolons. Where a
rule is printed and whether the output is compact decides on line breaks, blanks and
semicolons only, so the ink of a rule does not depend on it.

There is one condition. Compact output leaves out comments that do not ask to be kept,
so every comment has to be silent or to ask for it. Then the same rules are visible in
both modes, and each of them leaves the same ink.
-/

namespace Stylesheet

namespace Text

/-- Whether a character is neither white space nor a semicolon. -/
def isInk (c : Char) : Bool := !isBlank c && c != ';'

/-- A text without its white space and semicolons. -/
def ink (text : String) : String := String.ofList (text.toList.filter isInk)

@[simp] theorem ink_empty : ink "" = "" := rfl

@[simp] theorem ink_append (s t : String) : ink (s ++ t) = ink s ++ ink t := by
  simp [ink]

theorem ink_join (texts : List String) : ink (String.join texts) = String.join (texts.map ink) := by
  induction texts with
  | nil => rfl
  | cons text texts ih => rw [String.join_cons, ink_append, ih, List.map_cons, String.join_cons]

theorem ink_intercalate (gap : String) (texts : List String) :
    ink (gap.intercalate texts) = (ink gap).intercalate (texts.map ink) := by
  induction texts with
  | nil => rfl
  | cons text texts ih =>
    cases texts with
    | nil => simp
    | cons next texts =>
      rw [String.intercalate_cons_cons, ink_append, ink_append, ih]
      simp only [List.map_cons, String.intercalate_cons_cons]

/-- Texts that have the same ink one by one have it together. -/
theorem ink_join_map_congr {α : Type} {f g : α → String} (h : ∀ a, ink (f a) = ink (g a))
    (l : List α) : ink (String.join (l.map f)) = ink (String.join (l.map g)) := by
  rw [ink_join, ink_join, List.map_map, List.map_map]
  exact congrArg String.join (List.map_congr_left fun a _ => h a)

end Text

open Text

section Selectors

variable (mode mode' : Bool)

theorem Combinator.ink_css (c : Combinator) : ink (c.css mode) = ink (c.css mode') := by
  cases c <;> cases mode <;> cases mode' <;> decide

theorem Element.ink_css (e : Element) : ink (e.css mode) = ink (e.css mode') := by
  rw [Element.css, Element.css, ink_append, ink_append, Combinator.ink_css mode mode']

theorem Path.ink_leadCss (atStart : Bool) (c : Combinator) :
    ink (leadCss mode atStart c) = ink (leadCss mode' atStart c) := by
  cases c <;> first | rfl | exact Combinator.ink_css mode mode' _

theorem Path.ink_selectorCss (atStart : Bool) (s : Selector) :
    ink (selectorCss mode atStart s) = ink (selectorCss mode' atStart s) := by
  unfold selectorCss
  cases s.elements with
  | nil => rfl
  | cons e es =>
    simp only [ink_append, ink_leadCss mode mode', ink_join_map_congr (Element.ink_css mode mode')]

theorem Path.ink_css (path : Path) : ink (path.css mode) = ink (path.css mode') := by
  cases path with
  | nil => rfl
  | cons s rest =>
    simp only [css, ink_append, ink_selectorCss mode mode',
      ink_join_map_congr (ink_selectorCss mode mode' false)]

end Selectors

namespace Rule

mutual

/-- The comments in a rule, at any depth. -/
def comments : Rule → List Comment
  | .comment c => [c]
  | .ruleset _ rules | .definition _ rules | .media _ rules => allComments rules
  | .directive _ (some rules) => allComments rules
  | _ => []

/-- The comments in some rules, at any depth. -/
def allComments : List Rule → List Comment
  | [] => []
  | rule :: rules => comments rule ++ allComments rules

end

end Rule

/-- The comment is silent, or asks to be kept in compact output. -/
def Comment.Marked (c : Comment) : Prop :=
  c.silent = false → ['/', '*', '!'] <+: c.text.toList

theorem Comment.Marked.isPrinted_eq {c : Comment} (h : c.Marked) (mode mode' : Bool) :
    c.isPrinted mode = c.isPrinted mode' := by
  cases hs : c.silent with
  | true => simp [Comment.isPrinted, hs]
  | false =>
    have hprefix : ['/', '*', '!'].isPrefixOf c.text.toList = true :=
      List.isPrefixOf_iff_prefix.2 (h hs)
    simp [Comment.isPrinted, hprefix]

namespace Rule

mutual

/-- Where comments are marked, both modes show the same rules. -/
theorem isVisible_eq (mode mode' : Bool) : ∀ rule : Rule, (∀ c ∈ rule.comments, c.Marked) →
    rule.isVisible mode = rule.isVisible mode'
  | .ruleset _ rules, h | .media _ rules, h => anyVisible_eq mode mode' rules h
  | .comment c, h => (h c (List.mem_singleton_self c)).isPrinted_eq mode mode'
  | .declaration _, _ | .definition .., _ | .call _, _ | .inclusion _, _ | .directive .., _ => rfl

theorem anyVisible_eq (mode mode' : Bool) : ∀ rules : List Rule,
    (∀ c ∈ allComments rules, c.Marked) → anyVisible mode rules = anyVisible mode' rules
  | [], _ => rfl
  | rule :: rules, h => by
    rw [allComments, List.forall_mem_append] at h
    rw [anyVisible, anyVisible, isVisible_eq mode mode' rule h.1,
      anyVisible_eq mode mode' rules h.2]

end

end Rule

namespace Css

section Parts

variable (mode mode' : Bool)

@[simp] theorem ink_indent (level : Nat) : ink (indent mode level) = "" := by
  unfold indent
  split
  · rfl
  · rw [ink_join, List.map_replicate]
    induction level with
    | zero => rfl
    | succ level ih => rw [List.replicate_succ, String.join_cons, ih]; rfl

@[simp] theorem ink_lineBreak (level : Nat) : ink (lineBreak mode level) = "" := by
  unfold lineBreak
  split
  · rfl
  · rw [ink_append, ink_indent]; rfl

theorem ink_opening (level : Nat) : ink (opening mode level) = "\x7b" := by
  unfold opening
  split
  · rfl
  · rw [ink_append, ink_lineBreak]; rfl

theorem ink_closing (level : Nat) : ink (closing mode level) = "\x7d" := by
  rw [closing, ink_append, ink_lineBreak]; rfl

theorem ink_pathsCss (level level' : Nat) (paths : List Path) :
    ink (pathsCss mode level paths) = ink (pathsCss mode' level' paths) := by
  have hgap : ink ("," ++ lineBreak mode level) = ink ("," ++ lineBreak mode' level') := by
    rw [ink_append, ink_append, ink_lineBreak, ink_lineBreak]
  rw [pathsCss, pathsCss, ink_intercalate, ink_intercalate, hgap, List.map_map, List.map_map]
  exact congrArg _ (List.map_congr_left fun path _ => Path.ink_css mode mode' path)

theorem ink_declarationCss (last last' : Bool) (d : Declaration) :
    ink (declarationCss mode last d) = ink (declarationCss mode' last' d) := by
  have hcolon : ∀ mode : Bool, ink (if mode then ":" else ": ") = ":" := by decide
  have himportant : ∀ mode : Bool,
      ink (if d.important then (if mode then "!important" else " !important") else "") =
        if d.important then "!important" else "" := by
    cases d.important <;> decide
  have hend : ∀ mode : Bool, ink (if mode then "" else ";") = "" := by decide
  simp only [declarationCss, ink_append, hcolon, himportant, hend]

end Parts

/-- The first item in one mode and the second in the other are both visible or not, are in the same
part of a body, and leave the same ink, wherever they stand. -/
structure Item.SameInk (mode mode' : Bool) (a b : Item) : Prop where
  isVisible : a.rule.isVisible mode = b.rule.isVisible mode'
  isBlock : ∀ atRoot, a.rule.isBlock atRoot = b.rule.isBlock atRoot
  css : ∀ place place', ink (a.css place) = ink (b.css place')

/-- The items of the first list in one mode and those of the second in the other leave the same
ink, one by one. -/
def SameInk (mode mode' : Bool) (items items' : List Item) : Prop :=
  List.Forall₂ (Item.SameInk mode mode') items items'

section Bodies

variable {mode mode' : Bool} {items items' : List Item}

theorem SameInk.filter (h : SameInk mode mode' items items') {p q : Item → Bool}
    (hp : ∀ a b, Item.SameInk mode mode' a b → p a = q b) :
    SameInk mode mode' (items.filter p) (items'.filter q) := by
  refine List.rel_filter ?_ h
  intro a b hab
  dsimp only
  rw [hp a b hab]

theorem SameInk.isEmpty_eq (h : SameInk mode mode' items items') : items.isEmpty = items'.isEmpty :=
  (isEmpty_eq_of_forall₂ h).symm

theorem ink_gap (b : Bool) {gap : String} (hgap : ink gap = "") :
    ink (if b then "" else gap) = "" := by
  cases b with
  | true => rfl
  | false => exact hgap

theorem ink_plainCss (h : SameInk mode mode' items items') {gap gap' : String}
    (hgap : ink gap = "") (hgap' : ink gap' = "") (level level' : Nat) (ends ends' : Bool) :
    ink (plainCss level gap ends items) = ink (plainCss level' gap' ends' items') := by
  induction h with
  | nil => rfl
  | @cons a b _ _ hitem hrest ih =>
    have hcss : ∀ place place', ink (a.css place) = ink (b.css place') := hitem.css
    cases hrest with
    | nil =>
      rw [plainCss, plainCss, ink_append, ink_append, ink_gap ends hgap, ink_gap ends' hgap',
        hcss _ { level := level', last := ends' }]
    | cons _ _ =>
      rw [plainCss, plainCss, ink_append, ink_append, ink_append, ink_append, hgap, hgap', ih,
        hcss _ { level := level' }]

theorem ink_blocksCss (h : SameInk mode mode' items items') {gap gap' lead lead' : String}
    (hgap : ink gap = "") (hgap' : ink gap' = "") (hlead : ink lead = "") (hlead' : ink lead' = "")
    (level level' : Nat) (fresh fresh' : Bool) :
    ink (blocksCss level gap lead fresh items) =
      ink (blocksCss level' gap' lead' fresh' items') := by
  induction h generalizing lead lead' fresh fresh' with
  | nil => rfl
  | cons hitem _ ih =>
    simp only [blocksCss, ink_append, hlead, hlead']
    rw [ih hgap hgap', hitem.css]

/-- The line break that stands for an empty document leaves no ink. -/
theorem ink_ite_lineFeed (css : String) (b : Bool) :
    ink (if css.isEmpty && b then "\n" else css) = ink css := by
  split
  next h =>
    obtain rfl : css = "" := by simpa using (Bool.and_eq_true_iff.1 h).1
    rfl
  next => rfl

/-- The plain rules of a body leave the same ink in both modes, and so do its blocks. -/
theorem ink_bodyCss (h : SameInk mode mode' items items') (place place' : Place)
    (paths : Option (List Path)) (firstRoot : Bool) :
    ink (bodyCss mode place paths firstRoot items) =
      ink (bodyCss mode' place' paths firstRoot items') := by
  have hshown := h.filter (p := (·.rule.isVisible mode)) (q := (·.rule.isVisible mode'))
    fun _ _ hab => hab.isVisible
  have hblocks := hshown.filter (p := (·.rule.isBlock paths.isNone))
    (q := (·.rule.isBlock paths.isNone)) fun _ _ hab => hab.isBlock _
  have hplain := hshown.filter (p := (!·.rule.isBlock paths.isNone))
    (q := (!·.rule.isBlock paths.isNone)) fun _ _ hab => congrArg (!·) (hab.isBlock _)
  simp only [bodyCss, Bool.and_assoc, ink_ite_lineFeed, ink_append]
  -- The plain rules with the header around them come first, then the blocks.
  congr 1
  · cases paths with
    | none => exact ink_plainCss hplain (ink_lineBreak ..) (ink_lineBreak ..) _ _ _ _
    | some paths =>
      dsimp only
      rw [hplain.isEmpty_eq]
      split
      · rfl
      · simp only [ink_append, ink_opening, ink_closing]
        rw [ink_pathsCss mode mode' _ place'.level,
          ink_plainCss hplain (ink_lineBreak ..) (ink_lineBreak ..) _ place'.level]
  · exact ink_blocksCss hblocks (ink_lineBreak ..) (ink_lineBreak ..)
      (ink_gap _ (ink_lineBreak ..)) (ink_gap _ (ink_lineBreak ..)) _ _ _ _

theorem ink_blockCss (h : SameInk mode mode' items items') (level level' : Nat) :
    ink (blockCss mode level items) = ink (blockCss mode' level' items') := by
  rw [blockCss, blockCss]
  simp only [ink_append, ink_opening, ink_closing]
  rw [ink_bodyCss h]

end Bodies

mutual

/-- A rule leaves the same ink in both modes, wherever it is printed. -/
theorem ink_ruleCss (mode mode' : Bool) : ∀ rule : Rule, (∀ c ∈ rule.comments, c.Marked) →
    ∀ place place', ink (ruleCss mode rule place) = ink (ruleCss mode' rule place')
  | .declaration d, _, place, place' => ink_declarationCss mode mode' place.last place'.last d
  | .ruleset header rules, h, place, place' => by
    rw [ruleCss, ruleCss]
    exact ink_bodyCss (sameInk_items mode mode' rules h) place place' _ _
  | .media head rules, h, place, place' => by
    rw [ruleCss, ruleCss, ink_append, ink_append (_ ++ _),
      ink_blockCss (sameInk_items mode mode' rules h) place.level place'.level]
  | .directive head (some rules), h, place, place' => by
    rw [ruleCss, ruleCss, ink_append, ink_append,
      ink_blockCss (sameInk_items mode mode' rules h) place.level place'.level]
  | .definition .., _, _, _ | .call _, _, _, _ | .inclusion _, _, _, _ | .comment _, _, _, _
  | .directive _ none, _, _, _ => rfl

theorem sameInk_items (mode mode' : Bool) : ∀ rules : List Rule,
    (∀ c ∈ Rule.allComments rules, c.Marked) → SameInk mode mode' (items mode rules)
      (items mode' rules)
  | [], _ => .nil
  | rule :: rules, h => by
    rw [Rule.allComments, List.forall_mem_append] at h
    have hrule : Item.SameInk mode mode' ⟨rule, ruleCss mode rule⟩ ⟨rule, ruleCss mode' rule⟩ :=
      ⟨rule.isVisible_eq mode mode' h.1, fun _ => rfl, ink_ruleCss mode mode' rule h.1⟩
    exact .cons hrule (sameInk_items mode mode' rules h.2)

end

end Css

/-- Compact and loose output differ in white space and semicolons only. The ruleset may be compiled
or not, and joined or not, and the blocks it refers to are printed with it. -/
theorem Store.ink_css_compact (s : Store) (r : Ruleset)
    (h : ∀ c ∈ Rule.allComments (s.rulesOf r.rules),
      c.silent = false → ['/', '*', '!'] <+: c.text.toList) :
    ink (s.css true r) = ink (s.css false r) :=
  Css.ink_ruleCss true false (.ruleset r.header (s.rulesOf r.rules)) h _ _

namespace Css

/-- A store with the block `@media print { .a > .b { width: 0 !important; } }`, which was joined. -/
def printed : Store where
  blocks := [⟨{ features := "print" }, [.ruleset {
    serial := 1
    source := some 0
    header := {
      selectors := [{ elements := [⟨.child, ".b"⟩] }]
      paths := [[{ elements := [⟨.compound, ".a"⟩] }, { elements := [⟨.child, ".b"⟩] }]] }
    rules := [.declaration { name := "width", value := .literal "0", important := true }] }]⟩]

/-- A document with comments, a ruleset that was not joined, and that block. -/
def sheet : Ruleset where
  serial := 2
  source := none
  header := Header.document
  rules := [
    .comment { text := "/*! kept */" }, .comment { text := "// lost", silent := true },
    .ruleset {
      serial := 3
      source := none
      header := { selectors := [{ elements := [⟨.compound, ".c"⟩, ⟨.sibling, ".d"⟩] },
        { elements := [⟨.descendant, ".e"⟩] }] }
      rules := [.declaration { name := "color", value := .literal "red" },
        .declaration { name := "margin", value := .literal "0 auto" }] },
    .block 0]

end Css

/-- The two texts are not the same. -/
theorem Store.ink_css_compact_sheet :
    Css.printed.css true Css.sheet =
      "/*! kept */.c+.d,.e\x7bcolor:red;margin:0 auto\x7d" ++
        "@media print\x7b.a>.b\x7bwidth:0!important\x7d\x7d" ∧
    Css.printed.css false Css.sheet =
      "/*! kept */\n.c + .d,\n.e \x7b\n  color: red;\n  margin: 0 auto;\n\x7d\n" ++
        "@media print \x7b\n  .a > .b \x7b\n    width: 0 !important;\n  \x7d\n\x7d" ∧
    ink (Css.printed.css true Css.sheet) = ink (Css.printed.css false Css.sheet) :=
  ⟨by decide +kernel, by decide +kernel, Store.ink_css_compact _ _ (by decide +kernel)⟩

end Stylesheet
