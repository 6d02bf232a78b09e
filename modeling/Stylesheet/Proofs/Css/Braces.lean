import Stylesheet.Css
import Stylesheet.Proofs.Except

/-!
# Balanced output

A text is balanced if it has as many closing braces as opening ones, and no part of it from the
start on has more. Texts without braces are balanced, and so is what stands in braces if it is
balanced itself.

The printer writes braces in pairs around bodies, so a rule is printed as a balanced text wherever
it stands, unless there are braces in the texts that it is made of.
-/

namespace Stylesheet

namespace Text

/-- There is no brace in the text. -/
def NoBraces (text : String) : Prop := '\x7b' ∉ text.toList ∧ '\x7d' ∉ text.toList

instance : DecidablePred NoBraces :=
  fun text => inferInstanceAs (Decidable ('\x7b' ∉ text.toList ∧ '\x7d' ∉ text.toList))

/-- Every closing brace closes an opening one before it, and none is left open. -/
structure Balanced (text : String) : Prop where
  closed : ∀ start, start <+: text.toList → start.count '\x7d' ≤ start.count '\x7b'
  settled : text.toList.count '\x7d' = text.toList.count '\x7b'

theorem NoBraces.balanced {text : String} (h : NoBraces text) : Balanced text where
  closed := by
    intro start hstart
    rw [List.count_eq_zero_of_not_mem (mt (hstart.subset ·) h.2)]
    exact Nat.zero_le _
  settled := by rw [List.count_eq_zero_of_not_mem h.1, List.count_eq_zero_of_not_mem h.2]

theorem balanced_empty : Balanced "" := NoBraces.balanced (by decide)

theorem Balanced.ite {p : Prop} [Decidable p] {text other : String} (h : Balanced text)
    (hother : Balanced other) : Balanced (if p then text else other) := by
  split
  · exact h
  · exact hother

/-- A text after another starts where no brace is open. -/
theorem Balanced.append {text more : String} (h : Balanced text) (hmore : Balanced more) :
    Balanced (text ++ more) where
  closed := by
    intro start hstart
    rw [String.toList_append] at hstart
    rcases List.prefix_or_prefix_of_prefix hstart (List.prefix_append _ _) with hle | ⟨rest, rfl⟩
    · exact h.closed start hle
    · have hrest := hmore.closed rest ((List.prefix_append_right_inj _).1 hstart)
      rw [List.count_append, List.count_append, h.settled]
      exact Nat.add_le_add_left hrest _
  settled := by
    rw [String.toList_append, List.count_append, List.count_append, h.settled, hmore.settled]

theorem Balanced.braces {text : String} (h : Balanced text) :
    Balanced ("\x7b" ++ text ++ "\x7d") := by
  have hchars : ("\x7b" ++ text ++ "\x7d").toList = '\x7b' :: (text.toList ++ ['\x7d']) := by
    rw [String.toList_append, String.toList_append]
    rfl
  have hopen (start : List Char) : ('\x7b' :: start).count '\x7d' = start.count '\x7d' ∧
      ('\x7b' :: start).count '\x7b' = start.count '\x7b' + 1 :=
    ⟨List.count_cons_of_ne (by decide), List.count_cons_self⟩
  have hclose : (text.toList ++ ['\x7d']).count '\x7d' = text.toList.count '\x7d' + 1 ∧
      (text.toList ++ ['\x7d']).count '\x7b' = text.toList.count '\x7b' := by
    constructor <;> simp
  have hsettled := h.settled
  constructor
  · intro start hstart
    rw [hchars, List.prefix_cons_iff] at hstart
    rcases hstart with rfl | ⟨inner, rfl, hinner⟩
    · exact Nat.le_refl _
    · rw [(hopen inner).1, (hopen inner).2]
      rcases List.prefix_concat_iff.1 hinner with rfl | hinside
      · omega
      · exact Nat.le_succ_of_le (h.closed inner hinside)
  · rw [hchars, (hopen _).1, (hopen _).2]
    omega

theorem balanced_join {texts : List String} (h : ∀ text ∈ texts, Balanced text) :
    Balanced (String.join texts) := by
  induction texts with
  | nil => exact balanced_empty
  | cons text texts ih =>
    rw [String.join_cons]
    rw [List.forall_mem_cons] at h
    exact h.1.append (ih h.2)

theorem balanced_intercalate {gap : String} {texts : List String} (hgap : Balanced gap)
    (h : ∀ text ∈ texts, Balanced text) : Balanced (gap.intercalate texts) := by
  induction texts with
  | nil => exact balanced_empty
  | cons text texts ih =>
    rw [List.forall_mem_cons] at h
    cases texts with
    | nil => simpa using h.1
    | cons next texts =>
      rw [String.intercalate_cons_cons]
      exact (h.1.append hgap).append (ih h.2)

end Text

open Text

section Texts

/-- The texts that a selector is printed with. -/
def Selector.values (s : Selector) : List String := s.elements.map (·.value)

/-- The texts that the paths of a header are printed with, whether it was joined or not. -/
def Header.values (header : Header) : List String :=
  header.selectors.flatMap Selector.values ++ header.paths.flatMap (·.flatMap Selector.values)

namespace Rule

mutual

/-- The texts that a rule is made of: names, values, selectors, paths, features and comments. Mixin
definitions and calls have none, since they are not printed. -/
def texts : Rule → List String
  | .declaration d => [d.name, d.value.text]
  | .ruleset header rules => header.values ++ allTexts rules
  | .inclusion i => [i.path]
  | .comment c => [c.text]
  | .media head rules => head.features :: allTexts rules
  | .directive head none => head.name :: head.value.toList
  | .directive head (some rules) => head.name :: head.value.toList ++ allTexts rules
  | .definition .. | .call _ => []

/-- The texts that some rules are made of. -/
def allTexts : List Rule → List String
  | [] => []
  | rule :: rules => texts rule ++ allTexts rules

end

end Rule

end Texts

section Selectors

variable (compact : Bool)

theorem Combinator.balanced_css (c : Combinator) : Balanced (c.css compact) := by
  refine NoBraces.balanced ?_
  cases c <;> cases compact <;> decide

theorem Element.balanced_css {e : Element} (h : NoBraces e.value) : Balanced (e.css compact) :=
  (Combinator.balanced_css compact e.combinator).append h.balanced

theorem Path.balanced_leadCss (atStart : Bool) (c : Combinator) :
    Balanced (leadCss compact atStart c) := by
  refine NoBraces.balanced ?_
  cases c <;> cases compact <;> cases atStart <;> decide

theorem Path.balanced_selectorCss (atStart : Bool) {s : Selector}
    (h : ∀ text ∈ s.values, NoBraces text) : Balanced (selectorCss compact atStart s) := by
  obtain ⟨elements, evaluated⟩ := s
  cases elements with
  | nil => exact balanced_empty
  | cons e es =>
    rw [Selector.values, List.map_cons, List.forall_mem_cons] at h
    refine ((balanced_leadCss compact atStart _).append h.1.balanced).append (balanced_join ?_)
    intro text htext
    obtain ⟨other, hother, rfl⟩ := List.mem_map.1 htext
    exact Element.balanced_css compact (h.2 _ (List.mem_map_of_mem hother))

theorem Path.balanced_css {path : Path} (h : ∀ text ∈ path.flatMap Selector.values, NoBraces text) :
    Balanced (path.css compact) := by
  cases path with
  | nil => exact balanced_empty
  | cons s rest =>
    rw [List.flatMap_cons, List.forall_mem_append] at h
    refine (balanced_selectorCss compact true h.1).append (balanced_join ?_)
    intro text htext
    obtain ⟨other, hother, rfl⟩ := List.mem_map.1 htext
    exact balanced_selectorCss compact false fun text htext =>
      h.2 text (List.mem_flatMap.2 ⟨other, hother, htext⟩)

end Selectors

namespace Css

section Parts

variable (compact : Bool)

theorem balanced_indent (level : Nat) : Balanced (indent compact level) := by
  refine Balanced.ite balanced_empty (balanced_join fun text htext => ?_)
  rw [List.eq_of_mem_replicate htext]
  exact NoBraces.balanced (by decide)

theorem balanced_lineBreak (level : Nat) : Balanced (lineBreak compact level) := by
  have hloose : Balanced ("\n" ++ indent compact level) :=
    (NoBraces.balanced (by decide)).append (balanced_indent compact level)
  exact Balanced.ite balanced_empty hloose

/-- The braces of a body are a pair. -/
theorem balanced_opening_closing (level : Nat) {body : String} (h : Balanced body) :
    Balanced (opening compact level ++ body ++ closing compact level) := by
  have hinside : Balanced (lineBreak compact (level + 1) ++ body ++ lineBreak compact level) :=
    ((balanced_lineBreak compact _).append h).append (balanced_lineBreak compact _)
  have hbefore : Balanced (if compact then "" else " ") := by
    refine NoBraces.balanced ?_
    cases compact <;> decide
  have hopening : opening compact level =
      (if compact then "" else " ") ++ "\x7b" ++ lineBreak compact (level + 1) := by
    cases compact <;> rfl
  have hsplit : opening compact level ++ body ++ closing compact level =
      (if compact then "" else " ") ++
        ("\x7b" ++ (lineBreak compact (level + 1) ++ body ++ lineBreak compact level) ++
          "\x7d") := by
    rw [hopening, closing]
    simp only [String.append_assoc]
  rw [hsplit]
  exact hbefore.append hinside.braces

theorem balanced_pathsCss (level : Nat) {paths : List Path}
    (h : ∀ path ∈ paths, Balanced (path.css compact)) :
    Balanced (pathsCss compact level paths) := by
  refine balanced_intercalate ?_ ?_
  · exact (NoBraces.balanced (by decide)).append (balanced_lineBreak compact level)
  · intro text htext
    obtain ⟨path, hpath, rfl⟩ := List.mem_map.1 htext
    exact h path hpath

theorem balanced_headerPaths {header : Header} (h : ∀ text ∈ header.values, NoBraces text) :
    ∀ path ∈ headerPaths header, Balanced (path.css compact) := by
  rw [Header.values, List.forall_mem_append] at h
  intro path hpath
  refine Path.balanced_css compact fun text htext => ?_
  unfold headerPaths at hpath
  split at hpath
  · obtain ⟨s, hs, rfl⟩ := List.mem_map.1 hpath
    rw [List.flatMap_singleton] at htext
    exact h.1 text (List.mem_flatMap.2 ⟨s, hs, htext⟩)
  · exact h.2 text (List.mem_flatMap.2 ⟨path, hpath, htext⟩)

theorem balanced_declarationCss (last : Bool) {d : Declaration} (hname : NoBraces d.name)
    (hvalue : NoBraces d.value.text) : Balanced (declarationCss compact last d) := by
  have hcolon : Balanced (if compact then ":" else ": ") :=
    NoBraces.balanced (by cases compact <;> decide)
  have himportant : Balanced
      (if d.important then (if compact then "!important" else " !important") else "") :=
    NoBraces.balanced (by cases d.important <;> cases compact <;> decide)
  have hend : Balanced (if compact && last then "" else ";") :=
    NoBraces.balanced (by cases compact <;> cases last <;> decide)
  exact (((hname.balanced.append hcolon).append hvalue.balanced).append himportant).append hend

theorem balanced_directiveCss {head : DirectiveHead} (hname : NoBraces head.name)
    (hvalue : ∀ value ∈ head.value, NoBraces value) : Balanced (directiveCss head) := by
  unfold directiveCss
  split
  · exact hname.balanced
  · rename_i value hsome
    exact (hname.balanced.append (NoBraces.balanced (by decide))).append
      (hvalue value hsome).balanced

end Parts

section Bodies

variable {compact : Bool} {items : List Item}

theorem balanced_plainCss (h : ∀ item ∈ items, ∀ place, Balanced (item.css place)) {gap : String}
    (hgap : Balanced gap) (level : Nat) (ends : Bool) :
    Balanced (plainCss level gap ends items) := by
  induction items with
  | nil => exact balanced_empty
  | cons item rest ih =>
    rw [List.forall_mem_cons] at h
    cases rest with
    | nil => exact (h.1 _).append (Balanced.ite balanced_empty hgap)
    | cons next rest => exact ((h.1 _).append hgap).append (ih h.2)

theorem balanced_blocksCss (h : ∀ item ∈ items, ∀ place, Balanced (item.css place))
    {gap lead : String} (hgap : Balanced gap) (hlead : Balanced lead) (level : Nat)
    (fresh : Bool) : Balanced (blocksCss level gap lead fresh items) := by
  induction items generalizing lead fresh with
  | nil => exact balanced_empty
  | cons item rest ih =>
    rw [List.forall_mem_cons] at h
    exact (hlead.append (h.1 _)).append (ih h.2 hgap _)

/-- A body is balanced if its items and its paths are. -/
theorem balanced_bodyCss (h : ∀ item ∈ items, ∀ place, Balanced (item.css place))
    {paths : Option (List Path)}
    (hpaths : ∀ shown ∈ paths, ∀ path ∈ shown, Balanced (path.css compact)) (place : Place)
    (firstRoot : Bool) : Balanced (bodyCss compact place paths firstRoot items) := by
  have hshown (p : Item → Bool) : ∀ item ∈
      (items.filter (·.rule.isVisible compact)).filter p, ∀ place, Balanced (item.css place) :=
    fun item hitem => h item (List.mem_of_mem_filter (List.mem_of_mem_filter hitem))
  have hgap := balanced_lineBreak compact place.level
  refine Balanced.ite (NoBraces.balanced (by decide)) (Balanced.append ?_ ?_)
  · cases paths with
    | none => exact balanced_plainCss (hshown _) hgap _ _
    | some paths =>
      have hplain := balanced_plainCss (hshown (!·.rule.isBlock false))
        (balanced_lineBreak compact (place.level + 1)) place.level true
      have hbody := balanced_opening_closing compact place.level hplain
      have hfront := (balanced_pathsCss compact place.level (hpaths paths rfl)).append hbody
      rw [← String.append_assoc, ← String.append_assoc] at hfront
      exact Balanced.ite balanced_empty hfront
  · exact balanced_blocksCss (hshown _) hgap (Balanced.ite balanced_empty hgap) _ _

theorem balanced_blockCss (h : ∀ item ∈ items, ∀ place, Balanced (item.css place)) (level : Nat) :
    Balanced (blockCss compact level items) :=
  balanced_opening_closing compact level
    (balanced_bodyCss h (fun _ hpaths => by cases hpaths) { level := level + 1 } false)

end Bodies

mutual

/-- A rule without braces in its texts is printed as a balanced text, wherever it stands. -/
theorem balanced_ruleCss (compact : Bool) : ∀ rule : Rule, (∀ text ∈ rule.texts, NoBraces text) →
    ∀ place, Balanced (ruleCss compact rule place)
  | .declaration d, h, place => by
    rw [Rule.texts, List.forall_mem_cons, List.forall_mem_singleton] at h
    exact balanced_declarationCss compact place.last h.1 h.2
  | .ruleset header rules, h, place => by
    rw [Rule.texts, List.forall_mem_append] at h
    refine balanced_bodyCss (balanced_items compact rules h.2) ?_ place _
    intro paths hpaths
    split at hpaths
    · cases hpaths
    · obtain ⟨⟩ := hpaths
      exact balanced_headerPaths compact h.1
  | .media head rules, h, place => by
    rw [Rule.texts, List.forall_mem_cons] at h
    exact ((NoBraces.balanced (by decide)).append h.1.balanced).append
      (balanced_blockCss (balanced_items compact rules h.2) place.level)
  | .directive head none, h, place => by
    rw [Rule.texts, List.forall_mem_cons] at h
    have hhead := balanced_directiveCss h.1 fun value hvalue => h.2 value (by simpa using hvalue)
    exact hhead.append (NoBraces.balanced (by decide))
  | .directive head (some rules), h, place => by
    rw [Rule.texts, List.forall_mem_append, List.forall_mem_cons] at h
    obtain ⟨⟨hname, hvalue⟩, hrules⟩ := h
    have hhead := balanced_directiveCss hname fun value hmem => hvalue value (by simpa using hmem)
    exact hhead.append (balanced_blockCss (balanced_items compact rules hrules) place.level)
  | .inclusion i, h, _ => by
    rw [Rule.texts, List.forall_mem_singleton] at h
    exact ((NoBraces.balanced (by decide)).append h.balanced).append (NoBraces.balanced (by decide))
  | .comment c, h, _ => by
    rw [Rule.texts, List.forall_mem_singleton] at h
    exact h.balanced
  | .definition .., _, _ | .call _, _, _ => balanced_empty

theorem balanced_items (compact : Bool) : ∀ rules : List Rule,
    (∀ text ∈ Rule.allTexts rules, NoBraces text) →
      ∀ item ∈ items compact rules, ∀ place, Balanced (item.css place)
  | [], _ => List.forall_mem_nil _
  | rule :: rules, h => by
    rw [Rule.allTexts, List.forall_mem_append] at h
    exact List.forall_mem_cons.2
      ⟨balanced_ruleCss compact rule h.1, balanced_items compact rules h.2⟩

end

end Css

end Stylesheet
