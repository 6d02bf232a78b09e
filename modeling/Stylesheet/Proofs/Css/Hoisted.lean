import Stylesheet.Css
import Stylesheet.Proofs.Node.Reading

/-!
# Nested and flat output

A ruleset prints its plain rules in braces, and its blocks behind them on the same level. So
it prints as if its blocks stood behind it in the list that it stands in. It does not matter
whether the ruleset has plain rules that are visible, whether its blocks are, or whether it
is the first or the last in its list: what is printed between two blocks is decided by
the blocks that are visible.

A block that several nodes refer to is changed for all of them. So what is related here
are trees in which any number of rulesets are taken apart at once.
-/

namespace Stylesheet

namespace Css

/-- The plain rules of a body that are printed. -/
def shownPlain (compact atRoot : Bool) (rules : List Rule) : List Item :=
  ((items compact rules).filter (·.rule.isVisible compact)).filter (!·.rule.isBlock atRoot)

/-- The blocks of a body that are printed. -/
def shownBlocks (compact atRoot : Bool) (rules : List Rule) : List Item :=
  ((items compact rules).filter (·.rule.isVisible compact)).filter (·.rule.isBlock atRoot)

/-- The plain rules of a ruleset with its paths, if there are any. -/
def rulesetText (compact : Bool) (level : Nat) (paths : List Path) (plain : List Item) : String :=
  if plain.isEmpty then ""
  else
    pathsCss compact level paths ++ opening compact level ++
      plainCss level (lineBreak compact (level + 1)) true plain ++ closing compact level

section Shown

variable {compact atRoot : Bool} {rule : Rule} {rules : List Rule}

theorem shownPlain_cons (compact atRoot : Bool) (rule : Rule) (rules : List Rule) :
    shownPlain compact atRoot (rule :: rules) =
      if rule.isVisible compact && !rule.isBlock atRoot then
        ⟨rule, ruleCss compact rule⟩ :: shownPlain compact atRoot rules
      else shownPlain compact atRoot rules := by
  cases hvisible : rule.isVisible compact <;> cases hblock : rule.isBlock atRoot <;>
    simp [shownPlain, items, hvisible, hblock]

theorem shownBlocks_cons (compact atRoot : Bool) (rule : Rule) (rules : List Rule) :
    shownBlocks compact atRoot (rule :: rules) =
      if rule.isVisible compact && rule.isBlock atRoot then
        ⟨rule, ruleCss compact rule⟩ :: shownBlocks compact atRoot rules
      else shownBlocks compact atRoot rules := by
  cases hvisible : rule.isVisible compact <;> cases hblock : rule.isBlock atRoot <;>
    simp [shownBlocks, items, hvisible, hblock]

theorem shownPlain_append (l m : List Rule) :
    shownPlain compact atRoot (l ++ m) =
      shownPlain compact atRoot l ++ shownPlain compact atRoot m := by
  simp [shownPlain, items_eq_map]

theorem shownBlocks_append (l m : List Rule) :
    shownBlocks compact atRoot (l ++ m) =
      shownBlocks compact atRoot l ++ shownBlocks compact atRoot m := by
  simp [shownBlocks, items_eq_map]

/-- A body is visible if it prints a plain rule or a block. -/
theorem anyVisible_eq_shown (compact atRoot : Bool) (rules : List Rule) :
    Rule.anyVisible compact rules =
      !((shownPlain compact atRoot rules).isEmpty &&
        (shownBlocks compact atRoot rules).isEmpty) := by
  induction rules with
  | nil => rfl
  | cons rule rules ih =>
    rw [Rule.anyVisible, shownPlain_cons, shownBlocks_cons, ih]
    cases rule.isVisible compact <;> cases rule.isBlock atRoot <;> simp

/-- What is a block of a ruleset is one anywhere. -/
theorem isBlock_of_isBlock (h : rule.isBlock false = true) (atRoot : Bool) :
    rule.isBlock atRoot = true := by
  cases rule <;> simp_all [Rule.isBlock]

theorem shown_filter_plain (compact : Bool) (rules : List Rule) :
    shownPlain compact false (rules.filter (!·.isBlock false)) = shownPlain compact false rules ∧
      shownBlocks compact false (rules.filter (!·.isBlock false)) = [] := by
  induction rules with
  | nil => exact ⟨rfl, rfl⟩
  | cons rule rules ih =>
    obtain ⟨hplain, hblocks⟩ := ih
    cases hblock : rule.isBlock false with
    | true =>
      rw [List.filter_cons_of_neg (by simp [hblock]), shownPlain_cons, hblock]
      exact ⟨by simpa using hplain, hblocks⟩
    | false =>
      rw [List.filter_cons_of_pos (by simp [hblock]), shownPlain_cons, shownPlain_cons,
        shownBlocks_cons, hplain, hblocks, hblock]
      exact ⟨rfl, by simp⟩

theorem shown_filter_blocks (compact atRoot : Bool) (rules : List Rule) :
    shownPlain compact atRoot (rules.filter (·.isBlock false)) = [] ∧
      shownBlocks compact atRoot (rules.filter (·.isBlock false)) =
        shownBlocks compact false rules := by
  induction rules with
  | nil => exact ⟨rfl, rfl⟩
  | cons rule rules ih =>
    obtain ⟨hplain, hblocks⟩ := ih
    cases hblock : rule.isBlock false with
    | true =>
      have hanywhere := isBlock_of_isBlock hblock atRoot
      rw [List.filter_cons_of_pos hblock, shownPlain_cons, shownBlocks_cons, shownBlocks_cons,
        hplain, hblocks, hblock, hanywhere]
      exact ⟨by simp, rfl⟩
    | false =>
      rw [List.filter_cons_of_neg (by simp [hblock]), shownBlocks_cons, hblock]
      exact ⟨hplain, by simpa using hblocks⟩

end Shown

section Blocks

variable {compact : Bool}

theorem isEmpty_append (s t : String) : (s ++ t).isEmpty = (s.isEmpty && t.isEmpty) := by
  rw [Bool.eq_iff_iff]
  simp

/-- Behind some blocks, blocks are printed as behind any block. -/
theorem blocksCss_append (level : Nat) (gap lead : String) (fresh : Bool) (l m : List Item) :
    blocksCss level gap lead fresh (l ++ m) =
      blocksCss level gap lead fresh l ++
        blocksCss level gap (if l.isEmpty then lead else gap)
          (fresh && (blocksCss level gap lead fresh l).isEmpty) m := by
  induction l generalizing lead fresh with
  | nil =>
    have hempty : "".isEmpty = true := rfl
    simp [blocksCss, hempty]
  | cons item l ih =>
    simp only [List.cons_append, blocksCss, ih, List.isEmpty_cons, String.append_assoc,
      isEmpty_append, Bool.and_assoc]
    cases l with
    | nil => simp [blocksCss]
    | cons next l => simp

/-- A body that is not the outermost document prints its plain rules, and then its blocks. -/
theorem bodyCss_ruleset (compact : Bool) (place : Place) (paths : List Path) (rules : List Rule) :
    bodyCss compact place (some paths) false (items compact rules) =
      rulesetText compact place.level paths (shownPlain compact false rules) ++
        blocksCss place.level (lineBreak compact place.level)
          (if (shownPlain compact false rules).isEmpty then ""
            else lineBreak compact place.level)
          (place.fresh &&
            (rulesetText compact place.level paths (shownPlain compact false rules)).isEmpty)
          (shownBlocks compact false rules) := by
  simp only [bodyCss, Bool.and_false, Bool.false_and]
  rfl

/-- What is printed for a plain rule depends on whether another one follows it. -/
theorem plainCss_cons (level : Nat) (gap : String) (ends : Bool) (item : Item) (l : List Item) :
    plainCss level gap ends (item :: l) =
      if l.isEmpty then item.css { level, last := ends } ++ (if ends then "" else gap)
      else item.css { level } ++ gap ++ plainCss level gap ends l := by
  cases l <;> rfl

/-- A ruleset that is not a document prints behind a lead as its plain rules and its blocks do, each
on its own. -/
theorem lead_bodyCss {rules : List Rule} (hvisible : Rule.anyVisible compact rules = true)
    (paths : List Path) (level : Nat) (lead : String) (fresh : Bool) (own : Item)
    (hown : ∀ place, own.css place =
      rulesetText compact place.level paths (shownPlain compact false rules)) :
    lead ++ bodyCss compact { level, fresh := fresh && lead.isEmpty } (some paths) false
        (items compact rules) =
      blocksCss level (lineBreak compact level) lead fresh
        ((if (shownPlain compact false rules).isEmpty then [] else [own]) ++
          shownBlocks compact false rules) := by
  rw [anyVisible_eq_shown compact false] at hvisible
  rw [bodyCss_ruleset]
  cases hplain : (shownPlain compact false rules).isEmpty with
  | true =>
    -- Then the first block takes the place of the ruleset.
    obtain ⟨first, blocks, hblocks⟩ : ∃ first blocks,
        shownBlocks compact false rules = first :: blocks := by
      apply List.exists_cons_of_ne_nil
      rintro hnil
      simp [hplain, hnil] at hvisible
    have hempty : "".isEmpty = true := rfl
    simp only [rulesetText, hplain, hblocks, blocksCss, if_true, List.nil_append,
      String.empty_append, hempty, Bool.and_true, isEmpty_append, Bool.and_assoc,
      String.append_assoc]
  | false =>
    simp only [Bool.false_eq_true, if_false, List.singleton_append, blocksCss, hown,
      isEmpty_append, Bool.and_assoc, String.append_assoc]

end Blocks

/-- Two rules print the same, in any list. -/
structure Interchangeable (compact : Bool) (rule rule' : Rule) : Prop where
  visible : rule'.isVisible compact = rule.isVisible compact
  block : ∀ atRoot, rule'.isBlock atRoot = rule.isBlock atRoot
  css : ruleCss compact rule' = ruleCss compact rule

/-- Two lists of rules print the same, in any body. -/
structure PrintsAlike (compact : Bool) (rules rules' : List Rule) : Prop where
  plainEmpty : ∀ atRoot, (shownPlain compact atRoot rules').isEmpty =
    (shownPlain compact atRoot rules).isEmpty
  plain : ∀ atRoot level gap ends, plainCss level gap ends (shownPlain compact atRoot rules') =
    plainCss level gap ends (shownPlain compact atRoot rules)
  blocksEmpty : ∀ atRoot, (shownBlocks compact atRoot rules').isEmpty =
    (shownBlocks compact atRoot rules).isEmpty
  blocks : ∀ atRoot level lead fresh,
    blocksCss level (lineBreak compact level) lead fresh (shownBlocks compact atRoot rules') =
      blocksCss level (lineBreak compact level) lead fresh (shownBlocks compact atRoot rules)

namespace PrintsAlike

variable {compact : Bool} {rule rule' : Rule} {rules rules' rules'' body : List Rule}

theorem refl (compact : Bool) (rules : List Rule) : PrintsAlike compact rules rules :=
  ⟨fun _ => rfl, fun _ _ _ _ => rfl, fun _ => rfl, fun _ _ _ _ => rfl⟩

theorem trans (h : PrintsAlike compact rules rules') (h' : PrintsAlike compact rules' rules'') :
    PrintsAlike compact rules rules'' where
  plainEmpty atRoot := (h'.plainEmpty atRoot).trans (h.plainEmpty atRoot)
  plain atRoot level gap ends := (h'.plain atRoot level gap ends).trans (h.plain ..)
  blocksEmpty atRoot := (h'.blocksEmpty atRoot).trans (h.blocksEmpty atRoot)
  blocks atRoot level lead fresh := (h'.blocks atRoot level lead fresh).trans (h.blocks ..)

theorem anyVisible_eq (h : PrintsAlike compact rules rules') :
    Rule.anyVisible compact rules' = Rule.anyVisible compact rules := by
  rw [anyVisible_eq_shown compact false, anyVisible_eq_shown compact false rules,
    h.plainEmpty, h.blocksEmpty]

theorem bodyCss_eq (h : PrintsAlike compact rules rules') (place : Place)
    (paths : Option (List Path)) (firstRoot : Bool) :
    bodyCss compact place paths firstRoot (items compact rules') =
      bodyCss compact place paths firstRoot (items compact rules) := by
  have hplainEmpty := h.plainEmpty paths.isNone
  have hplain := h.plain paths.isNone
  have hblocksEmpty := h.blocksEmpty paths.isNone
  have hblocks := h.blocks paths.isNone
  simp only [shownPlain, shownBlocks] at hplainEmpty hplain hblocksEmpty hblocks
  simp only [bodyCss, hplainEmpty, hplain, hblocksEmpty, hblocks]

theorem blockCss_eq (h : PrintsAlike compact rules rules') (level : Nat) :
    blockCss compact level (items compact rules') =
      blockCss compact level (items compact rules) := by
  rw [blockCss, blockCss, h.bodyCss_eq]

theorem cons (hrule : Interchangeable compact rule rule') (h : PrintsAlike compact rules rules') :
    PrintsAlike compact (rule :: rules) (rule' :: rules') := by
  obtain ⟨hvisible, hblock, hcss⟩ := hrule
  refine ⟨fun atRoot => ?_, fun atRoot level gap ends => ?_, fun atRoot => ?_,
    fun atRoot level lead fresh => ?_⟩
  · rw [shownPlain_cons, shownPlain_cons, hvisible, hblock]
    split
    · rfl
    · exact h.plainEmpty atRoot
  · rw [shownPlain_cons, shownPlain_cons, hvisible, hblock]
    split
    · rw [plainCss_cons, plainCss_cons, h.plainEmpty, h.plain, hcss]
    · exact h.plain atRoot level gap ends
  · rw [shownBlocks_cons, shownBlocks_cons, hvisible, hblock]
    split
    · rfl
    · exact h.blocksEmpty atRoot
  · rw [shownBlocks_cons, shownBlocks_cons, hvisible, hblock]
    split
    · simp only [blocksCss, h.blocks, hcss]
    · exact h.blocks atRoot level lead fresh

end PrintsAlike

namespace Interchangeable

variable {compact : Bool} {rules rules' : List Rule}

theorem refl (compact : Bool) (rule : Rule) : Interchangeable compact rule rule :=
  ⟨rfl, fun _ => rfl, rfl⟩

theorem ruleset (header : Header) (h : PrintsAlike compact rules rules') :
    Interchangeable compact (.ruleset header rules) (.ruleset header rules') := by
  refine ⟨h.anyVisible_eq, fun _ => rfl, funext fun place => ?_⟩
  rw [ruleCss, ruleCss, h.bodyCss_eq]

theorem media (head : MediaHead) (h : PrintsAlike compact rules rules') :
    Interchangeable compact (.media head rules) (.media head rules') := by
  refine ⟨h.anyVisible_eq, fun _ => rfl, funext fun place => ?_⟩
  rw [ruleCss, ruleCss, h.blockCss_eq]

theorem directive (head : DirectiveHead) (h : PrintsAlike compact rules rules') :
    Interchangeable compact (.directive head (some rules)) (.directive head (some rules')) := by
  refine ⟨rfl, fun _ => rfl, funext fun place => ?_⟩
  rw [ruleCss, ruleCss, h.blockCss_eq]

end Interchangeable

section Hoisting

variable {compact : Bool} {header : Header} {body : List Rule}

/-- The ruleset without its blocks. -/
def ownItem (compact : Bool) (header : Header) (body : List Rule) : Item where
  rule := .ruleset header (body.filter (!·.isBlock false))
  css := ruleCss compact (.ruleset header (body.filter (!·.isBlock false)))

theorem ownItem_css (hroot : header.root = false) (hfirst : header.firstRoot = false)
    (place : Place) :
    (ownItem compact header body).css place =
      rulesetText compact place.level (headerPaths header) (shownPlain compact false body) := by
  obtain ⟨hplain, hblocks⟩ := shown_filter_plain compact body
  simp only [ownItem, ruleCss, hroot, hfirst, Bool.false_eq_true, if_false, bodyCss_ruleset, hplain,
    hblocks, blocksCss, String.append_empty]

/-- What is printed of the rules that a ruleset is taken apart into: the ruleset if it has plain
rules, and its blocks. -/
def partItems (compact : Bool) (header : Header) (body : List Rule) : List Item :=
  (if (shownPlain compact false body).isEmpty then [] else [ownItem compact header body]) ++
    shownBlocks compact false body

theorem isEmpty_partItems (compact : Bool) (header : Header) (body : List Rule) :
    (partItems compact header body).isEmpty = !Rule.anyVisible compact body := by
  rw [partItems, anyVisible_eq_shown compact false]
  cases (shownPlain compact false body).isEmpty <;> simp

theorem shownBlocks_apart (atRoot : Bool) (rules : List Rule) :
    shownBlocks compact atRoot (.ruleset header (body.filter (!·.isBlock false)) ::
        (body.filter (·.isBlock false) ++ rules)) =
      partItems compact header body ++ shownBlocks compact atRoot rules := by
  obtain ⟨hplain, hblocks⟩ := shown_filter_plain compact body
  have hvisible : (Rule.ruleset header (body.filter (!·.isBlock false))).isVisible compact =
      !(shownPlain compact false body).isEmpty := by
    rw [Rule.isVisible, anyVisible_eq_shown compact false, hplain, hblocks, List.isEmpty_nil,
      Bool.and_true]
  rw [shownBlocks_cons, shownBlocks_append, (shown_filter_blocks compact atRoot body).2, hvisible,
    partItems, Rule.isBlock, Bool.and_true]
  cases (shownPlain compact false body).isEmpty <;> rfl

theorem shownPlain_apart (atRoot : Bool) (rules : List Rule) :
    shownPlain compact atRoot (.ruleset header (body.filter (!·.isBlock false)) ::
        (body.filter (·.isBlock false) ++ rules)) =
      shownPlain compact atRoot rules := by
  rw [shownPlain_cons, shownPlain_append, (shown_filter_blocks compact atRoot body).1,
    Rule.isBlock]
  simp

/-- A ruleset prints as itself without its blocks and then its blocks. -/
theorem PrintsAlike.hoist {rules rules' : List Rule} (h : PrintsAlike compact rules rules')
    (hroot : header.root = false) (hfirst : header.firstRoot = false) :
    PrintsAlike compact (.ruleset header body :: rules)
      (.ruleset header (body.filter (!·.isBlock false)) ::
        (body.filter (·.isBlock false) ++ rules')) := by
  have hwhole : ∀ atRoot, shownPlain compact atRoot (.ruleset header body :: rules) =
      shownPlain compact atRoot rules := by
    intro atRoot
    rw [shownPlain_cons, Rule.isBlock]
    simp
  have hempty := isEmpty_partItems compact header body
  refine ⟨fun atRoot => ?_, fun atRoot level gap ends => ?_, fun atRoot => ?_,
    fun atRoot level lead fresh => ?_⟩
  · rw [shownPlain_apart, hwhole, h.plainEmpty]
  · rw [shownPlain_apart, hwhole, h.plain]
  · rw [shownBlocks_apart, shownBlocks_cons, Rule.isVisible, Rule.isBlock, Bool.and_true]
    cases hvisible : Rule.anyVisible compact body with
    | false =>
      rw [hvisible, Bool.not_false, List.isEmpty_iff] at hempty
      rw [hempty, List.nil_append, h.blocksEmpty]
      rfl
    | true =>
      rw [hvisible, Bool.not_true, List.isEmpty_eq_false_iff] at hempty
      simp [hempty]
  · rw [shownBlocks_apart, shownBlocks_cons, Rule.isVisible, Rule.isBlock, Bool.and_true]
    cases hvisible : Rule.anyVisible compact body with
    | false =>
      rw [hvisible, Bool.not_false, List.isEmpty_iff] at hempty
      rw [hempty, List.nil_append, h.blocks]
      rfl
    | true =>
      have hlead := lead_bodyCss hvisible (headerPaths header) level lead fresh
        (ownItem compact header body) (ownItem_css hroot hfirst)
      rw [hvisible, Bool.not_true] at hempty
      rw [blocksCss_append, hempty, partItems, ← hlead, h.blocks]
      simp only [blocksCss, ruleCss, hroot, hfirst, Bool.false_eq_true, if_false, if_true]

end Hoisting

end Css

namespace Node

/-- Whether a node is a block of a ruleset, which prints it behind its braces. -/
def isBlock : Node → Bool
  | .ruleset _ | .media .. | .block _ | .directive .. => true
  | .declaration _ | .definition _ | .call _ | .inclusion _ | .comment _ => false

/-- The second list is the first one, in which the blocks of some rulesets stand behind them. This
may have been done at any depth. -/
inductive Hoists : List Node → List Node → Prop
  | nil : Hoists [] []
  | keep (node : Node) {nodes nodes' : List Node} (hnodes : Hoists nodes nodes') :
      Hoists (node :: nodes) (node :: nodes')
  | ruleset (r : Ruleset) {body nodes nodes' : List Node} (hbody : Hoists r.rules body)
      (hnodes : Hoists nodes nodes') :
      Hoists (.ruleset r :: nodes) (.ruleset { r with rules := body } :: nodes')
  | definition (d : Definition) {body nodes nodes' : List Node} (hbody : Hoists d.rules body)
      (hnodes : Hoists nodes nodes') :
      Hoists (.definition d :: nodes) (.definition { d with rules := body } :: nodes')
  | media (head : MediaHead) {rules body nodes nodes' : List Node} (hbody : Hoists rules body)
      (hnodes : Hoists nodes nodes') :
      Hoists (.media head rules :: nodes) (.media head body :: nodes')
  | directive (head : DirectiveHead) {rules body nodes nodes' : List Node}
      (hbody : Hoists rules body) (hnodes : Hoists nodes nodes') :
      Hoists (.directive head (some rules) :: nodes) (.directive head (some body) :: nodes')
  /-- The ruleset keeps its other rules, and its blocks follow it. -/
  | hoist (r : Ruleset) (hroot : r.header.root = false) (hfirst : r.header.firstRoot = false)
      {body nodes nodes' : List Node} (hbody : Hoists r.rules body)
      (hnodes : Hoists nodes nodes') :
      Hoists (.ruleset r :: nodes)
        (.ruleset { r with rules := body.filter (!·.isBlock) } :: (body.filter isBlock ++ nodes'))

theorem Hoists.refl (nodes : List Node) : Hoists nodes nodes := by
  induction nodes with
  | nil => exact .nil
  | cons node nodes ih => exact .keep node ih

/-- The numbers of blocks read as media rules that print alike. -/
def LooksAlike (compact : Bool) (look look' : Nat → Rule) : Prop :=
  ∀ index, ∃ head rules rules', look index = .media head rules ∧ look' index = .media head rules' ∧
    Css.PrintsAlike compact rules rules'

variable {compact : Bool} {look look' : Nat → Rule}

mutual

theorem interchangeable_read (hlook : LooksAlike compact look look') :
    ∀ n : Node, Css.Interchangeable compact (n.read look) (n.read look')
  | .block index => by
    obtain ⟨head, rules, rules', hrules, hrules', halike⟩ := hlook index
    rw [read, read, hrules, hrules']
    exact .media head halike
  | .ruleset ⟨_, _, header, rules⟩ => .ruleset header (printsAlike_readAll hlook rules)
  | .media head rules => .media head (printsAlike_readAll hlook rules)
  | .directive head (some rules) => .directive head (printsAlike_readAll hlook rules)
  | .declaration _ | .definition ⟨_, _, _⟩ | .call _ | .inclusion _ | .comment _
  | .directive _ none => .refl compact _

/-- Nodes print alike if the blocks that they lead to do. -/
theorem printsAlike_readAll (hlook : LooksAlike compact look look') :
    ∀ nodes : List Node, Css.PrintsAlike compact (readAll look nodes) (readAll look' nodes)
  | [] => .refl compact []
  | n :: nodes => (printsAlike_readAll hlook nodes).cons (interchangeable_read hlook n)

end

theorem isBlock_read (hlook : ∀ index, (look index).isBlock false = true) :
    ∀ n : Node, (n.read look).isBlock false = n.isBlock
  | .block index => hlook index
  | .ruleset ⟨_, _, _, _⟩ | .definition ⟨_, _, _⟩ | .media .. | .directive _ none
  | .directive _ (some _) | .declaration _ | .call _ | .inclusion _ | .comment _ => rfl

theorem read_ruleset (look : Nat → Rule) (r : Ruleset) :
    read look (.ruleset r) = .ruleset r.header (readAll look r.rules) := by
  obtain ⟨serial, source, header, rules⟩ := r
  rfl

theorem read_definition (look : Nat → Rule) (d : Definition) :
    read look (.definition d) = .definition d.signature (toRules d.rules) := by
  obtain ⟨signature, rules, closure⟩ := d
  rfl

theorem readAll_append (l m : List Node) :
    readAll look (l ++ m) = readAll look l ++ readAll look m := by
  rw [readAll_eq_map, readAll_eq_map, readAll_eq_map, List.map_append]

theorem readAll_filter {p : Node → Bool} {q : Rule → Bool} (h : ∀ n, q (read look n) = p n)
    (nodes : List Node) : readAll look (nodes.filter p) = (readAll look nodes).filter q := by
  rw [readAll_eq_map, readAll_eq_map, List.filter_map]
  exact congrArg (List.map _) (List.filter_congr fun n _ => (h n).symm)

/-- Rulesets that are taken apart, at any depth, print the same. -/
theorem Hoists.printsAlike {nodes nodes' : List Node} (hlook : LooksAlike compact look look')
    (h : Hoists nodes nodes') :
    Css.PrintsAlike compact (readAll look nodes) (readAll look' nodes') := by
  have hblock : ∀ n, (read look' n).isBlock false = isBlock n := by
    refine isBlock_read fun index => ?_
    obtain ⟨head, rules, rules', -, hrules', -⟩ := hlook index
    rw [hrules']
    rfl
  induction h with
  | nil => exact .refl compact []
  | keep node _ hnodes => exact hnodes.cons (interchangeable_read hlook node)
  | ruleset r _ _ hbody hnodes =>
    rw [readAll, readAll, read_ruleset, read_ruleset]
    exact hnodes.cons (.ruleset r.header hbody)
  | definition d _ _ _ hnodes =>
    rw [readAll, readAll, read_definition, read_definition]
    exact hnodes.cons ⟨rfl, fun _ => rfl, rfl⟩
  | media head _ _ hbody hnodes => exact hnodes.cons (.media head hbody)
  | directive head _ _ hbody hnodes => exact hnodes.cons (.directive head hbody)
  | hoist r hroot hfirst _ _ hbody hnodes =>
    rw [readAll, readAll, read_ruleset, read_ruleset, readAll_append,
      readAll_filter (q := (·.isBlock false)) hblock,
      readAll_filter (q := (!·.isBlock false)) fun n => by rw [hblock]]
    -- First the rules inside change, and then the ruleset is taken apart.
    exact ((Css.PrintsAlike.refl compact _).cons (.ruleset r.header hbody)).trans
      (hnodes.hoist hroot hfirst)

/-- One ruleset may be taken apart, anywhere in a list. -/
theorem Hoists.one (r : Ruleset) (hroot : r.header.root = false)
    (hfirst : r.header.firstRoot = false) (before after : List Node) :
    Hoists (before ++ .ruleset r :: after)
      (before ++ .ruleset { r with rules := r.rules.filter (!·.isBlock) } ::
        (r.rules.filter isBlock ++ after)) := by
  induction before with
  | nil => exact .hoist r hroot hfirst (.refl r.rules) (.refl after)
  | cons node before ih => exact .keep node ih

end Node

/-- The second block is the first one, in which the blocks of some rulesets stand behind them. -/
structure Block.Hoists (b b' : Block) : Prop where
  head_eq : b'.head = b.head
  rules : Node.Hoists b.rules b'.rules

/-- Blocks whose rulesets are taken apart read as media rules that print alike. -/
theorem looksAlike_readBlocks (compact : Bool) {blocks blocks' : List Block}
    (h : List.Forall₂ Block.Hoists blocks blocks') :
    Node.LooksAlike compact (readBlocks blocks) (readBlocks blocks') := by
  intro index
  induction index using Nat.strongRecOn with
  | ind index ih =>
    by_cases hindex : index < blocks.length
    · obtain ⟨b', hb', hhead, hrules⟩ :=
        exists_of_getElem?_left h (List.getElem?_eq_getElem hindex)
      -- A block is read with the blocks before it.
      have hbelow : Node.LooksAlike compact (lookBelow index (readBlocks blocks))
          (lookBelow index (readBlocks blocks')) := by
        intro i
        by_cases hi : i < index
        · rw [lookBelow_of_lt _ hi, lookBelow_of_lt _ hi]
          exact ih i hi
        · rw [lookBelow_of_le _ (Nat.not_lt.1 hi), lookBelow_of_le _ (Nat.not_lt.1 hi)]
          exact ⟨_, [], [], rfl, rfl, .refl compact []⟩
      rw [readBlocks_of_getElem? hb', readBlocks_of_getElem? (List.getElem?_eq_getElem hindex),
        hhead]
      exact ⟨_, _, _, rfl, rfl, hrules.printsAlike hbelow⟩
    · have hle : blocks.length ≤ index := Nat.not_lt.1 hindex
      rw [readBlocks_of_le hle, readBlocks_of_le (h.length_eq ▸ hle)]
      exact ⟨_, [], [], rfl, rfl, .refl compact []⟩

/-- Nested output is flat output: a style sheet prints the same if its rulesets keep only the rules
that are no blocks, and their blocks stand behind them. -/
theorem Store.css_of_hoists (compact : Bool) {s s' : Store} {r r' : Ruleset}
    (hheader : r'.header = r.header) (hrules : Node.Hoists r.rules r'.rules)
    (hblocks : List.Forall₂ Block.Hoists s.blocks s'.blocks) :
    s'.css compact r' = s.css compact r := by
  have halike := hrules.printsAlike (looksAlike_readBlocks compact hblocks)
  rw [Store.css, Store.css, Store.rulesOf_eq_readAll, Store.rulesOf_eq_readAll, hheader, Css.print,
    Css.print, Css.ruleCss, Css.ruleCss, halike.bodyCss_eq]

namespace Css

/-- A ruleset for one class. -/
def classRuleset (serial : Nat) (name : String) (rules : List Node) : Ruleset where
  serial
  source := none
  header := { selectors := [{ elements := [⟨.compound, name⟩] }] }
  rules

/-- A declaration of a width. -/
def width (value : String) : Node := .declaration { name := "width", value := .literal value }

/-- A store with the block `@media print { .c { .d { width: 0; } } }`. -/
def nested : Store where
  blocks := [⟨{ features := "print" },
    [.ruleset (classRuleset 1 ".c" [.ruleset (classRuleset 2 ".d" [width "0"])])]⟩]

/-- The same store with `@media print { .c {} .d { width: 0; } }`. -/
def flat : Store where
  blocks := [⟨{ features := "print" },
    [.ruleset (classRuleset 1 ".c" []), .ruleset (classRuleset 2 ".d" [width "0"])]⟩]

/-- A document whose last ruleset has a ruleset, a declaration, that block and a comment. -/
def nestedSheet : Ruleset where
  serial := 3
  source := none
  header := Header.document
  rules := [.ruleset (classRuleset 4 ".e" [width "1"]),
    .ruleset (classRuleset 5 ".a" [.ruleset (classRuleset 6 ".b" [width "2"]), width "3", .block 0,
      .comment { text := "/* a */" }])]

/-- The document in which the ruleset and the block follow that ruleset. -/
def flatSheet : Ruleset where
  serial := 3
  source := none
  header := Header.document
  rules := [.ruleset (classRuleset 4 ".e" [width "1"]),
    .ruleset (classRuleset 5 ".a" [width "3", .comment { text := "/* a */" }]),
    .ruleset (classRuleset 6 ".b" [width "2"]), .block 0]

theorem hoists_sheet : Node.Hoists nestedSheet.rules flatSheet.rules :=
  .one (classRuleset 5 ".a" [.ruleset (classRuleset 6 ".b" [width "2"]), width "3", .block 0,
    .comment { text := "/* a */" }]) rfl rfl [.ruleset (classRuleset 4 ".e" [width "1"])] []

theorem hoists_blocks : List.Forall₂ Block.Hoists nested.blocks flat.blocks :=
  .cons ⟨rfl, .one (classRuleset 1 ".c" [.ruleset (classRuleset 2 ".d" [width "0"])]) rfl rfl [] []⟩
    .nil

end Css

/-- One of the two rulesets that are taken apart has only blocks, and the other one is the last in
its list. -/
theorem Store.css_of_hoists_sheet :
    Css.nested.css false Css.nestedSheet =
      ".e \x7b\n  width: 1;\n\x7d\n.a \x7b\n  width: 3;\n  /* a */\n\x7d\n" ++
        ".b \x7b\n  width: 2;\n\x7d\n@media print \x7b\n  .d \x7b\n    width: 0;\n  \x7d\n\x7d" ∧
    Css.flat.css false Css.flatSheet = Css.nested.css false Css.nestedSheet ∧
    Css.flat.css true Css.flatSheet = Css.nested.css true Css.nestedSheet :=
  ⟨by decide +kernel, Store.css_of_hoists false rfl Css.hoists_sheet Css.hoists_blocks,
    Store.css_of_hoists true rfl Css.hoists_sheet Css.hoists_blocks⟩

end Stylesheet
