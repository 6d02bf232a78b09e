import Stylesheet.Css
import Stylesheet.Proofs.Path.References
import Stylesheet.Proofs.Rule.Joined

/-!
# What is printed for selectors

The printed text is made of pieces, of which some are the headers of rulesets. A piece that is a
header knows the ruleset and the context in which its selectors were joined. In a document that
was compiled, the text of a header is the list of the joined paths, which have no references to a
parent in them.

There is one exception. Selectors that are nothing but references and stand outside of all
rulesets have no joined paths, and are printed as if they had not been joined.
-/

namespace Stylesheet

/-- The context for the rules of a ruleset that was joined. -/
def Header.within (context : List Path) (h : Header) : List Path :=
  if h.root || h.selectors.isEmpty then context else h.paths

namespace Rule

mutual

/-- The headers of the rulesets in a rule, each with its context. -/
def headers (context : List Path) : Rule → List (List Path × Header)
  | .ruleset header rules => (context, header) :: allHeaders (header.within context) rules
  | .media _ rules => allHeaders [] rules
  | .directive _ (some rules) => allHeaders [] rules
  | _ => []

/-- The headers of the rulesets in some rules. -/
def allHeaders (context : List Path) : List Rule → List (List Path × Header)
  | [] => []
  | rule :: rules => headers context rule ++ allHeaders context rules

end

end Rule

namespace Css

/-- A part of the printed text. -/
inductive Piece where
  /-- What is printed for the selectors of a ruleset in a context. -/
  | header (context : List Path) (header : Header) (css : String)
  | text (css : String)

/-- The text of a piece. -/
def Piece.css : Piece → String
  | .header _ _ css | .text css => css

/-- The text of some pieces. -/
def Piece.allCss (pieces : List Piece) : String := String.join (pieces.map Piece.css)

/-- A rule, and the pieces it prints at each place. -/
structure Part where
  rule : Rule
  pieces : Place → List Piece

/-- A part with its texts only. -/
def Part.item (part : Part) : Item := ⟨part.rule, fun place => Piece.allCss (part.pieces place)⟩

/-- The pieces of plain rules. -/
def plainPieces (level : Nat) (gap : String) (ends : Bool) : List Part → List Piece
  | [] => []
  | [part] => part.pieces { level, last := ends } ++ [.text (if ends then "" else gap)]
  | part :: next :: rest =>
    part.pieces { level } ++ .text gap :: plainPieces level gap ends (next :: rest)

/-- The pieces of blocks. -/
def blocksPieces (level : Nat) (gap lead : String) (fresh : Bool) : List Part → List Piece
  | [] => []
  | part :: rest =>
    let pieces := .text lead :: part.pieces { level, fresh := fresh && lead.isEmpty }
    pieces ++ blocksPieces level gap gap (fresh && (Piece.allCss pieces).isEmpty) rest

/-- The pieces of the plain rules of a body. Those of a ruleset stand in braces after its header. -/
def frontPieces (compact : Bool) (level : Nat) (ends : Bool) (plain : List Part) :
    Option (List Path × Header) → List Piece
  | none => plainPieces level (lineBreak compact level) ends plain
  | some (context, header) =>
    if plain.isEmpty then []
    else
      .header context header (pathsCss compact level (headerPaths header)) ::
        .text (opening compact level) ::
          plainPieces level (lineBreak compact (level + 1)) true plain ++
            [.text (closing compact level)]

/-- The pieces of the rules of a ruleset with its context and header, or of a document. -/
def bodyPieces (compact : Bool) (place : Place) (header : Option (List Path × Header))
    (firstRoot : Bool) (parts : List Part) : List Piece :=
  let shown := parts.filter (·.rule.isVisible compact)
  let blocks := shown.filter (·.rule.isBlock header.isNone)
  let plain := shown.filter (!·.rule.isBlock header.isNone)
  let front := frontPieces compact place.level (blocks.isEmpty || firstRoot) plain header
  let gap := lineBreak compact place.level
  let pieces := front ++
    blocksPieces place.level gap (if plain.isEmpty then "" else gap)
      (place.fresh && (Piece.allCss front).isEmpty) blocks
  if (Piece.allCss pieces).isEmpty && place.fresh && firstRoot && !compact then [.text "\n"]
  else pieces

/-- The pieces of rules printed as a document one level deeper. -/
def blockPieces (compact : Bool) (level : Nat) (parts : List Part) : List Piece :=
  .text (opening compact level) ::
    bodyPieces compact { level := level + 1 } none false parts ++ [.text (closing compact level)]

mutual

/-- The pieces of a rule in a context, at a place. -/
def rulePieces (compact : Bool) (context : List Path) : Rule → Place → List Piece
  | .ruleset header rules, place =>
    bodyPieces compact place (if header.root then none else some (context, header))
      header.firstRoot (parts compact (header.within context) rules)
  | .media head rules, place =>
    .text ("@media " ++ head.features) ::
      blockPieces compact place.level (parts compact [] rules)
  | .directive head (some rules), place =>
    .text (directiveCss head) :: blockPieces compact place.level (parts compact [] rules)
  | rule, place => [.text (ruleCss compact rule place)]

/-- The rules with their pieces. -/
def parts (compact : Bool) (context : List Path) : List Rule → List Part
  | [] => []
  | rule :: rules => ⟨rule, rulePieces compact context rule⟩ :: parts compact context rules

end

/-- The pieces of a whole style sheet. -/
def pieces (compact : Bool) (header : Header) (rules : List Rule) : List Piece :=
  rulePieces compact [] (.ruleset header rules) { fresh := true }

section Text

variable {level : Nat} {gap lead : String} {ends fresh compact firstRoot : Bool} {place : Place}

@[simp] theorem Piece.allCss_nil : Piece.allCss [] = "" := rfl

@[simp] theorem Piece.allCss_cons (piece : Piece) (pieces : List Piece) :
    Piece.allCss (piece :: pieces) = piece.css ++ Piece.allCss pieces := by
  rw [allCss, List.map_cons, String.join_cons, allCss]

@[simp] theorem Piece.allCss_append (l m : List Piece) :
    Piece.allCss (l ++ m) = Piece.allCss l ++ Piece.allCss m := by
  rw [allCss, List.map_append, String.join_append, allCss, allCss]

theorem allCss_plainPieces (parts : List Part) :
    Piece.allCss (plainPieces level gap ends parts) =
      plainCss level gap ends (parts.map Part.item) := by
  fun_induction plainPieces level gap ends parts with
  | case1 => rfl
  | case2 part =>
    rw [Piece.allCss_append, Piece.allCss_cons, Piece.allCss_nil, String.append_empty]
    rfl
  | case3 part next rest ih =>
    rw [Piece.allCss_append, Piece.allCss_cons, ih, ← String.append_assoc]
    rfl

theorem allCss_blocksPieces (parts : List Part) :
    Piece.allCss (blocksPieces level gap lead fresh parts) =
      blocksCss level gap lead fresh (parts.map Part.item) := by
  induction parts generalizing lead fresh with
  | nil => rfl
  | cons part rest ih =>
    rw [blocksPieces, Piece.allCss_append, ih, List.map_cons, blocksCss, Piece.allCss_cons]
    rfl

/-- The plain rules of a ruleset are printed in braces, after its paths. -/
theorem allCss_frontPieces (context : List Path) (header : Header) (plain : List Part) :
    Piece.allCss (frontPieces compact level ends plain (some (context, header))) =
      if plain.isEmpty then ""
      else
        pathsCss compact level (headerPaths header) ++ opening compact level ++
          plainCss level (lineBreak compact (level + 1)) true (plain.map Part.item) ++
            closing compact level := by
  rw [frontPieces, apply_ite Piece.allCss]
  simp only [List.cons_append, Piece.allCss_cons, Piece.allCss_append, allCss_plainPieces,
    Piece.allCss_nil, String.append_empty, String.append_assoc, Piece.css]

theorem filter_map_item (p : Rule → Bool) (parts : List Part) :
    (parts.map Part.item).filter (fun item => p item.rule) =
      (parts.filter fun part => p part.rule).map Part.item := List.filter_map

theorem allCss_bodyPieces (header : Option (List Path × Header)) (parts : List Part) :
    Piece.allCss (bodyPieces compact place header firstRoot parts) =
      bodyCss compact place (header.map fun entry => headerPaths entry.2) firstRoot
        (parts.map Part.item) := by
  have hshown := filter_map_item (Rule.isVisible compact) parts
  have hblocks := filter_map_item (Rule.isBlock header.isNone)
    (parts.filter fun part => part.rule.isVisible compact)
  have hplain := filter_map_item (fun rule => !rule.isBlock header.isNone)
    (parts.filter fun part => part.rule.isVisible compact)
  unfold bodyPieces bodyCss
  dsimp only
  rw [Option.isNone_map, hshown, hblocks, hplain]
  generalize (parts.filter _).filter (fun part => part.rule.isBlock _) = blocks
  generalize (parts.filter _).filter (fun part => !part.rule.isBlock _) = plain
  rw [apply_ite Piece.allCss, Piece.allCss_append, allCss_blocksPieces, Piece.allCss_cons,
    Piece.allCss_nil, String.append_empty]
  rcases header with _ | ⟨context, header⟩
  · simp only [List.isEmpty_map, frontPieces, allCss_plainPieces]
    rfl
  · simp only [List.isEmpty_map, allCss_frontPieces]
    rfl

theorem allCss_blockPieces (parts : List Part) :
    Piece.allCss (blockPieces compact level parts) =
      blockCss compact level (parts.map Part.item) := by
  rw [blockPieces, List.cons_append, Piece.allCss_cons, Piece.allCss_append, allCss_bodyPieces,
    Piece.allCss_cons, Piece.allCss_nil, String.append_empty, ← String.append_assoc]
  rfl

mutual

/-- The pieces of a rule make up its text. -/
theorem allCss_rulePieces : ∀ (rule : Rule) (context : List Path) (place : Place),
    Piece.allCss (rulePieces compact context rule place) = ruleCss compact rule place
  | .ruleset header rules, context, place => by
    rw [rulePieces, ruleCss, allCss_bodyPieces, map_item_parts]
    cases header.root <;> rfl
  | .media head rules, context, place => by
    rw [rulePieces, ruleCss, Piece.allCss_cons, allCss_blockPieces, map_item_parts]
    rfl
  | .directive head (some rules), context, place => by
    rw [rulePieces, ruleCss, Piece.allCss_cons, allCss_blockPieces, map_item_parts]
    rfl
  | .declaration _, _, _ | .definition .., _, _ | .call _, _, _ | .inclusion _, _, _
  | .comment _, _, _ | .directive _ none, _, _ => by
    simp [rulePieces, Piece.css]

theorem map_item_parts : ∀ (rules : List Rule) (context : List Path),
    (parts compact context rules).map Part.item = items compact rules
  | [], _ => rfl
  | rule :: rules, context => by
    have hrule : Part.item ⟨rule, rulePieces compact context rule⟩ =
        ⟨rule, ruleCss compact rule⟩ :=
      congrArg (Item.mk rule) (funext fun place => allCss_rulePieces rule context place)
    rw [parts, items, List.map_cons, hrule, map_item_parts rules context]

end

/-- The pieces of a style sheet make up its text. -/
theorem allCss_pieces (compact : Bool) (header : Header) (rules : List Rule) :
    Piece.allCss (pieces compact header rules) = print compact header rules :=
  allCss_rulePieces _ _ _

end Text

section Members

variable {level : Nat} {gap lead css : String} {ends fresh compact firstRoot : Bool}
variable {place : Place} {context outer : List Path} {header : Header}

theorem mem_of_mem_ite_text {p : Prop} [Decidable p] {other : String} {pieces : List Piece}
    (h : Piece.header context header css ∈ if p then [.text other] else pieces) :
    Piece.header context header css ∈ pieces := by
  split at h
  · simp at h
  · exact h

theorem mem_of_mem_plainPieces {parts : List Part}
    (h : Piece.header context header css ∈ plainPieces level gap ends parts) :
    ∃ part ∈ parts, ∃ place, Piece.header context header css ∈ part.pieces place := by
  fun_induction plainPieces level gap ends parts with
  | case1 => cases h
  | case2 part =>
    rcases List.mem_append.1 h with h | h
    · exact ⟨part, by simp, _, h⟩
    · simp at h
  | case3 part next rest ih =>
    rcases List.mem_append.1 h with h | h
    · exact ⟨part, by simp, _, h⟩
    · obtain ⟨other, hother, hmem⟩ := ih (by simpa using h)
      exact ⟨other, List.mem_cons_of_mem _ hother, hmem⟩

theorem mem_of_mem_blocksPieces {parts : List Part}
    (h : Piece.header context header css ∈ blocksPieces level gap lead fresh parts) :
    ∃ part ∈ parts, ∃ place, Piece.header context header css ∈ part.pieces place := by
  induction parts generalizing lead fresh with
  | nil => cases h
  | cons part rest ih =>
    rw [blocksPieces] at h
    rcases List.mem_append.1 h with h | h
    · exact ⟨part, by simp, _, by simpa using h⟩
    · obtain ⟨other, hother, hmem⟩ := ih h
      exact ⟨other, List.mem_cons_of_mem _ hother, hmem⟩

theorem mem_of_mem_frontPieces {entry : Option (List Path × Header)} {plain : List Part}
    (h : Piece.header context header css ∈ frontPieces compact level ends plain entry) :
    (entry = some (context, header) ∧ css = pathsCss compact level (headerPaths header)) ∨
      ∃ part ∈ plain, ∃ place, Piece.header context header css ∈ part.pieces place := by
  rcases entry with _ | ⟨outer, own⟩
  · exact .inr (mem_of_mem_plainPieces h)
  · rw [frontPieces] at h
    split at h
    · cases h
    · rw [List.cons_append, List.mem_cons] at h
      rcases h with h | h
      · obtain ⟨⟩ := h
        exact .inl ⟨rfl, rfl⟩
      · exact .inr (mem_of_mem_plainPieces (by simpa using h))

/-- A header among the pieces of a body is that of the ruleset itself, or belongs to one of the
rules. -/
theorem mem_of_mem_bodyPieces {entry : Option (List Path × Header)} {parts : List Part}
    (h : Piece.header context header css ∈ bodyPieces compact place entry firstRoot parts) :
    (entry = some (context, header) ∧
        css = pathsCss compact place.level (headerPaths header)) ∨
      ∃ part ∈ parts, ∃ place, Piece.header context header css ∈ part.pieces place := by
  have hfilter : ∀ p : Part → Bool,
      (∃ part ∈ (parts.filter fun part => part.rule.isVisible compact).filter p,
        ∃ place, Piece.header context header css ∈ part.pieces place) →
      ∃ part ∈ parts, ∃ place, Piece.header context header css ∈ part.pieces place := by
    rintro p ⟨part, hpart, hmem⟩
    exact ⟨part, (List.mem_filter.1 (List.mem_filter.1 hpart).1).1, hmem⟩
  rcases List.mem_append.1 (mem_of_mem_ite_text h) with h | h
  · exact (mem_of_mem_frontPieces h).imp id (hfilter _)
  · exact .inr (hfilter _ (mem_of_mem_blocksPieces h))

mutual

/-- A header that is printed for a rule is the header of a ruleset in it, which is not a
document. -/
theorem mem_headers_of_mem_rulePieces : ∀ (rule : Rule) {outer : List Path} {place : Place},
    Piece.header context header css ∈ rulePieces compact outer rule place →
      (context, header) ∈ rule.headers outer ∧ header.root = false ∧
        ∃ level, css = pathsCss compact level (headerPaths header)
  | .ruleset own rules, outer, place, h => by
    rw [rulePieces] at h
    rcases mem_of_mem_bodyPieces h with ⟨hentry, hcss⟩ | ⟨part, hpart, place, hmem⟩
    · split at hentry
      · cases hentry
      · rename_i hroot
        obtain ⟨⟩ := hentry
        exact ⟨by simp [Rule.headers], eq_false_of_ne_true hroot, _, hcss⟩
    · obtain ⟨hheader, hrest⟩ := mem_allHeaders_of_mem_parts rules hpart hmem
      exact ⟨by simp [Rule.headers, hheader], hrest⟩
  | .media head rules, outer, place, h =>
    mem_allHeaders_of_mem_blockPieces rules (by simpa [rulePieces] using h)
  | .directive head (some rules), outer, place, h =>
    mem_allHeaders_of_mem_blockPieces rules (by simpa [rulePieces] using h)
  | .declaration _, _, _, h | .definition .., _, _, h | .call _, _, _, h | .inclusion _, _, _, h
  | .comment _, _, _, h | .directive _ none, _, _, h => by simp [rulePieces] at h

theorem mem_allHeaders_of_mem_blockPieces : ∀ (rules : List Rule) {level : Nat},
    Piece.header context header css ∈ blockPieces compact level (parts compact [] rules) →
      (context, header) ∈ Rule.allHeaders [] rules ∧ header.root = false ∧
        ∃ level, css = pathsCss compact level (headerPaths header)
  | rules, level, h => by
    have hbody : Piece.header context header css ∈
        bodyPieces compact { level := level + 1 } none false (parts compact [] rules) := by
      simpa [blockPieces] using h
    rcases mem_of_mem_bodyPieces hbody with ⟨hentry, -⟩ | ⟨part, hpart, place, hmem⟩
    · cases hentry
    · exact mem_allHeaders_of_mem_parts rules hpart hmem

theorem mem_allHeaders_of_mem_parts : ∀ (rules : List Rule) {outer : List Path} {part : Part}
    {place : Place}, part ∈ parts compact outer rules →
      Piece.header context header css ∈ part.pieces place →
        (context, header) ∈ Rule.allHeaders outer rules ∧ header.root = false ∧
          ∃ level, css = pathsCss compact level (headerPaths header)
  | [], _, _, _, hpart, _ => by cases hpart
  | rule :: rules, outer, part, place, hpart, h => by
    rw [Rule.allHeaders, List.mem_append]
    rw [parts] at hpart
    rcases List.mem_cons.1 hpart with rfl | hpart
    · obtain ⟨hheader, hrest⟩ := mem_headers_of_mem_rulePieces rule h
      exact ⟨.inl hheader, hrest⟩
    · obtain ⟨hheader, hrest⟩ := mem_allHeaders_of_mem_parts rules hpart h
      exact ⟨.inr hheader, hrest⟩

end

end Members

end Css

section Joined

variable {context inner paths : List Path} {header : Header}

/-- The paths of the header are those of its selectors in the context, which has no references. -/
structure Header.JoinedIn (context : List Path) (header : Header) : Prop where
  free : ∀ parent ∈ context, parent ≠ [] ∧ parent.Free
  join : header.join context = .ok (header.paths, header.within context)

theorem Header.within_of_join (h : header.join context = .ok (paths, inner)) :
    inner = ({ header with paths } : Header).within context := by
  unfold Header.within
  rcases Header.join_cases h with ⟨hnone, rfl, rfl⟩ | ⟨hsome, -, rfl⟩
  · exact (if_pos hnone).symm
  · exact (if_neg (ne_true_of_eq_false hsome)).symm

/-- The context for the rules of a ruleset has no references if the one around it has none. -/
theorem Header.JoinedIn.free_within (h : header.JoinedIn context) :
    ∀ parent ∈ header.within context, parent ≠ [] ∧ parent.Free := by
  rcases Header.join_cases h.join with ⟨-, -, hinner⟩ | ⟨-, hjoin, hinner⟩
  · rw [hinner]
    exact h.free
  · rw [hinner]
    intro parent hparent
    exact ⟨Path.ne_nil_of_mem_join hjoin hparent,
      Path.free_join (fun p hp => (h.free p hp).2) hjoin parent hparent⟩

mutual

/-- Every ruleset in a rule that was joined is joined in its own context. -/
theorem Rule.joinedIn_of_join : ∀ (rule : Rule) {context : List Path} {joined : Rule},
    (∀ parent ∈ context, parent ≠ [] ∧ parent.Free) → rule.join context = .ok joined →
      ∀ entry ∈ joined.headers context, entry.2.JoinedIn entry.1
  | .ruleset header rules, context, joined, hcontext, h, entry, hentry => by
    obtain ⟨paths, inner, joinedRules, hpaths, hrules, rfl⟩ := join_ruleset_eq_ok_iff.1 h
    have hinner := Header.within_of_join hpaths
    have hheader : Header.JoinedIn context { header with paths } := ⟨hcontext, hinner ▸ hpaths⟩
    rcases List.mem_cons.1 hentry with rfl | hentry
    · exact hheader
    · exact allJoinedIn_of_joinAll rules hheader.free_within (hinner ▸ hrules) entry hentry
  | .media head rules, context, joined, hcontext, h, entry, hentry => by
    obtain ⟨joinedRules, hrules, rfl⟩ := join_media_eq_ok_iff.1 h
    exact allJoinedIn_of_joinAll rules (fun parent hp => by cases hp) hrules entry hentry
  | .directive head (some rules), context, joined, hcontext, h, entry, hentry => by
    obtain ⟨joinedRules, hrules, rfl⟩ := join_directive_eq_ok_iff.1 h
    exact allJoinedIn_of_joinAll rules (fun parent hp => by cases hp) hrules entry hentry
  | .declaration _, _, _, _, h, _, hentry | .definition .., _, _, _, h, _, hentry
  | .call _, _, _, _, h, _, hentry | .inclusion _, _, _, _, h, _, hentry
  | .comment _, _, _, _, h, _, hentry | .directive _ none, _, _, _, h, _, hentry => by
    obtain ⟨⟩ := h
    cases hentry

theorem Rule.allJoinedIn_of_joinAll : ∀ (rules : List Rule) {context : List Path}
    {joined : List Rule}, (∀ parent ∈ context, parent ≠ [] ∧ parent.Free) →
      joinAll context rules = .ok joined →
        ∀ entry ∈ allHeaders context joined, entry.2.JoinedIn entry.1
  | [], _, _, _, h, _, hentry => by
    obtain ⟨⟩ := h
    cases hentry
  | rule :: rules, context, joined, hcontext, h, entry, hentry => by
    obtain ⟨joinedRule, rest, hrule, hrest, rfl⟩ := joinAll_cons_eq_ok_iff.1 h
    rcases List.mem_append.1 hentry with hentry | hentry
    · exact joinedIn_of_join rule hcontext hrule entry hentry
    · exact allJoinedIn_of_joinAll rules hcontext hrest entry hentry

end

end Joined

/-- A text is what is printed for a ruleset in a context: its joined paths, which have no
references. The exception are selectors that are nothing but references without a context. They
have no paths, and stand for themselves. -/
structure Header.Printed (compact : Bool) (context : List Path) (header : Header) (css : String) :
    Prop where
  joined : Path.join context header.selectors = .ok header.paths
  free : ∀ path ∈ header.paths, path.Free
  paths : ¬(context = [] ∧ ∀ s ∈ header.selectors, s.IsReference) →
    header.paths ≠ [] ∧ ∃ level, css = Css.pathsCss compact level header.paths
  references : context = [] → (∀ s ∈ header.selectors, s.IsReference) →
    header.paths = [] ∧ ∃ level, css = Css.pathsCss compact level (header.selectors.map ([·]))

theorem Header.JoinedIn.printed {compact : Bool} {context : List Path} {header : Header}
    (h : header.JoinedIn context) (hroot : header.root = false) (hne : header.selectors ≠ [])
    (level : Nat) :
    header.Printed compact context (Css.pathsCss compact level (Css.headerPaths header)) := by
  have hsome : (header.root || header.selectors.isEmpty) = false := by simp [hroot, hne]
  have hpaths : Path.join context header.selectors = .ok header.paths := by
    rcases Header.join_cases h.join with ⟨hnone, -, -⟩ | ⟨-, hjoin, -⟩
    · rw [hsome] at hnone
      cases hnone
    · exact hjoin
  have hempty := Path.join_eq_nil_iff hne (fun parent hp => (h.free parent hp).1) hpaths
  refine ⟨hpaths, Path.free_join (fun parent hp => (h.free parent hp).2) hpaths, ?_, ?_⟩
  · intro hsome
    have hne : header.paths ≠ [] := fun hnil => hsome (hempty.1 hnil)
    refine ⟨hne, level, ?_⟩
    rw [Css.headerPaths, if_neg (by simpa using hne)]
  · intro hnil hreferences
    have hnone : header.paths = [] := hempty.2 ⟨hnil, hreferences⟩
    refine ⟨hnone, level, ?_⟩
    rw [Css.headerPaths, if_pos (by simpa using hnone)]

/-- The rules of a document that was compiled are joined, and so are the blocks in it. -/
theorem ensures_compileTree_joinedIn (sc : Scope) (nodes : List Node) (s : Store) :
    Ensures (compileTree sc nodes) s
      (fun root t => root.header.JoinedIn [] ∧
        ∀ entry ∈ Rule.allHeaders (root.header.within []) (t.rulesOf root.rules),
          entry.2.JoinedIn entry.1)
      fun _ _ => True := by
  have hnone : ∀ parent ∈ ([] : List Path), parent ≠ [] ∧ parent.Free := fun p hp => by cases hp
  rw [compileTree, ensures_bind]
  refine ensures_lift.2 ?_
  rw [ensures_bind]
  refine Ensures.mono (Ensures.run _ _) ?_ fun _ _ _ => trivial
  intro compiled t _
  split
  · rw [ensures_bind]
    refine ensures_lift.2 (Ensures.mono (ensures_join_rulesOf compiled _) ?_ fun _ _ h => h)
    rintro root u ⟨paths, inner, hpaths, hheader, hrules⟩
    have hinner := Header.within_of_join hpaths
    have hjoined : root.header.JoinedIn [] := by
      rw [hheader]
      exact ⟨hnone, hinner ▸ hpaths⟩
    rw [hinner, ← hheader] at hrules
    exact ⟨hjoined, Rule.allJoinedIn_of_joinAll _ hjoined.free_within hrules⟩
  · exact ensures_throw.2 trivial

/-- Only joined selectors are printed. The text of a document that was compiled is made of pieces,
and every piece for the selectors of a ruleset is the list of its joined paths. There are no
references to a parent in them, except where selectors that are nothing but references stand
outside of all rulesets. -/
theorem compileTree_headers_printed {sc : Scope} {nodes : List Node} {s t : Store} {root : Ruleset}
    (h : (compileTree sc nodes).run.run s = (.ok root, t)) (compact : Bool) :
    t.css compact root =
        Css.Piece.allCss (Css.pieces compact root.header (t.rulesOf root.rules)) ∧
      ∀ context header css,
        Css.Piece.header context header css ∈
          Css.pieces compact root.header (t.rulesOf root.rules) →
        header.selectors ≠ [] → header.Printed compact context css := by
  obtain ⟨hroot, hrules⟩ := (ensures_compileTree_joinedIn sc nodes s).of_ok h
  refine ⟨(Css.allCss_pieces compact root.header _).symm, ?_⟩
  intro context header css hmem hne
  obtain ⟨hheader, hplain, level, rfl⟩ := Css.mem_headers_of_mem_rulePieces _ hmem
  rcases List.mem_cons.1 hheader with heq | hheader
  · obtain ⟨⟩ := heq
    exact hroot.printed hplain hne level
  · exact (hrules _ hheader).printed hplain hne level

/-- A reference beside a plain selector, nested in a ruleset and in a media block. -/
theorem compileTree_headers_printed_nested :
    let link : Rule := .ruleset
      { selectors := [{ elements := [⟨.compound, "&"⟩, ⟨.compound, ":hover"⟩] },
          { elements := [⟨.child, "b"⟩] }] }
      [.declaration { name := "color", value := .read "red" }]
    let rules : List Rule := [
      .ruleset { selectors := [{ elements := [⟨.compound, ".a"⟩] }] }
        [.media { features := "print" } [link]]]
    let nodes := ((Node.ofRules rules).run 0).1
    ∃ root t, (compileTree {} nodes).run.run { nextSerial := 2 } = (.ok root, t) ∧
      t.css true root = "@media print\x7b.a:hover,.a>b\x7bcolor:red\x7d\x7d" ∧
      ∀ context header css,
        Css.Piece.header context header css ∈ Css.pieces true root.header (t.rulesOf root.rules) →
        header.selectors ≠ [] → header.Printed true context css := by
  intro link rules nodes
  have hcss : ((do
      let root ← compileTree {} nodes
      return (← get).css true root : CompileM String).run.run { nextSerial := 2 }).1.toOption =
        some "@media print\x7b.a:hover,.a>b\x7bcolor:red\x7d\x7d" := by
    decide +kernel
  cases hrun : (compileTree {} nodes).run.run { nextSerial := 2 } with
  | mk result t =>
    cases result with
    | error e =>
      rw [run_bind_error hrun] at hcss
      cases hcss
    | ok root =>
      rw [run_bind_ok hrun] at hcss
      exact ⟨root, t, rfl, Option.some.inj hcss, (compileTree_headers_printed hrun true).2⟩

/-- A lone reference outside of all rulesets has no paths, and is printed as it stands. -/
theorem compileToCss_lone_reference :
    let reference : Selector := { elements := [⟨.compound, "&"⟩] }
    Path.join [] [reference] = .ok [] ∧
      compileToCss [.ruleset { selectors := [reference] }
          [.declaration { name := "color", value := .read "red" }]] {} none =
        .ok "& \x7b\n  color: red;\n\x7d" := by
  decide +kernel

end Stylesheet
