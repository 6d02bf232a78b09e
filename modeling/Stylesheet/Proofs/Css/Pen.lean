import Stylesheet.Proofs.Css.Braces
import Stylesheet.Proofs.Css.Hoisted

/-!
# Printing with a pen

Style sheets can be printed with a pen that writes one text from its start to its end. The pen has
the level of indentation, a mark for the last rule of a body and a mark for the start of a path.
Whoever draws a rule sets them and has to set them back: the level goes up and down around a body,
and the mark for the last rule is taken away behind that rule.

A pen without the mark for the last rule draws a rule as the text that the rule is printed as, and
comes back with its level and its mark. So it draws the next style sheet as it would have drawn it
before.
-/

namespace Stylesheet.Css

open Text

/-- What the text written so far leaves behind. -/
structure Pen where
  /-- How deep rules are indented. -/
  level : Nat := 0
  /-- Whether the next rule is the last one of a body. -/
  last : Bool := false
  /-- Whether the next selector is the first one of a path. -/
  atStart : Bool := false
  /-- The text so far. -/
  text : String := ""

/-- A rule, and how it is drawn. -/
structure Job where
  rule : Rule
  draw : Pen → Pen

namespace Pen

/-- Write a text. -/
def write (pen : Pen) (text : String) : Pen := { pen with text := pen.text ++ text }

/-- Write a selector. What follows is not at the start of a path. -/
def writeSelector (compact : Bool) (pen : Pen) (s : Selector) : Pen :=
  { pen.write (Path.selectorCss compact pen.atStart s) with atStart := false }

/-- Write the selectors of a path. -/
def writePath (compact : Bool) (pen : Pen) (path : Path) : Pen :=
  path.foldl (writeSelector compact) { pen with atStart := true }

/-- Write paths, each on a line of its own. -/
def writePaths (compact : Bool) : List Path → Pen → Pen
  | [], pen => pen
  | [path], pen => pen.writePath compact path
  | path :: next :: rest, pen =>
    writePaths compact (next :: rest)
      ((pen.writePath compact path).write ("," ++ lineBreak compact pen.level))

/-- Write the paths of a body and its opening brace, and go one level deeper. -/
def openBody (compact : Bool) (pen : Pen) (paths : List Path) : Pen :=
  let opened := (writePaths compact paths pen).write (opening compact pen.level)
  { opened with level := opened.level + 1 }

/-- Come back from a body, and write its closing brace. -/
def closeBody (compact : Bool) (pen : Pen) : Pen :=
  let back := { pen with level := pen.level - 1 }
  back.write (closing compact back.level)

/-- Draw a plain rule. The last one of a body is drawn with the mark for it, which is taken away
afterwards. Behind any other one there is a gap. -/
def drawPlain (gap : String) (final : Bool) (pen : Pen) (job : Job) : Pen :=
  let drawn := job.draw (if final then { pen with last := true } else pen)
  if drawn.last then { drawn with last := false } else drawn.write gap

/-- Draw plain rules, of which the last one may end a body. -/
def drawPlains (gap : String) (ends : Bool) : List Job → Pen → Pen
  | [], pen => pen
  | job :: rest, pen => drawPlains gap ends rest (pen.drawPlain gap (rest.isEmpty && ends) job)

/-- Draw blocks with a gap between each two, and `lead` before the first. -/
def drawBlocks (gap lead : String) : List Job → Pen → Pen
  | [], pen => pen
  | job :: rest, pen => drawBlocks gap gap rest (job.draw (pen.write lead))

/-- Draw the plain rules of a ruleset with its header, or of a document if there are no paths. The
header is left out if there are no plain rules. -/
def drawFront (compact : Bool) (paths : Option (List Path)) (ends : Bool) (plain : List Job)
    (pen : Pen) : Pen :=
  let header := if plain.isEmpty then none else paths
  let inner := if paths.isSome then pen.level + 1 else pen.level
  let opened := header.elim pen (pen.openBody compact)
  let filled := drawPlains (lineBreak compact inner) ends plain opened
  if header.isSome then filled.closeBody compact else filled

/-- Draw blocks behind plain rules. An outermost document that has written nothing is a line
break, unless the output is compact. -/
def drawRest (compact firstRoot : Bool) (gap lead : String) (blocks : List Job) (pen : Pen) : Pen :=
  let done := drawBlocks gap lead blocks pen
  if done.text.isEmpty && !compact && firstRoot then done.write "\n" else done

/-- Draw the rules of a ruleset, or of a document if there are no paths. -/
def drawBody (compact : Bool) (paths : Option (List Path)) (firstRoot : Bool) (jobs : List Job)
    (pen : Pen) : Pen :=
  let shown := jobs.filter (·.rule.isVisible compact)
  let blocks := shown.filter (·.rule.isBlock paths.isNone)
  let plain := shown.filter (!·.rule.isBlock paths.isNone)
  let gap := lineBreak compact pen.level
  drawRest compact firstRoot gap (if plain.isEmpty then "" else gap) blocks
    (pen.drawFront compact paths (paths.isSome || blocks.isEmpty || firstRoot) plain)

/-- Draw rules in braces, as a document one level deeper. -/
def drawBraces (compact : Bool) (jobs : List Job) (pen : Pen) : Pen :=
  let opened := { pen.write (opening compact pen.level) with level := pen.level + 1 }
  let filled := drawBody compact none false jobs opened
  { filled with level := pen.level }.write (closing compact pen.level)

mutual

/-- Draw a rule. -/
def drawRule (compact : Bool) : Rule → Pen → Pen
  | .declaration d, pen => pen.write (declarationCss compact pen.last d)
  | .ruleset header rules, pen =>
    drawBody compact (if header.root then none else some (headerPaths header)) header.firstRoot
      (jobs compact rules) pen
  | .definition .., pen | .call _, pen => pen
  | .inclusion i, pen => pen.write ("@import \"" ++ i.path ++ "\";")
  | .comment c, pen => pen.write c.text
  | .media head rules, pen =>
    drawBraces compact (jobs compact rules) (pen.write ("@media " ++ head.features))
  | .directive head none, pen => pen.write (directiveCss head ++ ";")
  | .directive head (some rules), pen =>
    drawBraces compact (jobs compact rules) (pen.write (directiveCss head))

/-- The rules with their ways to draw them. -/
def jobs (compact : Bool) : List Rule → List Job
  | [] => []
  | rule :: rules => ⟨rule, drawRule compact rule⟩ :: jobs compact rules

end

/-- Draw a whole style sheet as a text of its own. -/
def drawSheet (compact : Bool) (header : Header) (rules : List Rule) (pen : Pen) : Pen :=
  drawRule compact (.ruleset header rules) { pen with text := "" }

/-- The second pen has written a text behind that of the first, and is otherwise as it was, but for
the start of paths. -/
structure Wrote (pen : Pen) (text : String) (after : Pen) : Prop where
  text : after.text = pen.text ++ text
  level : after.level = pen.level
  last : after.last = pen.last

namespace Wrote

variable {pen after later : Pen} {text more : String}

theorem nothing (pen : Pen) : pen.Wrote "" pen := ⟨String.append_empty.symm, rfl, rfl⟩

theorem write (pen : Pen) (text : String) : pen.Wrote text (pen.write text) := ⟨rfl, rfl, rfl⟩

theorem trans (h : pen.Wrote text after) (h' : after.Wrote more later) :
    pen.Wrote (text ++ more) later :=
  ⟨by rw [h'.text, h.text, String.append_assoc], h'.level.trans h.level, h'.last.trans h.last⟩

theorem isEmpty_text (h : pen.Wrote text after) :
    after.text.isEmpty = (pen.text.isEmpty && text.isEmpty) := by
  rw [h.text, isEmpty_append]

end Wrote

section Paths

variable (compact : Bool)

theorem wrote_writeSelector (pen : Pen) (s : Selector) :
    pen.Wrote (Path.selectorCss compact pen.atStart s) (pen.writeSelector compact s) :=
  ⟨rfl, rfl, rfl⟩

theorem wrote_foldl_writeSelector (path : Path) {pen : Pen} (h : pen.atStart = false) :
    pen.Wrote (String.join (path.map (Path.selectorCss compact false)))
      (path.foldl (writeSelector compact) pen) := by
  induction path generalizing pen with
  | nil => exact .nothing pen
  | cons s rest ih =>
    rw [List.map_cons, String.join_cons, ← h]
    refine (wrote_writeSelector compact pen s).trans ?_
    rw [h]
    exact ih rfl

/-- A path is written as it is printed, whatever was written before it. -/
theorem wrote_writePath (path : Path) (pen : Pen) :
    pen.Wrote (path.css compact) (pen.writePath compact path) := by
  cases path with
  | nil => exact ⟨String.append_empty.symm, rfl, rfl⟩
  | cons s rest =>
    have hfirst : pen.Wrote (Path.selectorCss compact true s)
        (writeSelector compact { pen with atStart := true } s) := ⟨rfl, rfl, rfl⟩
    exact hfirst.trans (wrote_foldl_writeSelector compact rest rfl)

theorem wrote_writePaths (paths : List Path) (pen : Pen) :
    pen.Wrote (pathsCss compact pen.level paths) (writePaths compact paths pen) := by
  induction paths generalizing pen with
  | nil => exact .nothing pen
  | cons path rest ih =>
    cases rest with
    | nil =>
      have hone : pathsCss compact pen.level [path] = path.css compact := by simp [pathsCss]
      rw [hone]
      exact wrote_writePath compact path pen
    | cons next rest =>
      have hmore := (wrote_writePath compact path pen).trans
        (Wrote.write _ ("," ++ lineBreak compact pen.level))
      have hrest := ih ((pen.writePath compact path).write ("," ++ lineBreak compact pen.level))
      rw [hmore.level] at hrest
      rw [pathsCss, List.map_cons, List.map_cons, String.intercalate_cons_cons]
      exact hmore.trans hrest

end Paths

end Pen

/-- The job draws the text of the item. A block is drawn without the mark for the last rule. A plain
rule is drawn with it or without it, and its text does not depend on anything else. -/
structure Job.Prints (job : Job) (item : Item) : Prop where
  rule : job.rule = item.rule
  block : ∀ pen : Pen, pen.last = false →
    pen.Wrote (item.css { level := pen.level, fresh := pen.text.isEmpty }) (job.draw pen)
  plain : item.rule.isBlock false = false → ∀ (pen : Pen) (place : Place), place.last = pen.last →
    pen.Wrote (item.css place) (job.draw pen)

namespace Pen

section Bodies

variable {job : Job} {item : Item} {jobs : List Job} {items : List Item} {pen : Pen}

/-- The mark for the last rule is gone again behind it. -/
theorem wrote_drawPlain (h : job.Prints item) (hplain : item.rule.isBlock false = false)
    (hpen : pen.last = false) (level : Nat) (gap : String) (final : Bool) :
    pen.Wrote (item.css { level, last := final } ++ if final then "" else gap)
      (pen.drawPlain gap final job) := by
  cases final with
  | true =>
    have hdrawn := h.plain hplain { pen with last := true } { level, last := true } rfl
    have hlast : (job.draw { pen with last := true }).last = true := hdrawn.last
    rw [if_pos rfl, String.append_empty, drawPlain, if_pos rfl]
    rw [if_pos hlast]
    exact ⟨hdrawn.text, hdrawn.level, hpen.symm⟩
  | false =>
    have hdrawn := h.plain hplain pen { level, last := false } hpen.symm
    have hlast : ¬(job.draw pen).last = true := by rw [hdrawn.last, hpen]; exact Bool.false_ne_true
    rw [if_neg Bool.false_ne_true, drawPlain, if_neg Bool.false_ne_true]
    rw [if_neg hlast]
    exact hdrawn.trans (.write _ gap)

theorem wrote_drawPlains (h : List.Forall₂ Job.Prints jobs items)
    (hplain : ∀ item ∈ items, item.rule.isBlock false = false) (hpen : pen.last = false)
    (level : Nat) (gap : String) (ends : Bool) :
    pen.Wrote (plainCss level gap ends items) (drawPlains gap ends jobs pen) := by
  induction h generalizing pen with
  | nil => exact .nothing pen
  | @cons job item jobs items hjob hrest ih =>
    rw [List.forall_mem_cons] at hplain
    cases hrest with
    | nil => exact wrote_drawPlain hjob hplain.1 hpen level gap ends
    | cons _ _ =>
      have hone := wrote_drawPlain hjob hplain.1 hpen level gap false
      exact hone.trans (ih hplain.2 (hone.last.trans hpen))

theorem wrote_drawBlocks (h : List.Forall₂ Job.Prints jobs items) (hpen : pen.last = false)
    (gap lead : String) :
    pen.Wrote (blocksCss pen.level gap lead pen.text.isEmpty items)
      (drawBlocks gap lead jobs pen) := by
  induction h generalizing pen lead with
  | nil => exact .nothing pen
  | @cons job item jobs items hjob hrest ih =>
    have hlead := Wrote.write pen lead
    have hone := hlead.trans (hjob.block (pen.write lead) hpen)
    have hmore := hone.trans (ih (hone.last.trans hpen) gap)
    rw [hone.isEmpty_text, hone.level, hlead.isEmpty_text, hlead.level] at hmore
    exact hmore

theorem wrote_openBody (compact : Bool) (paths : List Path) (pen : Pen) :
    (pen.openBody compact paths).text =
        pen.text ++ (pathsCss compact pen.level paths ++ opening compact pen.level) ∧
      (pen.openBody compact paths).level = pen.level + 1 ∧
      (pen.openBody compact paths).last = pen.last := by
  have hopened := (wrote_writePaths compact paths pen).trans
    (.write _ (opening compact pen.level))
  exact ⟨hopened.text, congrArg (· + 1) hopened.level, hopened.last⟩

/-- The header of a body takes the pen one level down and back. -/
theorem wrote_closeBody {compact : Bool} {paths : List Path} {text : String} {after : Pen}
    (h : (pen.openBody compact paths).Wrote text after) :
    pen.Wrote (pathsCss compact pen.level paths ++ opening compact pen.level ++ text ++
      closing compact pen.level) (after.closeBody compact) := by
  obtain ⟨htext, hlevel, hlast⟩ := wrote_openBody compact paths pen
  have hback : after.level - 1 = pen.level := by rw [h.level, hlevel, Nat.add_sub_cancel]
  refine ⟨?_, hback, h.last.trans hlast⟩
  change after.text ++ closing compact (after.level - 1) = _
  rw [hback, h.text, htext]
  simp only [String.append_assoc]

theorem wrote_drawFront_document (h : List.Forall₂ Job.Prints jobs items)
    (hplain : ∀ item ∈ items, item.rule.isBlock false = false) (hpen : pen.last = false)
    (compact ends : Bool) :
    pen.Wrote (plainCss pen.level (lineBreak compact pen.level) ends items)
      (pen.drawFront compact none ends jobs) := by
  have hnone : (if jobs.isEmpty then none else (none : Option (List Path))) = none := ite_self none
  rw [drawFront, hnone]
  exact wrote_drawPlains h hplain hpen pen.level (lineBreak compact pen.level) ends

theorem wrote_drawFront_ruleset (h : List.Forall₂ Job.Prints jobs items)
    (hplain : ∀ item ∈ items, item.rule.isBlock false = false) (hpen : pen.last = false)
    (compact : Bool) (paths : List Path) :
    pen.Wrote (rulesetText compact pen.level paths items)
      (pen.drawFront compact (some paths) true jobs) := by
  cases h with
  | nil => exact .nothing pen
  | cons hjob hrest =>
    obtain ⟨-, -, hlast⟩ := wrote_openBody compact paths pen
    have hfilled := wrote_drawPlains (.cons hjob hrest) hplain (hlast.trans hpen) pen.level
      (lineBreak compact (pen.level + 1)) true
    exact wrote_closeBody hfilled

theorem wrote_drawRest {front : Pen} {text : String} (hfront : pen.Wrote text front)
    (h : List.Forall₂ Job.Prints jobs items) (hpen : pen.last = false) (compact firstRoot : Bool)
    (gap lead : String) :
    let css := text ++ blocksCss pen.level gap lead (pen.text.isEmpty && text.isEmpty) items
    pen.Wrote (if css.isEmpty && pen.text.isEmpty && firstRoot && !compact then "\n" else css)
      (front.drawRest compact firstRoot gap lead jobs) := by
  intro css
  have hblocks := wrote_drawBlocks h (hfront.last.trans hpen) gap lead
  rw [hfront.level, hfront.isEmpty_text] at hblocks
  have hdone : pen.Wrote css (drawBlocks gap lead jobs front) := hfront.trans hblocks
  have hcondition : ((drawBlocks gap lead jobs front).text.isEmpty && !compact && firstRoot) =
      (css.isEmpty && pen.text.isEmpty && firstRoot && !compact) := by
    rw [hdone.isEmpty_text]
    ac_rfl
  rw [drawRest, hcondition]
  split
  · rename_i hnothing
    have hempty : css = "" := by
      simp only [Bool.and_eq_true] at hnothing
      simpa using hnothing.1.1.1
    rw [hempty] at hdone
    simpa using hdone.trans (.write _ "\n")
  · exact hdone

/-- A body is drawn as it is printed. -/
theorem wrote_drawBody (compact : Bool) (paths : Option (List Path)) (firstRoot : Bool)
    (h : List.Forall₂ Job.Prints jobs items) (hpen : pen.last = false) :
    pen.Wrote
      (bodyCss compact { level := pen.level, fresh := pen.text.isEmpty } paths firstRoot items)
      (pen.drawBody compact paths firstRoot jobs) := by
  have hfilter {p : Job → Bool} {q : Item → Bool} {jobs : List Job} {items : List Item}
      (hp : ∀ job item, job.Prints item → p job = q item)
      (h : List.Forall₂ Job.Prints jobs items) :
      List.Forall₂ Job.Prints (jobs.filter p) (items.filter q) := by
    refine List.rel_filter ?_ h
    intro job item hjob
    dsimp only
    rw [hp job item hjob]
  have hshown := hfilter (p := (·.rule.isVisible compact)) (q := (·.rule.isVisible compact))
    (fun _ _ hjob => by rw [hjob.rule]) h
  have hblocks := hfilter (p := (·.rule.isBlock paths.isNone))
    (q := (·.rule.isBlock paths.isNone)) (fun _ _ hjob => by rw [hjob.rule]) hshown
  have hplain := hfilter (p := (!·.rule.isBlock paths.isNone))
    (q := (!·.rule.isBlock paths.isNone)) (fun _ _ hjob => by rw [hjob.rule]) hshown
  have hisPlain : ∀ item ∈ (items.filter (·.rule.isVisible compact)).filter
      (!·.rule.isBlock paths.isNone), item.rule.isBlock false = false := by
    intro item hitem
    have hnot : item.rule.isBlock paths.isNone = false := by
      simpa using (List.mem_filter.1 hitem).2
    cases hblock : item.rule.isBlock false with
    | false => rfl
    | true => rw [isBlock_of_isBlock hblock] at hnot; cases hnot
  unfold drawBody bodyCss
  dsimp only
  rw [← isEmpty_eq_of_forall₂ hplain, ← isEmpty_eq_of_forall₂ hblocks]
  cases paths with
  | none =>
    exact wrote_drawRest (wrote_drawFront_document hplain hisPlain hpen compact _) hblocks hpen
      compact firstRoot _ _
  | some paths =>
    exact wrote_drawRest (wrote_drawFront_ruleset hplain hisPlain hpen compact paths) hblocks hpen
      compact firstRoot _ _

theorem isEmpty_opening (compact : Bool) (level : Nat) :
    (opening compact level).isEmpty = false := by
  cases compact with
  | true => rfl
  | false =>
    have hopening : opening false level = " \x7b" ++ lineBreak false (level + 1) := rfl
    rw [hopening, isEmpty_append]
    rfl

/-- What stands in braces is drawn one level deeper, and then the level is what it was. -/
theorem wrote_drawBraces (compact : Bool) (h : List.Forall₂ Job.Prints jobs items)
    (hpen : pen.last = false) :
    pen.Wrote (blockCss compact pen.level items) (pen.drawBraces compact jobs) := by
  let opened : Pen := { pen.write (opening compact pen.level) with level := pen.level + 1 }
  have hbody : opened.Wrote
      (bodyCss compact { level := pen.level + 1, fresh := opened.text.isEmpty } none false items)
      (opened.drawBody compact none false jobs) :=
    wrote_drawBody compact none false h hpen
  have hfresh : opened.text.isEmpty = false := by
    have htext := (Wrote.write pen (opening compact pen.level)).isEmpty_text
    rwa [isEmpty_opening, Bool.and_false] at htext
  rw [hfresh] at hbody
  refine ⟨?_, rfl, hbody.last⟩
  change (opened.drawBody compact none false jobs).text ++ closing compact pen.level = _
  rw [hbody.text, blockCss]
  change pen.text ++ opening compact pen.level ++ _ ++ _ = _
  simp only [String.append_assoc]

end Bodies

section Rules

variable {rule : Rule} {draw : Pen → Pen} {css : Place → String}

/-- A plain rule is drawn as its text wherever it stands. -/
theorem prints_plain (h : ∀ (pen : Pen) (place : Place), place.last = pen.last →
    pen.Wrote (css place) (draw pen)) : Job.Prints ⟨rule, draw⟩ ⟨rule, css⟩ where
  rule := rfl
  block := fun pen hpen => h pen _ hpen.symm
  plain := fun _ => h

theorem prints_block (hblock : rule.isBlock false = true) (h : ∀ pen : Pen, pen.last = false →
    pen.Wrote (css { level := pen.level, fresh := pen.text.isEmpty }) (draw pen)) :
    Job.Prints ⟨rule, draw⟩ ⟨rule, css⟩ where
  rule := rfl
  block := h
  plain := fun hplain => by rw [hblock] at hplain; cases hplain

variable (compact : Bool)

mutual

/-- A rule is drawn as it is printed. -/
theorem prints_rule : ∀ rule : Rule,
    Job.Prints ⟨rule, drawRule compact rule⟩ ⟨rule, ruleCss compact rule⟩
  | .declaration d => prints_plain fun pen place hlast => by
    rw [ruleCss, hlast]
    exact .write pen _
  | .ruleset header rules => prints_block rfl fun pen hpen => by
    rw [drawRule, ruleCss]
    exact wrote_drawBody compact _ _ (prints_jobs rules) hpen
  | .media head rules => prints_block rfl fun pen hpen =>
    (Wrote.write pen ("@media " ++ head.features)).trans
      (wrote_drawBraces compact (prints_jobs rules) hpen)
  | .directive head (some rules) => prints_block rfl fun pen hpen =>
    (Wrote.write pen (directiveCss head)).trans
      (wrote_drawBraces compact (prints_jobs rules) hpen)
  | .directive _ none => prints_block rfl fun pen _ => .write pen _
  | .inclusion _ | .comment _ => prints_plain fun pen _ _ => .write pen _
  | .definition .. | .call _ => prints_plain fun pen _ _ => .nothing pen

theorem prints_jobs : ∀ rules : List Rule,
    List.Forall₂ Job.Prints (jobs compact rules) (items compact rules)
  | [] => .nil
  | rule :: rules => .cons (prints_rule rule) (prints_jobs rules)

end

end Rules

theorem wrote_drawSheet (compact : Bool) (header : Header) (rules : List Rule) {pen : Pen}
    (hpen : pen.last = false) :
    Wrote { pen with text := "" }
      (ruleCss compact (.ruleset header rules) { level := pen.level, fresh := true })
      (pen.drawSheet compact header rules) :=
  (prints_rule compact (.ruleset header rules)).block { pen with text := "" } hpen

/-- A pen without the mark for the last rule comes back from a style sheet with the level and the
mark that it had, so it draws the style sheet again as the same text. This is the text that the
style sheet is printed as, at the level of the pen. If there are no braces in the texts of the style
sheet then the braces in its output are balanced. -/
theorem drawSheet_restores (compact : Bool) (header : Header) (rules : List Rule) {pen : Pen}
    (hpen : pen.last = false) :
    let after := pen.drawSheet compact header rules
    after.level = pen.level ∧ after.last = pen.last ∧
      (after.drawSheet compact header rules).text = after.text ∧
      after.text = ruleCss compact (.ruleset header rules) { level := pen.level, fresh := true } ∧
      (pen.level = 0 → after.text = print compact header rules) ∧
      ((∀ text ∈ (Rule.ruleset header rules).texts,
          '\x7b' ∉ text.toList ∧ '\x7d' ∉ text.toList) →
        (∀ start, start <+: after.text.toList → start.count '\x7d' ≤ start.count '\x7b') ∧
          after.text.toList.count '\x7d' = after.text.toList.count '\x7b') := by
  intro after
  have hdrawn := wrote_drawSheet compact header rules hpen
  have hagain := wrote_drawSheet compact header rules (hdrawn.last.trans hpen)
  have htext : after.text =
      ruleCss compact (.ruleset header rules) { level := pen.level, fresh := true } :=
    hdrawn.text.trans String.empty_append
  refine ⟨hdrawn.level, hdrawn.last, ?_, htext, fun hlevel => ?_, fun hbraces => ?_⟩
  · rw [hagain.text, hdrawn.level, htext]
    exact String.empty_append
  · rw [htext, hlevel, print]
  · have hbalanced := balanced_ruleCss compact (.ruleset header rules) hbraces
      { level := pen.level, fresh := true }
    rw [htext]
    exact ⟨hbalanced.closed, hbalanced.settled⟩

/-- A ruleset with a last declaration and a media block inside, drawn by a pen that was used. -/
theorem drawSheet_restores_nested :
    let name (text : String) : Header := { selectors := [{ elements := [{ value := text }] }] }
    let assign (property text : String) : Rule :=
      .declaration { name := property, value := .literal text }
    let rules : List Rule := [.ruleset (name ".a") [assign "top" "0", assign "left" "1px",
      .media { features := "print" } [.ruleset (name ".b") [assign "color" "red"]]]]
    let pen : Pen := { level := 1, atStart := true, text := "before" }
    let after := pen.drawSheet true .document rules
    pen.last = false ∧ after.level = 1 ∧ after.last = false ∧
      after.text = ".a\x7btop:0;left:1px\x7d@media print\x7b.b\x7bcolor:red\x7d\x7d" ∧
      (after.drawSheet true .document rules).text = after.text ∧
      (∀ start, start <+: after.text.toList → start.count '\x7d' ≤ start.count '\x7b') ∧
      after.text.toList.count '\x7d' = after.text.toList.count '\x7b' := by
  intro name assign rules pen after
  have htexts : ∀ text ∈ (Rule.ruleset .document rules).texts,
      '\x7b' ∉ text.toList ∧ '\x7d' ∉ text.toList := by
    decide +kernel
  obtain ⟨hlevel, hlast, hagain, -, -, hbraces⟩ :=
    drawSheet_restores true .document rules (rfl : pen.last = false)
  exact ⟨rfl, hlevel, hlast, by decide +kernel, hagain, hbraces htexts⟩

end Pen

end Stylesheet.Css
