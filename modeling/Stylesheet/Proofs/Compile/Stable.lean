import Stylesheet.Proofs.Compile.Bubbling
import Stylesheet.Proofs.Compile.Finish
import Stylesheet.Proofs.Compile.NormalForm
import Stylesheet.Rule.Encoder

/-!
# Compiling what was compiled

A document that was compiled is in normal form: no call is left in it, its values are resolved, and
the holes of its selectors are filled. If it has no imports and no media blocks, and no text that
was put in for a hole has a hole again, then nothing is left to do. Settling such rules gives them
back without their paths, and joining finds the same paths as before, since paths come from
selectors alone.

Media blocks are left out because bubbling wraps them once more each time.
-/

namespace Stylesheet

namespace Rule

section NormalForm

mutual

/-- No call is left in the rule, outside of mixin definitions. Its values are resolved, and its
selectors have their holes filled. -/
def IsNormal : Rule → Prop
  | .declaration d => d.value.isResolved = true
  | .ruleset header rules => (∀ s ∈ header.selectors, s.evaluated = true) ∧ AllNormal rules
  | .media _ rules => AllNormal rules
  | .directive _ (some rules) => AllNormal rules
  | .call _ => False
  | .definition .. | .inclusion _ | .comment _ | .directive _ none => True

/-- No call is left in the rules. -/
def AllNormal : List Rule → Prop
  | [] => True
  | rule :: rules => IsNormal rule ∧ AllNormal rules

end

mutual

/-- Whether a rule has no import, no media block and no selector with a hole, outside of mixin
definitions. -/
def isPlain : Rule → Bool
  | .ruleset header rules => header.selectors.all (fun s => decide s.IsLiteral) && allPlain rules
  | .directive _ (some rules) => allPlain rules
  | .media .. | .inclusion _ => false
  | .declaration _ | .definition .. | .call _ | .comment _ | .directive _ none => true

/-- Whether some rules have no import, no media block and no selector with a hole. -/
def allPlain : List Rule → Bool
  | [] => true
  | rule :: rules => isPlain rule && allPlain rules

end

variable {header : Header} {rule : Rule} {rules : List Rule}

theorem allNormal_iff_forall : AllNormal rules ↔ ∀ rule ∈ rules, rule.IsNormal := by
  induction rules with
  | nil => simp [AllNormal]
  | cons rule rules ih => rw [AllNormal, ih, List.forall_mem_cons]

theorem allPlain_cons_iff :
    allPlain (rule :: rules) = true ↔ rule.isPlain = true ∧ allPlain rules = true := by
  rw [allPlain, Bool.and_eq_true]

theorem isPlain_ruleset_iff :
    (Rule.ruleset header rules).isPlain = true ↔
      (∀ s ∈ header.selectors, s.IsLiteral) ∧ allPlain rules = true := by
  simp [isPlain]

mutual

theorem IsNormal.isFilled : ∀ {rule : Rule}, rule.IsNormal → rule.isPlain = true → rule.IsFilled
  | .declaration _, h, _ => h
  | .ruleset _ _, h, hplain => by
    obtain ⟨hselectors, hrules⟩ := isPlain_ruleset_iff.1 hplain
    exact ⟨hselectors, AllNormal.allFilled h.2 hrules⟩
  | .directive _ (some _), h, hplain => AllNormal.allFilled h hplain
  | .definition .., _, _ | .comment _, _, _ | .directive _ none, _, _ => trivial

/-- Nothing is left to be filled in for plain rules in normal form. -/
theorem AllNormal.allFilled : ∀ {rules : List Rule}, AllNormal rules → allPlain rules = true →
    AllFilled rules
  | [], _, _ => trivial
  | _ :: _, h, hplain => by
    obtain ⟨hrule, hrules⟩ := allPlain_cons_iff.1 hplain
    exact ⟨IsNormal.isFilled h.1 hrule, AllNormal.allFilled h.2 hrules⟩

end

mutual

theorem IsNormal.standsAlone : ∀ {rule : Rule}, rule.IsNormal → rule.isPlain = true →
    rule.standsAlone = true
  | .ruleset _ _, h, hplain => AllNormal.allStandAlone h.2 (isPlain_ruleset_iff.1 hplain).2
  | .directive _ (some _), h, hplain => AllNormal.allStandAlone h hplain
  | .declaration _, _, _ | .definition .., _, _ | .comment _, _, _ | .directive _ none, _, _ => rfl

/-- Plain rules in normal form need no mixin and no import. -/
theorem AllNormal.allStandAlone : ∀ {rules : List Rule}, AllNormal rules →
    allPlain rules = true → allStandAlone rules = true
  | [], _, _ => rfl
  | _ :: _, h, hplain => by
    obtain ⟨hrule, hrules⟩ := allPlain_cons_iff.1 hplain
    rw [Rule.allStandAlone, IsNormal.standsAlone h.1 hrule, AllNormal.allStandAlone h.2 hrules]
    rfl

end

end NormalForm

section Joining

mutual

theorem IsNormal.join : ∀ {rule joined : Rule} {context : List Path}, rule.IsNormal →
    rule.join context = .ok joined → joined.IsNormal
  | .ruleset _ _, _, _, h, hjoin => by
    obtain ⟨paths, inner, inside, -, hinside, rfl⟩ := join_ruleset_eq_ok_iff.1 hjoin
    exact ⟨h.1, AllNormal.joinAll h.2 hinside⟩
  | .media _ _, _, _, h, hjoin => by
    obtain ⟨inside, hinside, rfl⟩ := join_media_eq_ok_iff.1 hjoin
    exact AllNormal.joinAll h hinside
  | .directive _ (some _), _, _, h, hjoin => by
    obtain ⟨inside, hinside, rfl⟩ := join_directive_eq_ok_iff.1 hjoin
    exact AllNormal.joinAll h hinside
  | .declaration _, _, _, h, hjoin | .definition .., _, _, h, hjoin | .inclusion _, _, _, h, hjoin
  | .comment _, _, _, h, hjoin | .directive _ none, _, _, h, hjoin => by
    cases hjoin
    exact h

/-- Joining changes only paths, which the normal form does not speak of. -/
theorem AllNormal.joinAll : ∀ {rules joined : List Rule} {context : List Path}, AllNormal rules →
    joinAll context rules = .ok joined → AllNormal joined
  | [], _, _, _, hjoin => by
    cases hjoin
    trivial
  | _ :: _, _, _, h, hjoin => by
    obtain ⟨joinedRule, rest, hrule, hrest, rfl⟩ := joinAll_cons_eq_ok_iff.1 hjoin
    exact ⟨IsNormal.join h.1 hrule, AllNormal.joinAll h.2 hrest⟩

end

mutual

theorem join_joined : ∀ {rule joined : Rule} {context : List Path},
    rule.join context = .ok joined → joined.join context = .ok joined
  | .ruleset _ _, _, _, h => by
    obtain ⟨paths, inner, inside, hpaths, hinside, rfl⟩ := join_ruleset_eq_ok_iff.1 h
    exact join_ruleset_eq_ok_iff.2 ⟨paths, inner, inside, hpaths, joinAll_joined hinside, rfl⟩
  | .media _ _, _, _, h => by
    obtain ⟨inside, hinside, rfl⟩ := join_media_eq_ok_iff.1 h
    exact join_media_eq_ok_iff.2 ⟨inside, joinAll_joined hinside, rfl⟩
  | .directive _ (some _), _, _, h => by
    obtain ⟨inside, hinside, rfl⟩ := join_directive_eq_ok_iff.1 h
    exact join_directive_eq_ok_iff.2 ⟨inside, joinAll_joined hinside, rfl⟩
  | .declaration _, _, _, h | .definition .., _, _, h | .call _, _, _, h | .inclusion _, _, _, h
  | .comment _, _, _, h | .directive _ none, _, _, h => by
    cases h
    rfl

/-- What was joined stays as it is when it is joined again: its old paths do not matter. -/
theorem joinAll_joined : ∀ {rules joined : List Rule} {context : List Path},
    joinAll context rules = .ok joined → joinAll context joined = .ok joined
  | [], _, _, h => by
    cases h
    rfl
  | _ :: _, _, _, h => by
    obtain ⟨joinedRule, rest, hrule, hrest, rfl⟩ := joinAll_cons_eq_ok_iff.1 h
    exact joinAll_cons_eq_ok_iff.2
      ⟨joinedRule, rest, join_joined hrule, joinAll_joined hrest, rfl⟩

end

end Joining

theorem map_evaluate_of_evaluated {selectors : List Selector}
    (h : ∀ s ∈ selectors, s.evaluated = true) : selectors.map Selector.evaluate = selectors := by
  refine (List.map_congr_left fun s hs => ?_).trans (List.map_id selectors)
  obtain ⟨elements, evaluated⟩ := s
  obtain rfl : evaluated = true := h _ hs
  rfl

/-- The rules on the left are plain, and joining them gives what joining those on the right
gives. -/
structure JoinAlike (settled rules : List Rule) : Prop where
  plain : allPlain settled = true
  join (context : List Path) : joinAll context settled = joinAll context rules

theorem JoinAlike.cons {rule rule' : Rule} {rules rules' : List Rule}
    (hplain : rule.isPlain = true) (hjoin : ∀ context, rule.join context = rule'.join context)
    (h : JoinAlike rules rules') : JoinAlike (rule :: rules) (rule' :: rules') where
  plain := allPlain_cons_iff.2 ⟨hplain, h.plain⟩
  join context := by rw [joinAll, joinAll, hjoin, h.join]

/-- Plain rules in normal form are settled to rules that differ from them in their paths only. -/
theorem Settled.joinAlike {chain : List (List Selector)} {rules settled : List Rule}
    (h : Settled chain rules settled) (hnormal : AllNormal rules)
    (hplain : allPlain rules = true) : JoinAlike settled rules := by
  induction h with
  | nil => exact ⟨rfl, fun _ => rfl⟩
  | declaration sc hvalue _ ih =>
    rw [sc.declaration_of_isResolved hnormal.1] at hvalue
    cases hvalue
    exact (ih hnormal.2 (allPlain_cons_iff.1 hplain).2).cons rfl fun _ => rfl
  | @ruleset _ _ _ body inside header _ sc hselectors _ _ ihbody ih =>
    obtain ⟨⟨hevaluated, hbody⟩, hrules⟩ := hnormal
    obtain ⟨hruleset, hrest⟩ := allPlain_cons_iff.1 hplain
    obtain ⟨hliteral, hinside⟩ := isPlain_ruleset_iff.1 hruleset
    rw [mapM_selector_of_isLiteral sc hliteral, map_evaluate_of_evaluated hevaluated] at hselectors
    cases hselectors
    have halike := ihbody hbody hinside
    refine (ih hrules hrest).cons (isPlain_ruleset_iff.2 ⟨hliteral, halike.plain⟩) ?_
    -- The selectors are the same, and the paths that were there before do not matter.
    intro context
    rw [join, join]
    refine bind_congr fun joined => ?_
    rw [halike.join]
  | definition _ _ _ ih => exact (ih hnormal.2 (allPlain_cons_iff.1 hplain).2).cons rfl fun _ => rfl
  | comment _ _ ih => exact (ih hnormal.2 (allPlain_cons_iff.1 hplain).2).cons rfl fun _ => rfl
  | media _ _ _ _ _ => cases (allPlain_cons_iff.1 hplain).1
  | directive _ _ ih => exact (ih hnormal.2 (allPlain_cons_iff.1 hplain).2).cons rfl fun _ => rfl
  | directiveBlock head _ _ ihbody ih =>
    obtain ⟨hdirective, hrest⟩ := allPlain_cons_iff.1 hplain
    have halike := ihbody hnormal.1 hdirective
    refine (ih hnormal.2 hrest).cons halike.plain fun context => ?_
    rw [join, join, halike.join]

end Rule

namespace Node

/-- A node in normal form reads as a rule in normal form. -/
theorem Normal.isNormal {lenient : Prop} {block : Nat → Prop} {n : Node}
    (h : n.Normal lenient block) : n.toRule.IsNormal := by
  have hall : ∀ {nodes : List Node}, (∀ n ∈ nodes, n.toRule.IsNormal) →
      Rule.AllNormal (toRules nodes) := by
    intro nodes hnodes
    rw [toRules_eq_map]
    exact Rule.allNormal_iff_forall.2 (List.forall_mem_map.2 hnodes)
  induction h with
  | declaration hvalue => exact hvalue
  | @ruleset r hselectors _ ih =>
    obtain ⟨serial, source, header, rules⟩ := r
    exact ⟨hselectors, hall ih⟩
  | @definition d _ =>
    obtain ⟨signature, rules, closure⟩ := d
    trivial
  | inclusion _ => trivial
  | comment c => trivial
  | media _ ih => exact hall ih
  | block _ => trivial
  | @directive head rules _ ih =>
    cases rules with
    | none => trivial
    | some rules => exact hall (ih rules rfl)

variable {look : Nat → Rule}

mutual

theorem blockIndices_of_isPlain (hlook : ∀ index, (look index).isPlain = false) : ∀ n : Node,
    (n.read look).isPlain = true → n.blockIndices = []
  | .block index, h => absurd ((hlook index).symm.trans h) Bool.false_ne_true
  | .ruleset ⟨_, _, _, rules⟩, h =>
    allBlockIndices_of_allPlain hlook rules (Rule.isPlain_ruleset_iff.1 h).2
  | .directive _ (some rules), h => allBlockIndices_of_allPlain hlook rules h
  | .media _ _, h => absurd h Bool.false_ne_true
  | .declaration _, _ | .definition _, _ | .call _, _ | .inclusion _, _ | .comment _, _
  | .directive _ none, _ => rfl

/-- Nodes that read as plain rules refer to no blocks, since blocks do not. -/
theorem allBlockIndices_of_allPlain (hlook : ∀ index, (look index).isPlain = false) :
    ∀ nodes : List Node, Rule.allPlain (readAll look nodes) = true → allBlockIndices nodes = []
  | [], _ => rfl
  | n :: nodes, h => by
    obtain ⟨hn, hnodes⟩ := Rule.allPlain_cons_iff.1 h
    rw [allBlockIndices, blockIndices_of_isPlain hlook n hn,
      allBlockIndices_of_allPlain hlook nodes hnodes, List.append_nil]

end

mutual

theorem exists_join_of_read : ∀ (n : Node) {context : List Path} {rule : Rule},
    (n.read look).join context = .ok rule → ∃ joined, n.join context = .ok joined
  | .ruleset ⟨serial, source, header, rules⟩, _, _, h => by
    obtain ⟨paths, inner, inside, hpaths, hinside, -⟩ := Rule.join_ruleset_eq_ok_iff.1 h
    obtain ⟨joined, hjoined⟩ := exists_joinAll_of_readAll rules hinside
    refine ⟨.ruleset ⟨serial, source, { header with paths }, joined⟩, ?_⟩
    rw [join, hpaths, ok_bind]
    dsimp only
    rw [hjoined]
    rfl
  | .media head rules, _, _, h => by
    obtain ⟨inside, hinside, -⟩ := Rule.join_media_eq_ok_iff.1 h
    obtain ⟨joined, hjoined⟩ := exists_joinAll_of_readAll rules hinside
    exact ⟨.media head joined, by rw [join, hjoined]; rfl⟩
  | .directive head (some rules), _, _, h => by
    obtain ⟨inside, hinside, -⟩ := Rule.join_directive_eq_ok_iff.1 h
    obtain ⟨joined, hjoined⟩ := exists_joinAll_of_readAll rules hinside
    exact ⟨.directive head (some joined), by rw [join, hjoined]; rfl⟩
  | .declaration _, _, _, _ | .definition _, _, _, _ | .call _, _, _, _ | .inclusion _, _, _, _
  | .comment _, _, _, _ | .block _, _, _, _ | .directive _ none, _, _, _ => ⟨_, rfl⟩

/-- Nodes can be joined if the rules that they read as can. -/
theorem exists_joinAll_of_readAll : ∀ (nodes : List Node) {context : List Path}
    {rules : List Rule}, Rule.joinAll context (readAll look nodes) = .ok rules →
      ∃ joined, joinAll context nodes = .ok joined
  | [], _, _, _ => ⟨[], rfl⟩
  | n :: nodes, _, _, h => by
    obtain ⟨rule, rest, hrule, hrest, -⟩ := Rule.joinAll_cons_eq_ok_iff.1 h
    obtain ⟨joined, hjoined⟩ := exists_join_of_read n hrule
    obtain ⟨more, hmore⟩ := exists_joinAll_of_readAll nodes hrest
    exact ⟨joined :: more, by rw [joinAll, hjoined, ok_bind, hmore]; rfl⟩

end

end Node

section Documents

variable {sc : Scope} {nodes : List Node} {s : Store}

/-- Blocks read as media rules. -/
theorem isPlain_readBlocks (blocks : List Block) (index : Nat) :
    (readBlocks blocks index).isPlain = false := by
  cases hb : blocks[index]? with
  | none =>
    rw [readBlocks_of_le (List.getElem?_eq_none_iff.1 hb)]
    rfl
  | some b =>
    rw [readBlocks_of_getElem? hb]
    rfl

theorem Store.allBlockIndices_of_allPlain (h : Rule.allPlain (s.rulesOf nodes) = true) :
    Node.allBlockIndices nodes = [] := by
  rw [rulesOf_eq_readAll] at h
  exact Node.allBlockIndices_of_allPlain (isPlain_readBlocks s.blocks) nodes h

/-- A document without blocks can be joined if the rules that it reads as can. -/
theorem ensures_join_of_no_block {r : Ruleset} {joined : List Rule}
    (hheader : r.header = Header.document) (hnone : Node.allBlockIndices r.rules = [])
    (hjoin : Rule.joinAll [] (s.rulesOf r.rules) = .ok joined) :
    Ensures r.join s
      (fun root t => root.header = Header.document ∧ t.rulesOf root.rules = joined)
      fun _ _ => False := by
  have hrules : (r.renew.run s).1.rules = ((Node.renewAll r.rules).run s.nextSerial).1 := rfl
  have hpaths : r.header.join [] = .ok ([], []) := by
    rw [hheader]
    rfl
  have hindices : Node.allBlockIndices (r.renew.run s).1.rules = [] := by
    rw [hrules, Node.allBlockIndices_renewAll, hnone]
  obtain ⟨rules, hjoined⟩ : ∃ rules, Node.joinAll [] (r.renew.run s).1.rules = .ok rules := by
    rw [Store.rulesOf_eq_readAll, ← Node.readAll_renewAll r.rules s.nextSerial, ← hrules] at hjoin
    exact Node.exists_joinAll_of_readAll _ hjoin
  have hreachable : ∀ i ∈ (r.renew.run s).2.reachable (r.renew.run s).1.rules, False := by
    refine Store.forall_mem_reachable ?_ fun _ _ _ hfalse => hfalse.elim
    rw [hindices]
    exact List.forall_mem_nil _
  obtain ⟨blocks, hblocks⟩ := Store.mapReachable_join_ok_of fun index b _ hmem =>
    (hreachable index hmem).elim
  have hok := ensures_join_of_ok hpaths hjoined hblocks
  refine (hok.and (ensures_join_rulesOf r s)).mono ?_ fun _ _ hfail => hfail.1
  rintro root t ⟨-, paths, inner, hpaths, hroot, hrules⟩
  rw [hheader] at hpaths hroot
  obtain ⟨⟩ := hpaths
  rw [hjoin] at hrules
  exact ⟨hroot, (Except.ok.inj hrules).symm⟩

/-- A document that was compiled is in normal form, and has the paths that joining gives it. -/
theorem ensures_compileTree_normal (sc : Scope) (nodes : List Node) (s : Store) :
    Ensures (compileTree sc nodes) s
      (fun root t => root.header = Header.document ∧ Rule.AllNormal (t.rulesOf root.rules) ∧
        Rule.joinAll [] (t.rulesOf root.rules) = .ok (t.rulesOf root.rules))
      fun _ _ => True := by
  rw [compileTree, ensures_bind]
  refine ensures_lift.2 ?_
  rw [ensures_bind]
  refine (Ensures.run _ _).mono ?_ fun _ _ _ => trivial
  intro compiled t hrun
  have hheader : compiled.header = Header.document := header_compile_document rfl hrun
  have hnormal : Rule.AllNormal (t.rulesOf compiled.rules) := by
    obtain ⟨serial, source, header, rules⟩ := compiled
    exact (compile_normal hrun ⟨fun _ => True, fun _ => True⟩).isNormal.2
  split
  · rw [ensures_bind]
    refine ensures_lift.2 ((ensures_join_rulesOf compiled _).mono ?_ fun _ _ h => h)
    rintro root u ⟨paths, inner, hpaths, hroot, hjoined⟩
    rw [hheader] at hpaths hroot
    obtain ⟨⟩ := hpaths
    exact ⟨hroot, hnormal.joinAll hjoined, Rule.joinAll_joined hjoined⟩
  · exact ensures_throw.2 trivial

/-- A plain document in normal form that has the paths that joining gives it is compiled to
itself. -/
theorem ensures_compileTree_of_normal (hframes : sc.frames = [])
    (hnormal : Rule.AllNormal (s.rulesOf nodes)) (hplain : Rule.allPlain (s.rulesOf nodes) = true)
    (hjoined : Rule.joinAll [] (s.rulesOf nodes) = .ok (s.rulesOf nodes)) :
    Ensures (compileTree sc nodes) s
      (fun root t => root.header = Header.document ∧ t.rulesOf root.rules = s.rulesOf nodes)
      fun _ _ => False := by
  have hbuild := KeepsBooks.build Header.document nodes none s
  have hready : Node.Ready s.blocks.length s nodes := by
    refine ⟨Nat.le_refl _, layeredFrom_length s.blocks, ?_, hnormal.allStandAlone hplain⟩
    rw [Node.ReferWithin, Store.allBlockIndices_of_allPlain hplain]
    exact List.forall_mem_nil _
  have hsame := hbuild.adds.rulesOf hready.refer
  rw [compileTree, ensures_bind]
  refine ensures_lift.2 ?_
  rw [ensures_bind]
  refine (ensures_compiler_settles sc.expander (hready.adds hbuild.adds)).mono ?_ ?_
  · intro compiled t hcompiled
    obtain ⟨sc', selectors, hselectors, hheader, hsettle⟩ := hcompiled.settled
    obtain ⟨⟩ := hselectors
    have hsettled : Rule.Settled [] (s.rulesOf nodes) (t.rulesOf compiled.rules) :=
      hsame ▸ hsettle.settled
    have halike := hsettled.joinAlike hnormal hplain
    rw [hframes, List.isEmpty_nil, if_pos rfl, ensures_bind]
    refine ensures_lift.2 ?_
    have hnone := Store.allBlockIndices_of_allPlain halike.plain
    exact ensures_join_of_no_block hheader hnone ((halike.join []).trans hjoined)
  · intro e t hfail
    have hfilled := hnormal.allFilled hplain
    rw [← hsame] at hfilled
    exact hfail ⟨List.forall_mem_nil _, hfilled⟩

/-- Compiling a compiled document changes nothing. If what comes out of a style sheet has no import,
no media block and no selector with a hole, outside of mixin definitions, then compiling it once
more succeeds in every scope without frames and from every store, and gives a document that is
written and printed as the first one. -/
theorem compileTree_compiled {sc sc' : Scope} {nodes : List Node} {root : Ruleset} {s t : Store}
    (h : (compileTree sc nodes).run.run s = (.ok root, t))
    (hplain : Rule.allPlain (t.rulesOf root.rules) = true) (hframes : sc'.frames = [])
    (u : Store) :
    ∃ again v, (compileTree sc' root.rules).run.run u = (.ok again, v) ∧
      Rule.rulesetToJson again.header (v.rulesOf again.rules) =
        Rule.rulesetToJson root.header (t.rulesOf root.rules) ∧
      ∀ compact, v.css compact again = t.css compact root := by
  obtain ⟨hheader, hnormal, hjoined⟩ := (ensures_compileTree_normal sc nodes s).of_ok h
  -- There are no blocks in the document, so it reads the same in every store.
  have hsame : u.rulesOf root.rules = t.rulesOf root.rules := by
    rw [Store.rulesOf_eq_readAll, Store.rulesOf_eq_readAll]
    refine Node.readAll_congr root.rules ?_
    rw [Store.allBlockIndices_of_allPlain hplain]
    exact List.forall_mem_nil _
  rw [← hsame] at hnormal hplain hjoined
  obtain ⟨again, v, hrun, hagain, hrules⟩ :=
    (ensures_compileTree_of_normal hframes hnormal hplain hjoined).exists_ok
  refine ⟨again, v, hrun, ?_, fun compact => ?_⟩
  · rw [hagain, hheader, hrules, hsame]
  · rw [Store.css, Store.css, hagain, hheader, hrules, hsame]

/-- A mixin is called with an imported variable, in a ruleset whose selector has a hole, and brings
in a nested ruleset and an at-rule. The definition is still there when all is compiled again. -/
theorem compileTree_compiled_mixin_call :
    let selector (value : String) : Selector := { elements := [⟨.compound, value⟩] }
    let hover : Rule := .ruleset
      { selectors := [{ elements := [⟨.compound, "&"⟩, ⟨.compound, ":hover"⟩] }] }
      [.declaration { name := "color", value := .read "@c" }]
    let rules : List Rule := [
      .inclusion { path := "theme" },
      .definition { name := selector ".m", params := [{ name := "@c" }] }
        [hover, .directive { name := "@supports" } (some [.ruleset { selectors := [selector "b"] }
          [.declaration { name := "top", value := .read "0" }]])],
      .ruleset { selectors := [selector ".@\x7bname\x7d"] }
        [.call { selector := selector ".m", args := [.read "@main"] }]]
    let sources : Sources := [("theme", [.declaration { name := "@main", value := .read "red" },
      .declaration { name := "@name", value := .read "a" }])]
    let nodes := ((Node.ofRules rules).run 0).1
    ∃ root t again v,
      (compileTree { sources := some sources } nodes).run.run { nextSerial := 3 } = (.ok root, t) ∧
        Rule.allPlain (t.rulesOf root.rules) = true ∧
        t.css true root = ".a:hover\x7bcolor:red\x7d@supports\x7bb\x7btop:0\x7d\x7d" ∧
        (compileTree {} root.rules).run.run {} = (.ok again, v) ∧
        Rule.rulesetToJson again.header (v.rulesOf again.rules) =
          Rule.rulesetToJson root.header (t.rulesOf root.rules) ∧
        ∀ compact, v.css compact again = t.css compact root := by
  intro selector hover rules sources nodes
  have hresult : ((do
      let root ← compileTree { sources := some sources } nodes
      let t ← get
      return (Rule.allPlain (t.rulesOf root.rules), t.css true root) :
        CompileM (Bool × String)).run.run { nextSerial := 3 }).1.toOption =
      some (true, ".a:hover\x7bcolor:red\x7d@supports\x7bb\x7btop:0\x7d\x7d") := by
    decide +kernel
  cases hrun : (compileTree { sources := some sources } nodes).run.run { nextSerial := 3 } with
  | mk result t =>
    cases result with
    | error e =>
      rw [run_bind_error hrun] at hresult
      cases hresult
    | ok root =>
      rw [run_bind_ok hrun] at hresult
      obtain ⟨hplain, hcss⟩ := Prod.mk.inj (Option.some.inj hresult)
      have hframes : Scope.frames {} = [] := rfl
      obtain ⟨again, v, hagain⟩ := compileTree_compiled hrun hplain hframes {}
      exact ⟨root, t, again, v, rfl, hplain, hcss, hagain⟩

end Documents

end Stylesheet
