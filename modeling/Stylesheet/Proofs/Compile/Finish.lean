import Stylesheet.Proofs.Compile.Joining
import Stylesheet.Proofs.Compile.Parallel
import Stylesheet.Proofs.Node.Bare
import Stylesheet.Proofs.Path.WellFormed

/-!
# From a compiled document to its text

Once a document is compiled, its selectors are joined and it is printed. What comes of it
depends only on the bare rules of the document and of the blocks. An empty ruleset among
the rules makes no difference there: it can be joined, and prints nothing.
-/

namespace Stylesheet

/-- The block without numbers and mixin definitions. -/
def Block.bare (b : Block) : Block := { b with rules := Node.bareAll b.rules }

/-- Join the selectors of a document with the given rules and blocks, and print it. -/
def finish (compact : Bool) (rules : List Node) (blocks : List Block) : Except Error String := do
  let joined ← Node.joinAll [] rules
  let blocks ← Store.mapReachable { blocks } rules Block.join
  return Css.print compact Header.document (Store.rulesOf { blocks } joined)

variable {compact : Bool} {rules : List Node} {blocks : List Block}

section Blocks

theorem join_bareBlock (b : Block) : b.bare.join = b.join.map Block.bare := by
  rw [Block.join, Block.join, Block.bare, Node.joinAll_bareAll]
  cases Node.joinAll [] b.rules with
  | error e => rfl
  | ok joined => rfl

theorem reachable_bare (rules : List Node) (blocks : List Block) :
    Store.reachable { blocks := blocks.map Block.bare } (Node.bareAll rules) =
      Store.reachable { blocks } rules :=
  Store.reachable_congr (Node.allBlockIndices_bareAll rules) (List.forall₂_map_right_iff.2
    (List.forall₂_same.2 fun b _ => Node.allBlockIndices_bareAll b.rules))

theorem mapReachable_bare (rules : List Node) (blocks : List Block) :
    Store.mapReachable { blocks := blocks.map Block.bare } (Node.bareAll rules) Block.join =
      (Store.mapReachable { blocks } rules Block.join).map (List.map Block.bare) := by
  unfold Store.mapReachable
  rw [reachable_bare]
  dsimp only
  rw [List.zipIdx_map, List.mapM_map]
  refine mapM_eq_map_mapM (fun entry => ?_) _
  dsimp only [Function.comp_apply, Prod.map, id_eq]
  split
  · exact join_bareBlock entry.1
  · rfl

/-- The blocks written out, each of them with the ones before it. -/
theorem contents_bare (blocks : List Block) :
    Store.contents { blocks := blocks.map Block.bare } =
      (Store.contents { blocks }).map Node.bare ∧
        ∀ m ∈ Store.contents { blocks }, m.isDefinition = false := by
  unfold Store.contents
  dsimp only
  suffices h : ∀ nodes : List Node, (∀ m ∈ nodes, m.isDefinition = false) →
      (blocks.map Block.bare).foldl
          (fun nodes b => nodes ++ [.media b.head (Node.inlineAll nodes b.rules)])
          (nodes.map Node.bare) =
        (blocks.foldl (fun nodes b => nodes ++ [.media b.head (Node.inlineAll nodes b.rules)])
          nodes).map Node.bare ∧
      ∀ m ∈ blocks.foldl
          (fun nodes b => nodes ++ [.media b.head (Node.inlineAll nodes b.rules)]) nodes,
        m.isDefinition = false from h [] fun m hm => by cases hm
  induction blocks with
  | nil => exact fun nodes hnodes => ⟨rfl, hnodes⟩
  | cons b blocks ih =>
    intro nodes hnodes
    have hnext := ih (nodes ++ [.media b.head (Node.inlineAll nodes b.rules)])
      (List.forall_mem_append.2 ⟨hnodes, List.forall_mem_singleton.2 rfl⟩)
    rw [List.map_append, List.map_singleton, Node.bare,
      ← Node.inlineAll_bareAll hnodes] at hnext
    exact hnext

theorem pruneAll_rulesOf_bare (blocks : List Block) (nodes : List Node) :
    Rule.pruneAll compact (Store.rulesOf { blocks := blocks.map Block.bare } (Node.bareAll nodes)) =
      Rule.pruneAll compact (Store.rulesOf { blocks } nodes) := by
  obtain ⟨hcontents, hmedia⟩ := contents_bare blocks
  rw [Store.rulesOf, Store.rulesOf, hcontents, Node.inlineAll_bareAll hmedia,
    Node.pruneAll_toRules_bareAll]

end Blocks

/-- New numbers change nothing about bare blocks. -/
theorem bare_blocks_renew (r : Ruleset) (s : Store) :
    (r.renew.run s).2.blocks.map Block.bare = s.blocks.map Block.bare := by
  refine map_eq_map_of_forall₂ ((forall₂_blocks_renew r s).imp ?_)
  rintro b b' (rfl | ⟨next, rfl⟩)
  · rfl
  · exact congrArg (Block.mk b.head) (Node.bareAll_renewAll b.rules next)

/-- The text depends only on bare rules and blocks. -/
theorem finish_bare (rules : List Node) (blocks : List Block) :
    finish compact (Node.bareAll rules) (blocks.map Block.bare) = finish compact rules blocks := by
  rw [finish, finish, Node.joinAll_bareAll, mapReachable_bare]
  cases Node.joinAll [] rules with
  | error e => simp only [Except.map, error_bind]
  | ok joined =>
    cases Store.mapReachable { blocks } rules Block.join with
    | error e => simp only [Except.map, ok_bind, error_bind]
    | ok blocks =>
      simp only [Except.map, ok_bind]
      exact congrArg Except.ok (Css.print_eq_of_pruneAll_eq (pruneAll_rulesOf_bare blocks joined))

section EmptyRulesets

theorem joinAll_append (context : List Path) (l m : List Node) :
    Node.joinAll context (l ++ m) = (do
      let joined ← Node.joinAll context l
      return joined ++ (← Node.joinAll context m)) := by
  induction l with
  | nil =>
    rw [List.nil_append, Node.joinAll, ok_bind]
    cases Node.joinAll context m with
    | error e => rfl
    | ok joined => rfl
  | cons n l ih =>
    rw [List.cons_append, Node.joinAll, Node.joinAll, ih]
    cases Node.join context n with
    | error e => rfl
    | ok n' =>
      cases Node.joinAll context l with
      | error e => rfl
      | ok joined =>
        cases Node.joinAll context m with
        | error e => rfl
        | ok joined' => rfl

theorem allBlockIndices_append (l m : List Node) :
    Node.allBlockIndices (l ++ m) = Node.allBlockIndices l ++ Node.allBlockIndices m := by
  induction l with
  | nil => rfl
  | cons n l ih =>
    rw [List.cons_append, Node.allBlockIndices, Node.allBlockIndices, ih, List.append_assoc]

theorem rulesOf_append (s : Store) (l m : List Node) :
    s.rulesOf (l ++ m) = s.rulesOf l ++ s.rulesOf m := by
  unfold Store.rulesOf
  induction l with
  | nil => rfl
  | cons n l ih =>
    rw [List.cons_append, Node.inlineAll, Node.inlineAll, Node.toRules, Node.toRules, ih,
      List.cons_append]

/-- An empty ruleset in a document leaves no trace in its text. -/
theorem finish_insert_empty {before after : List Node} {r : Ruleset} (hrules : r.rules = [])
    (hheader : r.header.HasElements) :
    finish compact (before ++ .ruleset r :: after) blocks =
      finish compact (before ++ after) blocks := by
  obtain ⟨serial, source, header, rules⟩ := r
  obtain rfl : rules = [] := hrules
  have hnone : ∀ parent ∈ ([] : List Path), parent.WellFormed := fun parent hp => by cases hp
  obtain ⟨paths, inner, hpaths, -⟩ := Header.join_wellFormed hheader hnone
  have hjoin : Node.join [] (.ruleset ⟨serial, source, header, []⟩) =
      .ok (.ruleset ⟨serial, source, { header with paths }, []⟩) := by
    rw [Node.join, hpaths]
    rfl
  have hreachable : Store.mapReachable { blocks }
      (before ++ .ruleset ⟨serial, source, header, []⟩ :: after) Block.join =
        Store.mapReachable { blocks } (before ++ after) Block.join := by
    have hindices : Node.allBlockIndices (.ruleset ⟨serial, source, header, []⟩ :: after) =
        Node.allBlockIndices after := rfl
    unfold Store.mapReachable Store.reachable
    rw [allBlockIndices_append, allBlockIndices_append, hindices]
  rw [finish, finish, hreachable, joinAll_append, joinAll_append, Node.joinAll, hjoin, ok_bind]
  cases Node.joinAll [] before with
  | error e => simp only [error_bind]
  | ok joined =>
    cases Node.joinAll [] after with
    | error e => simp only [ok_bind, error_bind]
    | ok joined' =>
      cases Store.mapReachable { blocks } (before ++ after) Block.join with
      | error e => simp only [ok_bind, error_bind, pure_bind]
      | ok blocks =>
        simp only [ok_bind, pure_bind]
        have hinvisible (nodes : List Node) : Rule.pruneAll compact (Store.rulesOf { blocks }
            (.ruleset ⟨serial, source, { header with paths }, []⟩ :: nodes)) =
              Rule.pruneAll compact (Store.rulesOf { blocks } nodes) := by
          rw [Store.rulesOf, Node.inlineAll, Node.toRules, Rule.pruneAll]
          exact if_neg Bool.false_ne_true
        refine congrArg Except.ok (Css.print_eq_of_pruneAll_eq ?_)
        rw [rulesOf_append, rulesOf_append, Rule.pruneAll_append, Rule.pruneAll_append, hinvisible]

end EmptyRulesets

section Twins

variable {queries : Queries} {p : Pairing} {n n' : Node} {l m : List Node}

theorem Node.Twin.isDefinition_eq (h : n.Twin queries p n') :
    n'.isDefinition = n.isDefinition := by
  cases h <;> rfl

/-- Mixin definitions that only one of two lists has are of no account in bare nodes. -/
theorem Aligned.bareAll_eq {R : Node → Node → Prop} {spare : Node → Prop} (h : Aligned R spare l m)
    (hR : ∀ a b, R a b → b.isDefinition = a.isDefinition ∧ b.bare = a.bare)
    (hspare : ∀ a, spare a → a.isDefinition = true) : Node.bareAll m = Node.bareAll l := by
  induction h with
  | nil => rfl
  | both h _ ih =>
    obtain ⟨hdefinition, hbare⟩ := hR _ _ h
    rw [Node.bareAll, Node.bareAll, hdefinition, hbare, ih]
  | spare h _ ih => rw [ih, Node.bareAll_cons_definition (hspare _ h)]

theorem Node.Spare.isDefinition_eq {ledger : List (List Node)} (h : n.Spare queries ledger) :
    n.isDefinition = true := by
  obtain ⟨d, rfl, -⟩ := h.definition
  rfl

/-- Nodes that correspond have one bare node. -/
theorem Node.Twin.bare_eq (h : n.Twin queries p n') : n'.bare = n.bare := by
  induction h with
  | @ruleset r s R hR hrules hheader hserial hleft hright ih =>
    obtain ⟨serial, source, header, rules⟩ := r
    obtain ⟨serial', source', header', rules'⟩ := s
    obtain rfl : header' = header := hheader
    have hbare := hrules.bareAll_eq (fun a b h => ⟨(hR a b h).isDefinition_eq, ih a b h⟩)
      fun _ h => h.isDefinition_eq
    exact congrArg (fun rules => Node.ruleset ⟨0, none, header', rules⟩) hbare
  | @definition d e R hR hrules hsignature hclosure ih =>
    obtain ⟨signature, rules, closure⟩ := d
    obtain ⟨signature', rules', closure'⟩ := e
    obtain rfl : signature' = signature := hsignature
    rfl
  | @media head rules rules' R hR hrules ih =>
    exact congrArg (Node.media head)
      (hrules.bareAll_eq (fun a b h => ⟨(hR a b h).isDefinition_eq, ih a b h⟩)
        fun _ h => h.isDefinition_eq)
  | @directiveBlock head rules rules' R hR hrules ih =>
    exact congrArg (fun rules => Node.directive head (some rules))
      (hrules.bareAll_eq (fun a b h => ⟨(hR a b h).isDefinition_eq, ih a b h⟩)
        fun _ h => h.isDefinition_eq)
  | _ => rfl

theorem Node.TwinAll.bareAll_eq (h : Node.TwinAll queries p l m) :
    Node.bareAll m = Node.bareAll l :=
  Aligned.bareAll_eq h (fun _ _ h => ⟨h.isDefinition_eq, h.bare_eq⟩) fun _ h => h.isDefinition_eq

theorem map_bare_eq_of_twin {blocks blocks' : List Block}
    (h : List.Forall₂ (Block.Twin queries p) blocks blocks') :
    blocks'.map Block.bare = blocks.map Block.bare := by
  refine map_eq_map_of_forall₂ (h.imp fun b c hbc => ?_)
  rw [Block.bare, Block.bare, hbc.head, hbc.rules.bareAll_eq]

/-- Documents that correspond have one text. -/
theorem finish_eq_of_twin {blocks blocks' : List Block} (hrules : Node.TwinAll queries p l m)
    (hblocks : List.Forall₂ (Block.Twin queries p) blocks blocks') :
    finish compact m blocks' = finish compact l blocks := by
  rw [← finish_bare m, ← finish_bare l, hrules.bareAll_eq, map_bare_eq_of_twin hblocks]

end Twins

section Headers

variable {inside : Ruleset → Scope} {s : Store}

theorem ensures_expandCalls_header (expand : Expander) (frame : Ruleset) (done : List Slot)
    (nodes : List Node) (s : Store) :
    Ensures (expandCalls expand inside frame done nodes) s
      (fun result _ => result.1.header = frame.header) fun _ _ => True := by
  induction nodes generalizing frame done s with
  | nil => exact rfl
  | cons n nodes ih =>
    cases n with
    | call c =>
      rw [expandCalls, ensures_bind]
      refine ensures_of_forall (fun results t => ?_) fun _ _ => trivial
      exact ensures_bind.2 (ensures_lift.2 (ih _ _ _))
    | _ => exact ih _ _ _

theorem ensures_compileSlots_header (compile : NodeCompiler) (frame : Ruleset) (done : List Node)
    (slots : List Slot) (s : Store) :
    Ensures (compileSlots compile inside frame done slots) s
      (fun result _ => result.1.header = frame.header) fun _ _ => True := by
  induction slots generalizing frame done s with
  | nil => exact rfl
  | cons slot slots ih =>
    cases slot with
    | expanded n => exact ih _ _ _
    | own n =>
      by_cases hn : ∃ d, n = .definition d
      · obtain ⟨d, rfl⟩ := hn
        exact ih _ _ _
      · rw [compileSlots_own fun d hd => hn ⟨d, hd⟩, ensures_bind]
        refine ensures_of_forall (fun compiled t => ?_) fun _ _ => trivial
        cases compiled with
        | ruleset r => exact ensures_bind.2 (ensures_lift.2 (ih _ _ _))
        | _ => exact ih _ _ _

/-- Compiling fills in the selectors of a header, and leaves the rest of it as it is. -/
theorem ensures_compileWith_header (expand : Expander) (compile : Compiler) (sc : Scope)
    (r : Ruleset) (s : Store) :
    Ensures (Ruleset.compileWith expand compile sc r) s
      (fun compiled _ => ∃ selectors, r.header.selectors.mapM sc.selector = .ok selectors ∧
        compiled.header = { r.header with selectors, paths := [] })
      fun _ _ => True := by
  rw [Ruleset.compileWith_eq, Ruleset.compileBy, ensures_bind, ensures_ofExcept]
  refine ⟨fun selectors hselectors => ?_, fun _ _ => trivial⟩
  have hhome : ∀ t, Ensures (r.homeFrame sc selectors) t
      (fun home _ => home.header = { r.header with selectors, paths := [] }) fun _ _ => True := by
    intro t
    rw [Ruleset.homeFrame, ensures_bind, ensures_lift]
    split
    · exact ensures_bind.2 (ensures_of_forall (fun _ _ => rfl) fun _ _ => trivial)
    · exact rfl
  rw [ensures_bind, ensures_lift, ensures_bind]
  refine (hhome _).mono (fun home t hheader => ?_) fun _ _ h => h
  rw [ensures_bind, ensures_lift, Ruleset.fillFrame, ensures_bind, ensures_get, ensures_bind]
  refine (ensures_expandCalls_header _ _ _ _ _).mono (fun filled t hfilled => ?_) fun _ _ h => h
  rw [ensures_bind]
  refine (ensures_compileSlots_header _ _ _ _ _).mono (fun last t hlast => ?_) fun _ _ h => h
  rw [ensures_bind, ensures_lift, ensures_lift]
  exact ⟨selectors, hselectors, (hlast.trans hfilled).trans hheader⟩

theorem ensures_compiler_header (expand : Expander) (sc : Scope) (r : Ruleset) (s : Store) :
    Ensures (expand.compiler sc r) s
      (fun compiled _ => ∃ selectors, r.header.selectors.mapM sc.selector = .ok selectors ∧
        compiled.header = { r.header with selectors, paths := [] })
      fun _ _ => True := by
  rw [Expander.compiler, ensures_bind, ensures_get]
  cases sc.levels s r.rules with
  | zero => exact trivial
  | succ levels => exact ensures_compileWith_header expand _ sc r s

/-- The header of a document stays as it is. -/
theorem header_compile_document {sc : Scope} {r compiled : Ruleset} {s t : Store}
    (hheader : r.header = Header.document) (h : (r.compile sc).run.run s = (.ok compiled, t)) :
    compiled.header = Header.document := by
  obtain ⟨selectors, hselectors, hcompiled⟩ :=
    (ensures_compiler_header sc.expander sc r s).of_ok h
  rw [hheader] at hselectors hcompiled
  obtain rfl : [] = selectors := Except.ok.inj hselectors
  exact hcompiled

end Headers

/-- What becomes of a compiled document. -/
theorem run_join_css {r : Ruleset} (hheader : r.header = Header.document) (s : Store) :
    ((do
      record .joining
      let joined ← r.join
      return (← get).css compact joined : CompileM String).run.run s).1 =
        finish compact r.rules s.blocks := by
  have hblocks : (r.renew.run ((record .joining).run s).2).2.blocks.map Block.bare =
      s.blocks.map Block.bare := bare_blocks_renew r _
  have hrules : Node.bareAll (r.renew.run ((record .joining).run s).2).1.rules =
      Node.bareAll r.rules := Node.bareAll_renewAll r.rules _
  have hrenewed : (r.renew.run ((record .joining).run s).2).1.header = Header.document := hheader
  have hdocument : ofExcept (Header.join [] Header.document) = (pure ([], []) : CompileM _) := rfl
  rw [← finish_bare, ← hblocks, ← hrules, finish_bare, run_bind_lift, Ruleset.join, bind_assoc,
    run_bind_lift]
  generalize (r.renew.run ((record .joining).run s).2).1 = renewed at hrenewed ⊢
  generalize (r.renew.run ((record .joining).run s).2).2 = t
  rw [hrenewed, hdocument, pure_bind, finish]
  cases hjoined : Node.joinAll [] renewed.rules with
  | error e =>
    dsimp only
    rw [hjoined]
    rfl
  | ok joined =>
    dsimp only
    rw [hjoined, ok_bind]
    have hok : (ofExcept (.ok joined) : CompileM _).run.run t = (.ok joined, t) := rfl
    have hget : (get : CompileM Store).run.run t = (.ok t, t) := rfl
    rw [bind_assoc, run_bind_ok hok, bind_assoc, run_bind_ok hget, bind_assoc]
    cases hreached : Store.mapReachable { blocks := t.blocks } renewed.rules Block.join with
    | error e =>
      have hrun : (ofExcept (t.mapReachable renewed.rules Block.join) : CompileM _).run.run t =
          (.error e, t) := congrArg (fun x => (ofExcept x : CompileM _).run.run t) hreached
      rw [run_bind_error hrun]
      rfl
    | ok blocks =>
      have hrun : (ofExcept (t.mapReachable renewed.rules Block.join) : CompileM _).run.run t =
          (.ok blocks, t) := congrArg (fun x => (ofExcept x : CompileM _).run.run t) hreached
      rw [run_bind_ok hrun]
      rfl

end Stylesheet
