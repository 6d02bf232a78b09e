import Stylesheet.Proofs.Compile.Parallel
import Stylesheet.Proofs.Compile.Rounds

/-!
# Rulesets that correspond compile alike

Each function of the compiler is followed in two compilations at once. In scopes that
show the same, rulesets that correspond compile to rulesets that correspond, or fail with
one error.
-/

namespace Stylesheet

variable {queries : Queries} {p q : Pairing} {sc sc' : Scope} {f g : Ruleset}

section Scopes

/-- The scopes show the same. The calls in the sources are among the given queries. -/
structure Scope.Twin (queries : Queries) (p : Pairing) (sc sc' : Scope) : Prop where
  frames : List.Forall₂ (Ruleset.TwinFrames queries p) sc.frames sc'.frames
  pending : sc'.pending = sc.pending
  importing : sc'.importing = sc.importing
  depth : sc'.depth = sc.depth
  options : sc'.options = sc.options
  sources : sc'.sources = sc.sources
  calls : ∀ table, sc.sources = some table → ∀ entry ∈ table,
    ∀ c ∈ Rule.allCalls entry.2, queries.Has c.selector

namespace Scope.Twin

theorem grow (h : sc.Twin queries p sc') (hle : p ≤ q) : sc.Twin queries q sc' where
  frames := h.frames.imp fun _ _ h => h.grow hle
  pending := h.pending
  importing := h.importing
  depth := h.depth
  options := h.options
  sources := h.sources
  calls := h.calls

theorem enter (h : sc.Twin queries p sc') (hframe : f.TwinFrames queries p g)
    (selectors : List Selector) :
    (sc.enter f selectors).Twin queries p (sc'.enter g selectors) where
  frames := .cons hframe h.frames
  pending := h.pending
  importing := h.importing
  depth := h.depth
  options := h.options
  sources := h.sources
  calls := h.calls

theorem binding?_eq (h : sc.Twin queries p sc') (name : String) :
    sc'.binding? name = sc.binding? name := by
  have hframes := h.frames
  unfold Scope.binding?
  generalize sc.frames = frames at hframes ⊢
  generalize sc'.frames = frames' at hframes ⊢
  induction hframes with
  | nil => rfl
  | cons hframe _ ih => rw [List.findSome?_cons, List.findSome?_cons, hframe.binding? name, ih]

theorem lookup_eq (h : sc.Twin queries p sc') (span : Span) : sc'.lookup span = sc.lookup span :=
  Scope.lookup_congr h.binding?_eq h.pending span

theorem value_eq (h : sc.Twin queries p sc') (v : Value) (span : Span) :
    sc'.value v span = sc.value v span :=
  Scope.value_congr h.binding?_eq h.pending v span

theorem selector_eq (h : sc.Twin queries p sc') : sc'.selector = sc.selector := by
  have helement : sc'.element = sc.element := by
    funext e
    rw [Scope.element, Scope.element, Scope.interpolate, Scope.interpolate, h.lookup_eq]
  funext s
  rw [Scope.selector, Scope.selector, helement]

theorem declaration_eq (h : sc.Twin queries p sc') (d : Declaration) :
    sc'.declaration d = sc.declaration d := by
  rw [Scope.declaration, Scope.declaration, h.value_eq]

/-- A ruleset is being compiled on one side if the one that corresponds to it is on the other. The
number of a frame is never that of a ruleset, and partners are told apart on both sides. -/
theorem isCompiling_eq (h : sc.Twin queries p sc') {r r' : Ruleset}
    (hserial : (r.serial, r'.serial) ∈ p.twins) : sc'.isCompiling r' = sc.isCompiling r := by
  have hframes := h.frames
  unfold Scope.isCompiling
  generalize sc.frames = frames at hframes ⊢
  generalize sc'.frames = frames' at hframes ⊢
  induction hframes with
  | nil => rfl
  | @cons f g _ _ hframe _ ih =>
    rw [List.any_cons, List.any_cons, ih]
    congr 1
    obtain ⟨hf, hg⟩ := hframe.single _ hserial
    have hsource : (g.source == some r'.serial) = (f.source == some r.serial) := by
      have hrel := hframe.source
      generalize f.source = a at hrel ⊢
      generalize g.source = b at hrel ⊢
      cases hrel with
      | none => rfl
      | some hpair => simpa using (p.eq_iff_eq _ hpair _ hserial).symm
    rw [hsource, beq_false_of_ne (Ne.symm hf), beq_false_of_ne (Ne.symm hg)]

end Scope.Twin

end Scopes

section Lookups

/-- Frames that show the same have candidates that correspond. -/
theorem optionRel_searchFrames {frames frames' : List Ruleset} {query : Selector}
    (h : List.Forall₂ (Ruleset.TwinFrames queries p) frames frames')
    (hquery : queries.Has query) :
    Option.Rel (List.Forall₂ (Candidate.Twin queries p)) (searchFrames query frames)
      (searchFrames query frames') := by
  induction h with
  | nil => exact .none
  | @cons f g _ _ hframe _ ih =>
    have hfound : List.Forall₂ (Candidate.Twin queries p) (Node.searchAll query f.rules)
        (Node.searchAll query g.rules) := hframe.seen.search query hquery
    rw [searchFrames, searchFrames, isEmpty_eq_of_forall₂ hfound]
    split
    · exact ih
    · exact .some hfound

/-- Lookups of one query in scopes that show the same find candidates that correspond. -/
theorem inStep_mixin (hsc : sc.Twin queries p sc') {query : Selector}
    (hquery : queries.Has query) :
    InStep queries p (sc.mixin query) (sc'.mixin query) fun q =>
      Option.Rel (List.Forall₂ (Candidate.Twin queries q)) := by
  intro s t hst
  have hframes : ∀ frame ∈ sc.frames, frame.Filed (p.left[·]?) ∧
      ∀ n ∈ frame.rules, n.Each (Ruleset.Filed (p.left[·]?)) := by
    intro frame hframe
    obtain ⟨g, -, hg⟩ := exists_of_mem_left hsc.frames hframe
    exact ⟨hg.left, hg.seen.left⟩
  have hframes' : ∀ frame ∈ sc'.frames, frame.Filed (p.right[·]?) ∧
      ∀ n ∈ frame.rules, n.Each (Ruleset.Filed (p.right[·]?)) := by
    intro frame hframe
    obtain ⟨f, -, hf⟩ := exists_of_mem_right hsc.frames hframe
    exact ⟨hf.right, hf.seen.right⟩
  obtain ⟨hfound, hkept⟩ :=
    run_findInFrames (queries.isQuery hquery) hframes hst.remembersLeft
  obtain ⟨hfound', hkept'⟩ :=
    run_findInFrames (queries.isQuery hquery) hframes' hst.remembersRight
  have hlearns := learns_mixin sc query s
  have hlearns' := learns_mixin sc' query t
  refine ⟨p, le_rfl, ⟨hlearns.nextSerial.trans hst.left, hlearns'.nextSerial.trans hst.right,
    ?_, ?_, hkept, hkept'⟩, ?_⟩
  · rw [hlearns.blocks, hlearns'.blocks]
    exact hst.blocks
  · rw [hlearns.imported, hlearns'.imported, hst.imported]
  · rw [Scope.mixin, Scope.mixin, hfound, hfound']
    exact optionRel_searchFrames hsc.frames hquery

namespace Candidate.Twin

variable {c c' : Candidate}

theorem selectors_eq (h : c.Twin queries p c') : c'.selectors = c.selectors := by
  rcases h.cases with ⟨r, s, rfl, rfl, hr⟩ | ⟨d, e, rfl, rfl, hd⟩
  · exact congrArg Header.selectors hr.header
  · exact congrArg (fun s : Signature => [s.name]) hd.signature

theorem params_eq (h : c.Twin queries p c') : c'.params = c.params := by
  rcases h.cases with ⟨r, s, rfl, rfl, hr⟩ | ⟨d, e, rfl, rfl, hd⟩
  · rfl
  · exact congrArg Signature.params hd.signature

theorem rules (h : c.Twin queries p c') : Node.TwinAll queries p c.rules c'.rules := by
  rcases h.cases with ⟨r, s, rfl, rfl, hr⟩ | ⟨d, e, rfl, rfl, hd⟩
  · exact hr.rules
  · exact hd.rules

theorem closure (h : c.Twin queries p c') :
    List.Forall₂ (Ruleset.TwinFrames queries p) c.closure c'.closure := by
  rcases h.cases with ⟨r, s, rfl, rfl, -⟩ |
    ⟨⟨_, _, closure⟩, ⟨_, _, closure'⟩, rfl, rfl, hd⟩
  · exact .nil
  · have hclosure : Option.Rel (List.Forall₂ (Ruleset.TwinFrames queries p)) closure closure' :=
      hd.closure
    cases hclosure with
    | none => exact .nil
    | some hframes => exact hframes

theorem bindings_eq (h : c.Twin queries p c') (hsc : sc.Twin queries p sc') (span : Span)
    (args : List Value) : c'.bindings sc' span args = c.bindings sc span args := by
  have hparams : ∀ params rest, c'.bindParams sc' span args params rest =
      c.bindParams sc span args params rest := by
    intro params
    induction params with
    | nil => exact fun _ => rfl
    | cons param params ih =>
      rintro (_ | ⟨arg, rest⟩)
      · rw [Candidate.bindParams, Candidate.bindParams, Candidate.name, Candidate.name,
          h.selectors_eq]
        simp only [hsc.value_eq, ih]
      · rw [Candidate.bindParams, Candidate.bindParams, ih]
  rw [Candidate.bindings, Candidate.bindings, hparams, h.params_eq]

theorem isEligible_eq (h : c.Twin queries p c') (hsc : sc.Twin queries p sc') (arity : Nat) :
    sc.isEligible arity c = sc'.isEligible arity c' := by
  have haccepts : c'.accepts arity = c.accepts arity := by
    rw [Candidate.accepts, Candidate.accepts, h.params_eq]
  unfold Scope.isEligible
  rw [haccepts]
  congr 1
  rcases h.cases with ⟨r, s, rfl, rfl, hr⟩ | ⟨d, e, rfl, rfl, -⟩
  · exact congrArg (!·) (hsc.isCompiling_eq hr.serial).symm
  · rfl

end Candidate.Twin

end Lookups

/-- Rulesets that correspond are compiled alike in scopes that show the same. -/
def Compiler.Parallel (queries : Queries) (compile compile' : Compiler) : Prop :=
  ∀ p sc sc' r r', sc.Twin queries p sc' → r.Twin queries p r' →
    Stylesheet.Parallel queries p (compile sc r) (compile' sc' r') (Ruleset.Twin queries)

/-- Candidates that correspond are expanded alike in scopes that show the same. -/
def Expander.Parallel (queries : Queries) (expand expand' : Expander) : Prop :=
  ∀ p sc sc' call args c c', sc.Twin queries p sc' → c.Twin queries p c' →
    Stylesheet.Parallel queries p (expand sc call args c) (expand' sc' call args c')
      (Node.TwinAll queries)

section Expansions

variable {compile compile' : Compiler} {expand expand' : Expander} {nodes nodes' : List Node}

theorem parallel_expandAll {z w : Candidate → CompileM (List Node)}
    {candidates candidates' : List Candidate}
    (h : List.Forall₂ (Candidate.Twin queries p) candidates candidates')
    (hz : ∀ q c c', p ≤ q → c.Twin queries q c' →
      Parallel queries q (z c) (w c') (Node.TwinAll queries)) :
    Parallel queries p (expandAll z candidates) (expandAll w candidates')
      (Node.TwinAll queries) := by
  induction candidates generalizing p candidates' with
  | nil =>
    cases h
    exact .pure .nil
  | cons c candidates ih =>
    cases h with
    | cons hc hrest =>
      refine (hz p _ _ le_rfl hc).bind fun q l m hle hl => ?_
      refine (ih (hrest.imp fun _ _ h => h.grow hle) fun r c c' hr => hz r c c' (hle.trans hr)).bind
        fun r l' m' hle' hl' => .pure ?_
      exact (hl.grow hle').append hl'

/-- The candidates that a call expands correspond. -/
theorem forall₂_eligible (hsc : sc.Twin queries p sc') {candidates candidates' : List Candidate}
    (h : List.Forall₂ (Candidate.Twin queries p) candidates candidates') (arity : Nat) :
    List.Forall₂ (Candidate.Twin queries p) (candidates.filter (sc.isEligible arity))
      (candidates'.filter (sc'.isEligible arity)) := by
  refine List.rel_filter ?_ h
  intro c c' hc
  dsimp only
  rw [hc.isEligible_eq hsc]

theorem parallel_call (hexpand : expand.Parallel queries expand') (hsc : sc.Twin queries p sc')
    {call : MixinCall} (hcall : queries.Has call.selector) :
    Parallel queries p (call.compileWith expand sc) (call.compileWith expand' sc')
      (Node.TwinAll queries) := by
  have hargs : (call.args.mapM fun arg => sc'.value arg call.span) =
      call.args.mapM fun arg => sc.value arg call.span := by simp only [hsc.value_eq]
  refine (Parallel.of_except hargs).bind ?_
  rintro q _ args hle rfl
  refine (Parallel.lift (inStep_mixin (hsc.grow hle) hcall)).bind
    fun r found found' hle' hfound => ?_
  cases hfound with
  | none => exact .throw _
  | @some candidates candidates' hcandidates =>
    have hsc' := hsc.grow (hle.trans hle')
    have heligible := forall₂_eligible hsc' hcandidates args.length
    dsimp only
    rw [isEmpty_eq_of_forall₂ heligible]
    split
    · exact .throw _
    · refine (parallel_expandAll heligible fun t c c' ht hc =>
        hexpand t sc sc' call args c c' (hsc'.grow ht) hc).bind fun t l m _ hl => ?_
      exact (Parallel.lift (.record _ _)).bind fun u _ _ hu _ => .pure (hl.grow hu)

/-- Blocks that correspond still do after they were marked as important. -/
theorem inStep_markBlock {b c : Block} (h : b.Twin queries p c) :
    InStep queries p b.markImportant c.markImportant (Block.Twin queries) := by
  have hnumbers := Aligned.renew h.rules (fun _ _ h => h.renewed) p le_rfl
  have hrenewed : InStep queries p b.renew c.renew fun q b c => Block.Twin queries q
      { b with rules := Node.markAllImportant b.rules }
      { c with rules := Node.markAllImportant c.rules } :=
    InStep.bind (.numbering hnumbers (Node.le_next_renewAll _) (Node.le_next_renewAll _))
      fun q l m _ hl => .pure ⟨h.head, hl⟩
  exact hrenewed.bind fun q b' c' _ h => .pure h

/-- What an expansion leaves still corresponds after it was marked as important. -/
theorem inStep_markImportant (first : Nat) (h : Node.TwinAll queries p nodes nodes') :
    InStep queries p (markImportant first nodes) (markImportant first nodes')
      (Node.TwinAll queries) := by
  have hnumbers := Aligned.renew h (fun _ _ h => h.renewed) p le_rfl
  refine InStep.bind (.numbering hnumbers (Node.le_next_renewAll _)
    (Node.le_next_renewAll _)) fun q l m _ hl => ?_
  refine .get fun s t hst => ?_
  refine (InStep.mapBlocks (List.forall₂_drop first hst.blocks) fun r b c hb =>
    inStep_markBlock hb).bind fun r blocks blocks' hle' hblocks => ?_
  refine (InStep.modifyStore fun s t hst => hst.withBlocks ?_).bind fun u _ _ hu _ =>
    .pure (hl.grow (hle'.trans hu))
  exact List.rel_append (List.forall₂_take first hst.blocks) hblocks

/-- The scopes in which the rules of candidates are expanded show the same. -/
theorem Scope.Twin.inBody (h : sc.Twin queries p sc') {c c' : Candidate}
    (hc : c.Twin queries p c') (hparams : f.TwinFrames queries p g) :
    (sc.inBody f c).Twin queries p (sc'.inBody g c') where
  frames := .cons hparams (List.rel_append hc.closure h.frames)
  pending := h.pending
  importing := h.importing
  depth := congrArg (· + 1) h.depth
  options := h.options
  sources := h.sources
  calls := h.calls

/-- Declarations are the same on both sides. -/
theorem twinAll_declarations (p : Pairing) (ds : List Declaration) :
    Node.TwinAll queries p (ds.map .declaration) (ds.map .declaration) := by
  induction ds with
  | nil => exact .nil
  | cons d ds ih => exact .both (.declaration d) ih

theorem parallel_ofCompiler (hcompile : compile.Parallel queries compile') :
    (Expander.ofCompiler compile).Parallel queries (Expander.ofCompiler compile') := by
  intro p sc sc' call args c c' hsc hc
  refine (Parallel.lift (.record _ _)).bind fun q _ _ hq _ => ?_
  refine (Parallel.of_except (hc.bindings_eq hsc call.span args)).bind ?_
  rintro r _ bindings hr rfl
  refine (Parallel.lift (.frame (twinAll_declarations r bindings).seen .none)).bind ?_
  rintro t params params' ht ⟨hparams, -⟩
  have hc' := hc.grow ((hq.trans hr).trans ht)
  refine (Parallel.lift (.ruleset hc'.rules none none)).bind fun u body body' hu hbody => ?_
  refine .get fun s s' hs => ?_
  have hsc' := hsc.grow (((hq.trans hr).trans ht).trans hu)
  refine (hcompile u (sc.inBody params c) (sc'.inBody params' c') body body'
    (hsc'.inBody (hc'.grow hu) (hparams.grow hu)) hbody).bind fun v compiled compiled' _ h => ?_
  rw [hs.length_eq]
  split
  · exact .lift (inStep_markImportant _ h.rules)
  · exact .pure h.rules

theorem parallel_guarded (hcompile : compile.Parallel queries compile') :
    (Expander.guarded compile).Parallel queries (Expander.guarded compile') := by
  intro p sc sc' call args c c' hsc hc
  rw [Expander.guarded, Expander.guarded, hsc.depth, hsc.options]
  split
  · exact parallel_ofCompiler hcompile p sc sc' call args c c' hsc hc
  · rw [Expander.refuse, Expander.refuse, hsc.options]
    exact .throw _

end Expansions

section Imports

variable {nodes nodes' : List Node}

theorem parallel_replaceImports {replace replace' : Import → CompileM (List Node)}
    (hreplace : ∀ q i, p ≤ q → Parallel queries q (replace i) (replace' i) (Node.TwinAll queries))
    (h : Node.TwinAll queries p nodes nodes') :
    Parallel queries p (replaceImports replace nodes) (replaceImports replace' nodes')
      (Node.TwinAll queries) := by
  induction nodes generalizing p nodes' with
  | nil =>
    cases h
    exact .pure .nil
  | cons n nodes ih =>
    have hlater : ∀ q, p ≤ q → ∀ r i, q ≤ r →
        Parallel queries r (replace i) (replace' i) (Node.TwinAll queries) :=
      fun q hq r i hr => hreplace r i (hq.trans hr)
    cases h with
    | @both _ n' _ nodes' hn hrest =>
      have hkept : Parallel queries p (do return n :: (← replaceImports replace nodes))
          (do return n' :: (← replaceImports replace' nodes')) (Node.TwinAll queries) :=
        (ih hreplace hrest).bind fun q l m hle hl => .pure (.both (hn.grow hle) hl)
      cases hn with
      | inclusion i =>
        refine (hreplace p i le_rfl).bind fun q l m hle hl => ?_
        refine (ih (hlater q hle) (Node.TwinAll.grow hrest hle)).bind fun r l' m' hle' hl' => ?_
        exact .pure ((hl.grow hle').append hl')
      | _ => exact hkept
    | spare hn hrest =>
      obtain ⟨d, rfl, -⟩ := hn.definition
      exact (ih hreplace hrest).mapLeft fun q l m hle hl => .spare (hn.grow hle.left) hl

/-- A source is handed out on both sides or on none. -/
theorem inStep_load {path : String} {rules : List Rule}
    (hcalls : ∀ c ∈ Rule.allCalls rules, queries.Has c.selector) :
    InStep queries p (load path rules) (load path rules) fun q =>
      Option.Rel (Node.TwinAll queries q) := by
  refine .get fun s t hst => ?_
  rw [hst.imported]
  split
  · exact (InStep.record _ _).bind fun q _ _ _ _ => .pure .none
  · refine (InStep.modifyStore ?_).bind fun q _ _ _ _ => ?_
    · intro s t hst
      exact ⟨hst.left, hst.right, hst.blocks, congrArg (path :: ·) hst.imported,
        hst.remembersLeft, hst.remembersRight⟩
    · refine (InStep.numbering (Node.twin_ofRules rules hcalls q) (Node.le_next_ofRules rules)
        (Node.le_next_ofRules rules)).bind fun r l m _ hl => ?_
      exact (InStep.record _ _).bind fun u _ _ hle _ => .pure (.some (hl.grow hle))

theorem Scope.Twin.importingPath (h : sc.Twin queries p sc') (path : String) :
    Scope.Twin queries p { sc with importing := path :: sc.importing }
      { sc' with importing := path :: sc'.importing } where
  frames := h.frames
  pending := h.pending
  importing := congrArg (path :: ·) h.importing
  depth := h.depth
  options := h.options
  sources := h.sources
  calls := h.calls

theorem parallel_importCompile (hsc : sc.Twin queries p sc') (i : Import) :
    Parallel queries p (i.compile sc) (i.compile sc') (Node.TwinAll queries) := by
  have hkept : ∀ (p : Pairing) (i : Import),
      Node.TwinAll queries p [.inclusion i] [.inclusion i] :=
    fun p i => .both (.inclusion i) .nil
  induction sc, i using Import.compile.induct generalizing sc' p with
  | case1 sc i hcss =>
    rw [Import.compile_of_css hcss, Import.compile_of_css hcss]
    exact .pure (hkept p i)
  | case2 sc i hcss hi =>
    rw [Import.compile_of_importing hcss hi,
      Import.compile_of_importing hcss (hsc.importing ▸ hi)]
    exact .throw _
  | case3 sc i hcss hi hs =>
    rw [Import.compile_of_no_sources hcss hi hs,
      Import.compile_of_no_sources hcss (hsc.importing ▸ hi) (hsc.sources.trans hs)]
    exact .pure (hkept p i)
  | case4 sc i hcss hi sources hs hlookup =>
    rw [Import.compile_of_not_found hcss hi hs hlookup,
      Import.compile_of_not_found hcss (hsc.importing ▸ hi) (hsc.sources.trans hs) hlookup]
    exact .throw _
  | case5 sc i hcss hi sources hs rules hlookup ih =>
    rw [Import.compile_of_found hcss hi hs hlookup,
      Import.compile_of_found hcss (hsc.importing ▸ hi) (hsc.sources.trans hs) hlookup]
    have hmem : (i.path, rules) ∈ sources := by
      obtain ⟨before, after, rfl, -⟩ := List.lookup_eq_some_iff.1 hlookup
      simp
    refine (Parallel.lift (inStep_load (hsc.calls sources hs _ hmem))).bind
      fun q found found' hle hfound => ?_
    cases hfound with
    | none => exact .pure .nil
    | some hnodes =>
      exact parallel_replaceImports
        (fun r j hr => ih j ((hsc.grow (hle.trans hr)).importingPath i.path)) hnodes

end Imports

section Calls

variable {expand expand' : Expander} {nodes nodes' tail tail' : List Node}

/-- The slots are of one kind, and their nodes correspond. -/
inductive Slot.Twin (queries : Queries) (p : Pairing) : Slot → Slot → Prop
  | expanded {n n' : Node} (h : n.Twin queries p n') : Twin queries p (.expanded n) (.expanded n')
  | own {n n' : Node} (h : n.Twin queries p n') : Twin queries p (.own n) (.own n')

/-- The slots correspond, up to mixin definitions that no query finds. -/
def Slot.TwinAll (queries : Queries) (p : Pairing) : List Slot → List Slot → Prop :=
  Aligned (Slot.Twin queries p) fun slot => slot.node.Spare queries p.left

theorem Slot.TwinAll.grow {slots slots' : List Slot} (h : Slot.TwinAll queries p slots slots')
    (hle : p ≤ q) : Slot.TwinAll queries q slots slots' := by
  refine Aligned.mono h ?_ fun _ hn => hn.grow hle.left
  rintro _ _ (⟨hn⟩ | ⟨hn⟩)
  · exact .expanded (hn.grow hle)
  · exact .own (hn.grow hle)

theorem Slot.TwinAll.map_node {slots slots' : List Slot} (h : Slot.TwinAll queries p slots slots') :
    Node.TwinAll queries p (slots.map Slot.node) (slots'.map Slot.node) := by
  refine Aligned.map h ?_ fun _ hn => hn
  rintro _ _ (⟨hn⟩ | ⟨hn⟩)
  · exact hn
  · exact hn

theorem Slot.seen_nil (p : Pairing) :
    Seen queries p (([] : List Slot).map Slot.node) (([] : List Slot).map Slot.node) :=
  Node.TwinAll.seen .nil

theorem twinAll_expanded (h : Node.TwinAll queries p nodes nodes') :
    Slot.TwinAll queries p (nodes.map .expanded) (nodes'.map .expanded) :=
  Aligned.map h (fun _ _ hn => .expanded hn) fun _ hn => hn

/-- Whether the node declares no variable, or one whose value refers to no other. -/
def Node.isSteady : Node → Bool
  | .declaration d => !d.isVariable || d.value.isResolved
  | _ => true

/-- Whether a frame still shows what becomes of the rules after one more slot: a ruleset goes back
into the frame with all that was compiled before it, and a variable whose value is only known once
it is compiled does not. -/
def Slot.refresh (fresh : Bool) : Slot → Bool
  | .own (.ruleset _) => true
  | .own n => fresh && n.isSteady
  | .expanded _ => fresh

theorem foldl_refresh_expanded (nodes : List Node) (fresh : Bool) :
    (nodes.map Slot.expanded).foldl Slot.refresh fresh = fresh := by
  induction nodes with
  | nil => rfl
  | cons n nodes ih => exact ih

theorem admits_eq {n n' : Node} (hframe : f.TwinFrames queries p g) (hn : n.Twin queries p n') :
    f.admits n = g.admits n' := by
  cases hn with
  | declaration d => rw [Ruleset.admits, Ruleset.admits, hframe.binding?]
  | _ => rfl

/-- Replacing calls keeps frames and slots in correspondence, whatever nodes follow. -/
theorem parallel_expandCalls (hexpand : expand.Parallel queries expand')
    {inside inside' : Ruleset → Scope}
    (hinside : ∀ q f g, p ≤ q → f.TwinFrames queries q g →
      (inside f).Twin queries q (inside' g))
    (hnodes : Node.TwinAll queries p nodes nodes')
    (htail : Seen queries p tail tail')
    (hframe : f.TwinFrames queries p g) {done done' : List Slot}
    (hdone : Seen queries p (done.map Slot.node) (done'.map Slot.node))
    {post : Pairing → Ruleset × List Slot → Ruleset × List Slot → Prop}
    (hpost : ∀ q f' g' slots slots', p ≤ q → f'.TwinFrames queries q g' →
      f'.header = f.header → Slot.TwinAll queries q slots slots' →
      (∀ fresh, slots.foldl Slot.refresh fresh =
        (nodes.map Slot.own).foldl Slot.refresh fresh) →
      Parallel queries q (expandCalls expand inside f' (done ++ slots) tail)
        (expandCalls expand' inside' g' (done' ++ slots') tail') post) :
    Parallel queries p (expandCalls expand inside f done (nodes ++ tail))
      (expandCalls expand' inside' g done' (nodes' ++ tail')) post := by
  induction nodes generalizing p f g nodes' done done' with
  | nil =>
    cases hnodes
    have h := hpost p f g [] [] le_rfl hframe rfl .nil fun _ => rfl
    rwa [List.append_nil, List.append_nil] at h
  | cons n nodes ih =>
    cases hnodes with
    | spare hn hrest =>
      obtain ⟨d, rfl, -⟩ := hn.definition
      have hseen : Seen queries p [.definition d] [] :=
        Node.TwinAll.seen (.spare hn .nil)
      have hdone' : Seen queries p
          ((done ++ [Slot.own (.definition d)]).map Slot.node) (done'.map Slot.node) := by
        rw [List.map_append, ← List.append_nil (done'.map Slot.node)]
        exact hdone.append hseen
      refine ih hinside hrest htail hframe hdone' ?_
      intro q f' g' slots slots' hle hf' hheader hslots hfresh
      rw [List.append_assoc]
      exact hpost q f' g' _ slots' hle hf' hheader (.spare (hn.grow hle.left) hslots)
        fun fresh => hfresh _
    | @both _ n' _ nodes' hn hrest =>
      by_cases hcall : ∃ c, n = .call c
      · obtain ⟨c, rfl⟩ := hcall
        cases hn with
        | call hc =>
          refine (parallel_call hexpand (hinside p f g le_rfl hframe) hc).bind
            fun q results results' hle hresults => ?_
          have hkept : Node.TwinAll queries q (results.filter f.admits)
              (results'.filter g.admits) :=
            hresults.filter fun a b h => admits_eq (hframe.grow hle) h
          have hdone' : Seen queries q (done.map Slot.node ++ results.filter f.admits)
              (done'.map Slot.node ++ results'.filter g.admits) :=
            (hdone.grow hle).append hkept.seen
          have hrules := hdone'.append
            ((Node.TwinAll.grow hrest hle).seen.append (htail.grow hle))
          refine (Parallel.lift (.rebuild (hframe.grow hle) hrules)).bind ?_
          rintro r f' g' hle' ⟨hf', hheader, -, -⟩
          have hr := hle.trans hle'
          refine ih (fun t f g ht => hinside t f g (hr.trans ht)) (Node.TwinAll.grow hrest hr)
            (htail.grow hr) hf' ?_ ?_
          · rw [map_node_append_expanded, map_node_append_expanded]
            exact hdone'.grow hle'
          · intro t f'' g'' slots slots' ht hf'' hheader' hslots hfresh
            rw [List.append_assoc, List.append_assoc]
            refine hpost t f'' g'' _ _ (hr.trans ht) hf'' (hheader'.trans hheader)
              ((twinAll_expanded (hkept.grow (hle'.trans ht))).append hslots) fun fresh => ?_
            have hsame : Slot.refresh fresh (.own (.call c)) = fresh := Bool.and_true fresh
            rw [List.foldl_append, foldl_refresh_expanded, hfresh, List.map_cons, List.foldl_cons,
              hsame]
      · have hdone' : Seen queries p ((done ++ [Slot.own n]).map Slot.node)
            ((done' ++ [Slot.own n']).map Slot.node) := by
          rw [List.map_append, List.map_append]
          exact hdone.append (Node.TwinAll.seen (.both hn .nil))
        have hstep : Parallel queries p
            (expandCalls expand inside f (done ++ [.own n]) (nodes ++ tail))
            (expandCalls expand' inside' g (done' ++ [.own n']) (nodes' ++ tail')) post := by
          refine ih hinside hrest htail hframe hdone' ?_
          intro q f' g' slots slots' hle hf' hheader hslots hfresh
          rw [List.append_assoc, List.append_assoc]
          exact hpost q f' g' _ _ hle hf' hheader (.both (.own (hn.grow hle)) hslots)
            fun fresh => hfresh _
        cases hn with
        | call h => exact absurd ⟨_, rfl⟩ hcall
        | _ => exact hstep

end Calls

section Nodes

variable {compile compile' : Compiler} {rules rules' : List Node} {n n' : Node}

theorem parallel_compileBody (hcompile : compile.Parallel queries compile')
    (hsc : sc.Twin queries p sc') (hrules : Node.TwinAll queries p rules rules') :
    Parallel queries p (compileBody compile sc rules) (compileBody compile' sc' rules')
      (Node.TwinAll queries) := by
  refine (Parallel.lift (.ruleset hrules none none)).bind fun q body body' hle hbody => ?_
  exact (hcompile q sc sc' body body' (hsc.grow hle) hbody).bind fun r a b _ h => .pure h.rules

theorem parallel_compileMedia (hcompile : compile.Parallel queries compile')
    (hsc : sc.Twin queries p sc') (head : MediaHead)
    (hrules : Node.TwinAll queries p rules rules') :
    Parallel queries p (compileMedia compile sc head rules) (compileMedia compile' sc' head rules')
      (Node.Twin queries) := by
  refine (parallel_compileBody hcompile hsc hrules).bind fun q l m _ hl => ?_
  intro s t hst
  refine .inl ⟨_, _, _, _, rfl, rfl, q, le_rfl, hst.withBlocks ?_, ?_⟩
  · exact List.rel_append hst.blocks (.cons ⟨rfl, hl⟩ .nil)
  · rw [hst.length_eq]
    exact .block _

theorem parallel_node (hcompile : compile.Parallel queries compile')
    (hsc : sc.Twin queries p sc') (hn : n.Twin queries p n') :
    Parallel queries p (n.compileWith compile sc) (n'.compileWith compile' sc')
      (Node.Twin queries) := by
  cases hn with
  | declaration d =>
    refine (Parallel.of_except (hsc.declaration_eq d)).bind ?_
    rintro q _ d' _ rfl
    exact .pure (.declaration d')
  | ruleset hR hrules hheader hserial hleft hright =>
    refine (hcompile p sc sc' _ _ hsc ⟨hheader, hserial, hleft, hright,
      Aligned.mono hrules hR fun _ h => h⟩).bind fun q a b _ h => .pure h.node
  | media hR hrules =>
    exact parallel_compileMedia hcompile hsc _ (Aligned.mono hrules hR fun _ h => h)
  | block index =>
    refine .get fun s t hst => ?_
    cases hb : s.blocks[index]? with
    | none =>
      have hb' : t.blocks[index]? = none := by
        rw [List.getElem?_eq_none_iff, hst.length_eq]
        exact List.getElem?_eq_none_iff.1 hb
      rw [hb']
      exact .pure (.block index)
    | some b =>
      obtain ⟨b', hb', htwin⟩ := exists_of_getElem?_left hst.blocks hb
      rw [hb']
      dsimp only
      rw [htwin.head]
      exact parallel_compileMedia hcompile hsc b.head htwin.rules
  | directive head => exact .pure (.directive head)
  | directiveBlock hR hrules =>
    exact (parallel_compileBody hcompile hsc (Aligned.mono hrules hR fun _ h => h)).bind
      fun q l m _ hl => .pure (.directiveBlock (fun _ _ h => h) hl)
  | call h => exact .throw _
  | definition hR hrules hsignature hclosure =>
    exact .pure (.definition hR hrules hsignature hclosure)
  | inclusion i => exact .pure (.inclusion i)
  | comment c => exact .pure (.comment c)

/-- What becomes of a node that is no mixin is none either, and declares the same if the node is
steady. -/
theorem ensures_plain_of_compile (compile : Compiler) (sc : Scope) (hn : n.candidate? = none)
    (s : Store) :
    Ensures (n.compileWith compile sc) s
      (fun m _ => m.candidate? = none ∧ (n.isSteady = true → m.binding? = n.binding?))
      fun _ _ => True := by
  have hmedia : ∀ head rules, n.binding? = none →
      Ensures (compileMedia compile sc head rules) s
        (fun m _ => m.candidate? = none ∧ (n.isSteady = true → m.binding? = n.binding?))
        fun _ _ => True := by
    intro head rules hnone
    refine ensures_bind.2 (ensures_of_forall ?_ fun _ _ => trivial)
    exact fun _ _ => ⟨rfl, fun _ => hnone.symm⟩
  cases n with
  | declaration d =>
    refine ensures_bind.2 (ensures_ofExcept.2 ⟨fun d' hd' => ⟨rfl, ?_⟩, fun _ _ => trivial⟩)
    obtain ⟨value, hvalue, ⟨⟩⟩ := bind_eq_ok_iff.1 hd'
    intro hsteady
    by_cases hvariable : d.isVariable = true
    · have hresolved : d.value.isResolved = true := by
        simpa [Node.isSteady, hvariable] using hsteady
      rw [Scope.value, Value.fill, if_pos hresolved] at hvalue
      cases hvalue
      rfl
    · have hvariable' : ¬ ({ d with value } : Declaration).isVariable = true := hvariable
      rw [Node.binding?, Node.binding?, if_neg hvariable, if_neg hvariable']
  | ruleset r => cases hn
  | definition d => cases hn
  | media head rules => exact hmedia head rules rfl
  | block index =>
    rw [Node.compileWith, ensures_bind, ensures_get]
    cases s.blocks[index]? with
    | none => exact ⟨rfl, fun _ => rfl⟩
    | some b => exact hmedia b.head b.rules rfl
  | directive head rules =>
    cases rules with
    | none => exact ⟨rfl, fun _ => rfl⟩
    | some rules =>
      refine ensures_bind.2 (ensures_of_forall ?_ fun _ _ => trivial)
      exact fun _ _ => ⟨rfl, fun _ => rfl⟩
  | call c => trivial
  | inclusion i => exact ⟨rfl, fun _ => rfl⟩
  | comment c => exact ⟨rfl, fun _ => rfl⟩

end Nodes

section Slots

variable {compile compile' : Compiler}

theorem refresh_own {n : Node} (hn : n.candidate? = none) (fresh : Bool) :
    Slot.refresh fresh (.own n) = (fresh && n.isSteady) := by
  cases n with
  | ruleset r => cases hn
  | _ => rfl

/-- A ruleset goes back into the frame once it is compiled. -/
theorem compileSlots_ruleset {inside : Ruleset → Scope} {frame r : Ruleset} {done : List Node}
    {slots : List Slot} :
    compileSlots (Node.compileWith compile) inside frame done (.own (.ruleset r) :: slots) = (do
      let compiled ← compile (inside frame) r
      let done := done ++ [.ruleset compiled]
      let frame ← frame.rebuild (done ++ slots.map Slot.node)
      compileSlots (Node.compileWith compile) inside frame done slots) := by
  simp only [compileSlots, Node.compileWith, bind_assoc, pure_bind]

/-- Compiling slots keeps frames and nodes in correspondence, whatever slots follow. As long as the
second frame is fresh, it also shows what becomes of the rules of the first ruleset. -/
theorem parallel_compileSlots (hcompile : compile.Parallel queries compile')
    {inside inside' : Ruleset → Scope}
    (hinside : ∀ q f g, p ≤ q → f.TwinFrames queries q g →
      (inside f).Twin queries q (inside' g))
    {slots slots' tail tail' : List Slot} (hslots : Slot.TwinAll queries p slots slots')
    (htail : Seen queries p (tail.map Slot.node) (tail'.map Slot.node))
    (hframe : f.TwinFrames queries p g) {done done' : List Node}
    (hdone : Seen queries p done done') (fresh : Bool)
    (hfresh : fresh = true → Seen queries p (done ++ (slots ++ tail).map Slot.node) g.rules)
    {post : Pairing → Ruleset × List Node → Ruleset × List Node → Prop}
    (hpost : ∀ q f' g' nodes nodes', p ≤ q → f'.TwinFrames queries q g' →
      f'.header = f.header → Node.TwinAll queries q nodes nodes' →
      (slots.foldl Slot.refresh fresh = true →
        Seen queries q (done ++ nodes ++ tail.map Slot.node) g'.rules) →
      Parallel queries q (compileSlots (Node.compileWith compile) inside f' (done ++ nodes) tail)
        (compileSlots (Node.compileWith compile') inside' g' (done' ++ nodes') tail') post) :
    Parallel queries p (compileSlots (Node.compileWith compile) inside f done (slots ++ tail))
      (compileSlots (Node.compileWith compile') inside' g done' (slots' ++ tail')) post := by
  induction slots generalizing p f g slots' done done' fresh with
  | nil =>
    cases hslots
    have h := hpost p f g [] [] le_rfl hframe rfl .nil fun hfresh' => by
      rw [List.append_nil]
      exact hfresh hfresh'
    rwa [List.append_nil, List.append_nil] at h
  | cons slot slots ih =>
    -- What follows after the first slot, once its node is compiled to `m`.
    have hadvance : ∀ {rest' : List Slot} q f' g' m k,
        Slot.TwinAll queries p slots rest' → p ≤ q →
        f'.TwinFrames queries q g' → f'.header = f.header → Node.TwinAll queries q [m] k →
        (slot.refresh fresh = true →
          Seen queries q (done ++ [m] ++ (slots ++ tail).map Slot.node) g'.rules) →
        Parallel queries q
          (compileSlots (Node.compileWith compile) inside f' (done ++ [m]) (slots ++ tail))
          (compileSlots (Node.compileWith compile') inside' g' (done' ++ k) (rest' ++ tail'))
          post := by
      intro rest' q f' g' m k hrest hle hf' hheader hm hfresh'
      refine ih (fun r f g hr => hinside r f g (hle.trans hr)) (hrest.grow hle) (htail.grow hle)
        hf' ((hdone.grow hle).append hm.seen) _ hfresh' ?_
      intro r f'' g'' nodes nodes' hr hf'' hheader' hnodes hfresh''
      rw [List.append_assoc done] at hfresh'' ⊢
      rw [List.append_assoc done']
      exact hpost r f'' g'' _ _ (hle.trans hr) hf'' (hheader'.trans hheader)
        ((hm.grow hr).append hnodes) hfresh''
    have hsame : ∀ {m : Node}, m = slot.node →
        (fresh = true → Seen queries p (done ++ [m] ++ (slots ++ tail).map Slot.node) g.rules) := by
      rintro m rfl hfresh'
      rw [List.append_assoc]
      exact hfresh hfresh'
    cases hslots with
    | spare hn hrest =>
      obtain ⟨d, hd, -⟩ := hn.definition
      have h := hadvance p f g slot.node [] hrest le_rfl hframe rfl (.spare hn .nil)
      rw [List.append_nil] at h
      cases slot with
      | expanded n => exact h (hsame rfl)
      | own n =>
        obtain rfl : n = .definition d := hd
        exact h fun hfresh' => hsame rfl (Bool.and_eq_true_iff.1 hfresh').1
    | both hslot hrest =>
      cases hslot with
      | @expanded n n' hn =>
        exact hadvance p f g n [n'] hrest le_rfl hframe rfl (.both hn .nil) (hsame rfl)
      | @own n n' hn =>
        by_cases hplain : n.candidate? = none
        · have hdefinition : ∀ d, n ≠ .definition d := by
            rintro d rfl
            cases hplain
          have hdefinition' : ∀ d, n' ≠ .definition d := by
            rintro d rfl
            cases hn
            cases hplain
          rw [List.cons_append, List.cons_append, compileSlots_own hdefinition,
            compileSlots_own hdefinition']
          refine ((parallel_node hcompile (hinside p f g le_rfl hframe) hn).and_left
            (ensures_plain_of_compile compile (inside f) hplain)).bind ?_
          rintro q m m' hle ⟨hm, hm', hbinding⟩
          have hsearch : ∀ query, queries.Has query → m.search query = n.search query := by
            intro query _
            rw [Node.search_of_candidate?_eq_none hplain, Node.search_of_candidate?_eq_none hm']
          have hnext := hadvance q f g m [m'] hrest hle (hframe.grow hle) rfl (.both hm .nil) (by
            intro hfresh'
            rw [refresh_own hplain, Bool.and_eq_true_iff] at hfresh'
            rw [List.append_assoc]
            exact ((hfresh hfresh'.1).grow hle).replace (hbinding hfresh'.2) hsearch (.other hm'))
          cases hm with
          | ruleset => cases hm'
          | definition => cases hm'
          | _ => exact hnext
        · cases hn with
          | ruleset hR hrules hheader hserial hleft hright =>
            rw [List.cons_append, List.cons_append, compileSlots_ruleset, compileSlots_ruleset]
            refine (hcompile p _ _ _ _ (hinside p f g le_rfl hframe) ⟨hheader, hserial, hleft,
              hright, Aligned.mono hrules hR fun _ h => h⟩).bind fun q a b hle hab => ?_
            have hm : Node.TwinAll queries q [.ruleset a] [.ruleset b] := .both hab.node .nil
            have hseen := ((hdone.grow hle).append hm.seen).append
              ((Slot.TwinAll.grow hrest hle).map_node.seen.append (htail.grow hle))
            rw [← List.map_append, ← List.map_append] at hseen
            refine (Parallel.lift (.rebuild (hframe.grow hle) hseen)).bind ?_
            rintro r f' g' hr ⟨hf', hheader', -, hg'⟩
            refine hadvance r f' g' _ _ hrest (hle.trans hr) hf' hheader' (hm.grow hr) fun _ => ?_
            rw [hg']
            exact Seen.grow hseen hr
          | definition hR hrules hsignature hclosure =>
            exact hadvance p f g _ [_] hrest le_rfl hframe rfl
              (.both (.definition hR hrules hsignature hclosure) .nil)
              fun hfresh' => hsame rfl (Bool.and_eq_true_iff.1 hfresh').1
          | _ => exact absurd rfl hplain

end Slots

section Rulesets

variable {compile compile' : Compiler} {expand expand' : Expander} {nodes nodes' : List Node}

theorem inStep_wrap {selectors : List Selector} {b c : Block} (h : b.Twin queries p c) :
    InStep queries p (b.wrap selectors) (c.wrap selectors) (Block.Twin queries) :=
  (InStep.ruleset h.rules none none).bind fun _ _ _ _ hr => .pure ⟨h.head, .both hr.node .nil⟩

/-- Blocks that correspond still do after they were wrapped in selectors. -/
theorem inStep_bubble (selectors : List Selector) (first : Nat) :
    InStep queries p (bubble selectors first) (bubble selectors first) fun _ _ _ => True := by
  refine .get fun s t hst => ?_
  dsimp only
  rw [hst.length_eq]
  split
  · exact .pure trivial
  · refine (InStep.record _ _).bind fun q _ _ hle _ => ?_
    refine (InStep.mapBlocks ((List.forall₂_drop first hst.blocks).imp fun _ _ h => h.grow hle)
      fun _ _ _ h => inStep_wrap h).bind fun r wrapped wrapped' hle' hwrapped => ?_
    refine InStep.modifyStore fun s' t' hst' => hst'.withBlocks (List.rel_append ?_ hwrapped)
    exact (List.forall₂_take first hst.blocks).imp fun _ _ h => h.grow (hle.trans hle')

/-- Definitions take hold of frames that show the same. -/
theorem twinAll_captureFrames {frames frames' : List Ruleset}
    (hframes : List.Forall₂ (Ruleset.TwinFrames queries p) frames frames')
    (h : Node.TwinAll queries p nodes nodes') :
    Node.TwinAll queries p (captureFrames frames nodes) (captureFrames frames' nodes') := by
  refine Aligned.map h ?_ ?_
  · intro n n' hn
    cases hn with
    | @definition d e R hR hrules hsignature hclosure =>
      have htwin := Node.Twin.of_definition (.definition hR hrules hsignature hclosure)
      obtain ⟨signature, rules, closure⟩ := d
      obtain ⟨signature', rules', closure'⟩ := e
      cases hclosure with
      | none => exact Definition.Twin.node ⟨htwin.signature, htwin.rules, .some hframes⟩
      | some h => exact htwin.node
    | declaration d => exact .declaration d
    | ruleset hR hrules hheader hserial hleft hright =>
      exact .ruleset hR hrules hheader hserial hleft hright
    | call h => exact .call h
    | inclusion i => exact .inclusion i
    | comment c => exact .comment c
    | media hR hrules => exact .media hR hrules
    | block index => exact .block index
    | directive head => exact .directive head
    | directiveBlock hR hrules => exact .directiveBlock hR hrules
  · intro n hn
    obtain ⟨⟨signature, rules, closure⟩, rfl, hmatch⟩ := hn.definition
    cases closure with
    | some frames => exact hn
    | none =>
      refine ⟨⟨_, rfl, hmatch⟩, ?_⟩
      cases hn.each with
      | definition hrules => exact .definition hrules
      | other h => cases h

/-- The frame of a ruleset before its imports are replaced. -/
theorem parallel_homeFrame (hsc : sc.Twin queries p sc') {r r' : Ruleset}
    (hr : r.Twin queries p r') (selectors : List Selector) :
    Parallel queries p (r.homeFrame sc selectors) (r'.homeFrame sc' selectors) fun q home home' =>
      home.TwinFrames queries q home' ∧ Node.TwinAll queries q home.rules home'.rules := by
  have hreplaces : sc'.replacesImports r.header = sc.replacesImports r.header := by
    rw [Scope.replacesImports, Scope.replacesImports, hsc.options]
  rw [Ruleset.homeFrame, Ruleset.homeFrame, hr.header]
  refine (Parallel.lift (.frame hr.rules.seen (.some hr.serial))).bind ?_
  rintro q frame frame' hle ⟨hframe, -, hrules, hrules'⟩
  have hnodes : Node.TwinAll queries q frame.rules frame'.rules := by
    rw [hrules, hrules']
    exact hr.rules.grow hle
  rw [hreplaces]
  by_cases hreplace : sc.replacesImports r.header = true
  · rw [if_pos hreplace, if_pos hreplace]
    have hinside := (hsc.grow hle).enter hframe selectors
    refine (parallel_replaceImports (fun r i hq => parallel_importCompile (hinside.grow hq) i)
      hnodes).bind fun r rules rules' hle' hrules => ?_
    refine (Parallel.lift (.rebuild (hframe.grow hle') hrules.seen)).mono ?_
    rintro t home home' hle'' ⟨hhome, -, hhomeRules, hhomeRules'⟩
    rw [hhomeRules, hhomeRules']
    exact ⟨hhome, hrules.grow hle''⟩
  · rw [if_neg hreplace, if_neg hreplace]
    exact .pure ⟨hframe, hnodes⟩

/-- The rest of compiling a ruleset from its frame on. -/
theorem parallel_fillFrame (hexpand : expand.Parallel queries expand')
    (hcompile : compile.Parallel queries compile') (hsc : sc.Twin queries p sc')
    (hframe : f.TwinFrames queries p g) (hnodes : Node.TwinAll queries p f.rules g.rules)
    (selectors : List Selector) :
    Parallel queries p (f.fillFrame expand (fun _ => Node.compileWith compile) sc selectors)
      (g.fillFrame expand' (fun _ => Node.compileWith compile') sc' selectors)
      (Ruleset.Twin queries) := by
  have hnil : ∀ q, Seen queries q [] [] := fun q => Node.TwinAll.seen .nil
  have hinside : ∀ q f g, p ≤ q → f.TwinFrames queries q g →
      (sc.enter f selectors).Twin queries q (sc'.enter g selectors) :=
    fun q f g hle h => (hsc.grow hle).enter h selectors
  refine .get fun s t hst => ?_
  rw [hst.length_eq]
  have hcalls : Parallel queries p (expandCalls expand (sc.enter · selectors) f [] f.rules)
      (expandCalls expand' (sc'.enter · selectors) g [] g.rules) fun q a b =>
        a.1.TwinFrames queries q b.1 ∧ Slot.TwinAll queries q a.2 b.2 := by
    rw [← List.append_nil f.rules, ← List.append_nil g.rules]
    exact parallel_expandCalls hexpand hinside hnodes (hnil p) hframe (Slot.seen_nil p)
      fun q f' g' slots slots' _ hf' _ hslots _ => .pure ⟨hf', hslots⟩
  refine hcalls.bind ?_
  rintro q ⟨f', slots⟩ ⟨g', slots'⟩ hle ⟨hf', hslots⟩
  have hrules : Parallel queries q
      (compileSlots (Node.compileWith compile) (sc.enter · selectors) f' [] slots)
      (compileSlots (Node.compileWith compile') (sc'.enter · selectors) g' [] slots') fun q a b =>
        a.1.TwinFrames queries q b.1 ∧ Node.TwinAll queries q a.2 b.2 := by
    rw [← List.append_nil slots, ← List.append_nil slots']
    refine parallel_compileSlots hcompile (fun r f g hr => hinside r f g (hle.trans hr)) hslots
      (Slot.seen_nil q) hf' (hnil q) false (fun h => by cases h)
      fun r f'' g'' nodes nodes' _ hf'' _ hnodes _ => .pure ⟨hf'', hnodes⟩
  refine hrules.bind ?_
  rintro r ⟨last, rules⟩ ⟨last', rules'⟩ - ⟨hlast, hrules⟩
  refine (Parallel.lift (inStep_bubble selectors s.blocks.length)).bind fun u _ _ hu _ => ?_
  rw [Ruleset.rebuild, Ruleset.rebuild, hlast.header]
  exact .lift (.ruleset (hrules.grow hu) last.source last'.source)

theorem parallel_compileWith (hexpand : expand.Parallel queries expand')
    (hcompile : compile.Parallel queries compile') :
    Compiler.Parallel queries (Ruleset.compileWith expand compile)
      (Ruleset.compileWith expand' compile') := by
  intro p sc sc' r r' hsc hr
  rw [Ruleset.compileWith_eq, Ruleset.compileWith_eq]
  have hselectors : r'.header.selectors.mapM sc'.selector =
      r.header.selectors.mapM sc.selector := by rw [hr.header, hsc.selector_eq]
  refine (Parallel.of_except hselectors).bind ?_
  rintro q _ selectors hq rfl
  refine (Parallel.lift (.record _ _)).bind fun q' _ _ hq' _ => ?_
  have hle := hq.trans hq'
  refine (parallel_homeFrame (hsc.grow hle) ⟨hr.header, hle.twins _ hr.serial,
    hr.left.mono hle.left, hr.right.mono hle.right, hr.rules.grow hle⟩ selectors).bind ?_
  rintro t home home' ht ⟨hhome, hrules⟩
  have hsc' := hsc.grow (hle.trans ht)
  have hcaptured := twinAll_captureFrames (.cons hhome hsc'.frames) hrules
  refine (Parallel.lift (.rebuild hhome hcaptured.seen)).bind ?_
  rintro u frame frame' hu ⟨hframe, -, hframeRules, hframeRules'⟩
  refine parallel_fillFrame hexpand hcompile (hsc'.grow hu) hframe ?_ selectors
  rw [hframeRules, hframeRules']
  exact hcaptured.grow hu

/-- With any number of rounds, rulesets that correspond compile alike. -/
theorem parallel_compileRounds (queries : Queries) (rounds : Nat) :
    Compiler.Parallel queries (Ruleset.compileRounds rounds) (Ruleset.compileRounds rounds) := by
  induction rounds with
  | zero => exact fun p sc sc' r r' _ _ => .throw _
  | succ rounds ih => exact parallel_compileWith (parallel_guarded ih) ih

end Rulesets

end Stylesheet
