import Stylesheet.Proofs.Compile.Steps

/-!
# The moments of a compilation

A compilation is about to do one thing after the other: to compile a ruleset, to
replace the calls among its nodes, to expand the candidates of a call, to compile the
other nodes. Each of these is a moment, and the store says what was done before. From
one moment the compilation comes to the next, either inside of what it is about to do
or after a part of that is done.

Steps tell nothing of moments that a compilation does not come to: what is done before
the next moment is done as the compiler does it, and ends with a result. A course is a
set of moments that no step leads out of.
-/

namespace Stylesheet

/-- What a compilation is about to do. -/
inductive Moment where
  /-- Compile a ruleset, with so many levels of nesting. -/
  | ruleset (expand : Expander) (levels : Nat) (sc : Scope) (r : Ruleset)
  /-- Replace the calls among the nodes of a ruleset that are still to come. -/
  | calls (expand : Expander) (levels : Nat) (sc : Scope) (selectors : List Selector)
      (frame : Ruleset) (done : List Slot) (nodes : List Node)
  /-- Replace a call. -/
  | call (expand : Expander) (sc : Scope) (call : MixinCall)
  /-- Expand the candidates of a call that are still to come. -/
  | candidates (expand : Expander) (sc : Scope) (call : MixinCall) (args : List Value)
      (rest : List Candidate)
  /-- Expand a candidate. -/
  | candidate (expand : Expander) (sc : Scope) (call : MixinCall) (args : List Value)
      (c : Candidate)
  /-- Compile the nodes in the slots of a ruleset that are still to come. -/
  | slots (expand : Expander) (levels : Nat) (sc : Scope) (selectors : List Selector)
      (frame : Ruleset) (done : List Node) (rest : List Slot)
  /-- Compile a node. -/
  | node (expand : Expander) (levels : Nat) (sc : Scope) (n : Node)

/-- From the first moment, with the first store, the compilation comes to the second one. -/
inductive Moment.Step : Moment → Store → Moment → Store → Prop
  /-- The selectors of a ruleset are filled in, its imports are replaced, and its definitions take
  hold of the frames around them. -/
  | enter {expand : Expander} {levels : Nat} {sc : Scope} {r home frame : Ruleset}
      {selectors : List Selector} {s t u : Store}
      (hselectors : r.header.selectors.mapM sc.selector = .ok selectors)
      (hhome : (r.homeFrame sc selectors).run.run
        (s.record (.compiling selectors r.rules.length)) = (.ok home, t))
      (hframe : (home.rebuild (captureFrames (home :: sc.frames) home.rules)).run t = (frame, u)) :
      Step (.ruleset expand (levels + 1) sc r) s
        (.calls expand levels sc selectors frame [] frame.rules) u
  | skip {expand : Expander} {levels : Nat} {sc : Scope} {selectors : List Selector}
      {frame : Ruleset} {done : List Slot} {n : Node} {nodes : List Node} {s : Store}
      (hn : ∀ c, n ≠ .call c) :
      Step (.calls expand levels sc selectors frame done (n :: nodes)) s
        (.calls expand levels sc selectors frame (done ++ [.own n]) nodes) s
  | call {expand : Expander} {levels : Nat} {sc : Scope} {selectors : List Selector}
      {frame : Ruleset} {done : List Slot} {c : MixinCall} {nodes : List Node} {s : Store} :
      Step (.calls expand levels sc selectors frame done (.call c :: nodes)) s
        (.call expand (sc.enter frame selectors) c) s
  /-- A call was replaced, and the frame shows what by. -/
  | called {expand : Expander} {levels : Nat} {sc : Scope} {selectors : List Selector}
      {frame next : Ruleset} {done : List Slot} {c : MixinCall} {nodes results : List Node}
      {s t u : Store}
      (hresults : (c.compileWith expand (sc.enter frame selectors)).run.run s = (.ok results, t))
      (hnext : (frame.rebuild (done.map Slot.node ++ results.filter frame.admits ++ nodes)).run t =
        (next, u)) :
      Step (.calls expand levels sc selectors frame done (.call c :: nodes)) s
        (.calls expand levels sc selectors next
          (done ++ (results.filter frame.admits).map .expanded) nodes) u
  /-- The arguments of a call are resolved, and its candidates are looked up. -/
  | candidates {expand : Expander} {sc : Scope} {c : MixinCall} {args : List Value}
      {found : List Candidate} {s t : Store}
      (hargs : (c.args.mapM fun arg => sc.value arg c.span) = .ok args)
      (hfound : (sc.mixin c.selector).run s = (some found, t))
      (hsome : found.filter (sc.isEligible args.length) ≠ []) :
      Step (.call expand sc c) s
        (.candidates expand sc c args (found.filter (sc.isEligible args.length))) t
  | candidate {expand : Expander} {sc : Scope} {call : MixinCall} {args : List Value}
      {c : Candidate} {rest : List Candidate} {s : Store} :
      Step (.candidates expand sc call args (c :: rest)) s (.candidate expand sc call args c) s
  /-- A candidate was expanded. -/
  | expanded {expand : Expander} {sc : Scope} {call : MixinCall} {args : List Value}
      {c : Candidate} {rest : List Candidate} {nodes : List Node} {s t : Store}
      (hnodes : (expand sc call args c).run.run s = (.ok nodes, t)) :
      Step (.candidates expand sc call args (c :: rest)) s (.candidates expand sc call args rest) t
  /-- The parameters of a candidate are bound, and its rules become a body. -/
  | body {expand : Expander} {sc : Scope} {call : MixinCall} {args : List Value} {c : Candidate}
      {bindings : List Declaration} {params body : Ruleset} {s t u : Store}
      (hbindings : c.bindings sc call.span args = .ok bindings)
      (hparams : (Ruleset.build {} (bindings.map .declaration) none).run
        (s.record (.expanding call.selector (sc.depth + 1))) = (params, t))
      (hbody : (Ruleset.build {} c.rules none).run t = (body, u)) :
      Step (.candidate (.ofCompiler expand.compiler) sc call args c) s
        (.ruleset expand ((sc.inBody params c).levels u body.rules) (sc.inBody params c) body) u
  /-- All calls were replaced. -/
  | slots {expand : Expander} {levels : Nat} {sc : Scope} {selectors : List Selector}
      {frame : Ruleset} {done : List Slot} {s : Store} :
      Step (.calls expand levels sc selectors frame done []) s
        (.slots expand levels sc selectors frame [] done) s
  | pass {expand : Expander} {levels : Nat} {sc : Scope} {selectors : List Selector}
      {frame : Ruleset} {done : List Node} {n : Node} {rest : List Slot} {s : Store} :
      Step (.slots expand levels sc selectors frame done (.expanded n :: rest)) s
        (.slots expand levels sc selectors frame (done ++ [n]) rest) s
  | definition {expand : Expander} {levels : Nat} {sc : Scope} {selectors : List Selector}
      {frame : Ruleset} {done : List Node} {d : Definition} {rest : List Slot} {s : Store} :
      Step (.slots expand levels sc selectors frame done (.own (.definition d) :: rest)) s
        (.slots expand levels sc selectors frame (done ++ [.definition d]) rest) s
  | node {expand : Expander} {levels : Nat} {sc : Scope} {selectors : List Selector}
      {frame : Ruleset} {done : List Node} {n : Node} {rest : List Slot} {s : Store}
      (hn : ∀ d, n ≠ .definition d) :
      Step (.slots expand levels sc selectors frame done (.own n :: rest)) s
        (.node expand levels (sc.enter frame selectors) n) s
  /-- A node was compiled. -/
  | compiled {expand : Expander} {levels : Nat} {sc : Scope} {selectors : List Selector}
      {frame : Ruleset} {done : List Node} {n m : Node} {rest : List Slot} {s t : Store}
      (hn : ∀ d, n ≠ .definition d)
      (hm : (n.compileWith (expand.nested levels) (sc.enter frame selectors)).run.run s =
        (.ok m, t)) (hother : ∀ r, m ≠ .ruleset r) :
      Step (.slots expand levels sc selectors frame done (.own n :: rest)) s
        (.slots expand levels sc selectors frame (done ++ [m]) rest) t
  /-- A ruleset was compiled, and the frame shows what it became. -/
  | shown {expand : Expander} {levels : Nat} {sc : Scope} {selectors : List Selector}
      {frame next r : Ruleset} {done : List Node} {n : Node} {rest : List Slot} {s t u : Store}
      (hr : (n.compileWith (expand.nested levels) (sc.enter frame selectors)).run.run s =
        (.ok (.ruleset r), t))
      (hnext : (frame.rebuild (done ++ [.ruleset r] ++ rest.map Slot.node)).run t = (next, u)) :
      Step (.slots expand levels sc selectors frame done (.own n :: rest)) s
        (.slots expand levels sc selectors next (done ++ [.ruleset r]) rest) u
  | nested {expand : Expander} {levels : Nat} {sc : Scope} {r : Ruleset} {s : Store} :
      Step (.node expand levels sc (.ruleset r)) s (.ruleset expand levels sc r) s
  | media {expand : Expander} {levels : Nat} {sc : Scope} {head : MediaHead} {rules : List Node}
      {body : Ruleset} {s t : Store} (hbody : (Ruleset.build {} rules none).run s = (body, t)) :
      Step (.node expand levels sc (.media head rules)) s (.ruleset expand levels sc body) t
  /-- A block is compiled as it is by now. -/
  | block {expand : Expander} {levels : Nat} {sc : Scope} {index : Nat} {b : Block}
      {body : Ruleset} {s t : Store} (hb : s.blocks[index]? = some b)
      (hbody : (Ruleset.build {} b.rules none).run s = (body, t)) :
      Step (.node expand levels sc (.block index)) s (.ruleset expand levels sc body) t
  | directive {expand : Expander} {levels : Nat} {sc : Scope} {head : DirectiveHead}
      {rules : List Node} {body : Ruleset} {s t : Store}
      (hbody : (Ruleset.build {} rules none).run s = (body, t)) :
      Step (.node expand levels sc (.directive head (some rules))) s
        (.ruleset expand levels sc body) t

/-- The compilation of a style sheet comes to the moment, with the given store. -/
inductive Moment.ComesUp (rules : List Rule) (options : Options) (sources : Option Sources) :
    Moment → Store → Prop
  /-- It starts with the ruleset of the document. -/
  | start {root : Ruleset} {s : Store}
      (hroot : (numberRules rules >>= Ruleset.document).run {} = (root, s)) :
      ComesUp rules options sources
        (.ruleset (.upTo options.maxMixinDepth)
          (Scope.levels { options, sources } s root.rules) { options, sources } root) s
  | step {m m' : Moment} {s t : Store} (h : ComesUp rules options sources m s)
      (hstep : m.Step s m' t) : ComesUp rules options sources m' t

/-- The scope of what a compilation is about to do. -/
def Moment.scope : Moment → Scope
  | .ruleset _ _ sc _ | .calls _ _ sc _ _ _ _ | .call _ sc _ | .candidates _ sc _ _ _
  | .candidate _ sc _ _ _ | .slots _ _ sc _ _ _ _ | .node _ _ sc _ => sc

theorem Moment.Step.scope_eq {m m' : Moment} {s t : Store} (h : m.Step s m' t) :
    m'.scope.options = m.scope.options ∧ m'.scope.sources = m.scope.sources := by
  cases h <;> exact ⟨rfl, rfl⟩

/-- A style sheet is compiled with the same options and the same sources all along. -/
theorem Moment.ComesUp.scope_eq {rules : List Rule} {options : Options} {sources : Option Sources}
    {m : Moment} {s : Store} (h : m.ComesUp rules options sources s) :
    m.scope.options = options ∧ m.scope.sources = sources := by
  induction h with
  | start => exact ⟨rfl, rfl⟩
  | step _ hstep ih => exact ⟨hstep.scope_eq.1.trans ih.1, hstep.scope_eq.2.trans ih.2⟩

/-- Moments, with all that the compilation comes to from them. -/
structure Course where
  reaches : Moment → Store → Prop
  follows : ∀ {m m' : Moment} {s t : Store}, reaches m s → m.Step s m' t → reaches m' t

theorem Course.any_follows {m m' : Moment} {s t : Store} (h : True) (_ : m.Step s m' t) : True := h

/-- All moments, whether a compilation comes to them or not. -/
def Course.any : Course := ⟨fun _ _ => True, Course.any_follows⟩

/-- The moments that the compilation of a style sheet comes to. -/
def Course.ofSheet (rules : List Rule) (options : Options) (sources : Option Sources) : Course :=
  ⟨Moment.ComesUp rules options sources, .step⟩

end Stylesheet
