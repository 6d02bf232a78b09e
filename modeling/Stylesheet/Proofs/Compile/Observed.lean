import Stylesheet.Proofs.Compile.Soundness

/-!
# Watching the declarations of mixins

A compilation can be watched where it evaluates the declarations of the mixins that
it expands. An evaluator takes the place of that step. It is given the candidate, the
scope of the call, the slots that the rules of the candidate became once their own
calls were replaced, and the scope of the declaration.

Only declarations that stand directly in the rules of a candidate are watched, at
every depth of expansions. An evaluator that is faithful on sound candidates leaves
the whole compilation as it is.
-/

namespace Stylesheet

/-- How the declarations in the rules of a candidate are evaluated. -/
abbrev Evaluator := Candidate → Scope → List Slot → Scope → Declaration → Except Error Declaration

/-- Compile a node, but evaluate a declaration by the given function. -/
def Node.evaluateWith (evaluate : Scope → Declaration → Except Error Declaration)
    (compile : NodeCompiler) (sc : Scope) : Node → CompileM Node
  | .declaration d => do return .declaration (← ofExcept (evaluate sc d))
  | node => compile sc node

namespace Expander

/-- Compile the rules of a candidate, but evaluate their declarations by the given function. -/
def evaluating (expand : Expander)
    (evaluate : List Slot → Scope → Declaration → Except Error Declaration) : Compiler :=
  fun sc r => do
    let levels := sc.levels (← get) r.rules - 1
    r.compileBy expand
      (fun slots => Node.evaluateWith (evaluate slots) (Node.compileWith (expand.nested levels))) sc

/-- The expander that allows so many expansions inside each other, with an evaluator for the
declarations of all candidates. -/
def observed (evaluate : Evaluator) : Nat → Expander
  | 0 => Expander.refuse
  | budget + 1 => fun sc call args c =>
    Expander.ofCompiler ((observed evaluate budget).evaluating (evaluate c sc)) sc call args c

end Expander

/-- Compile a style sheet and print it, with the given compiler for the document. -/
def compileToCssWith (compile : Compiler) (rules : List Rule) (options : Options)
    (sources : Option Sources) : Except Error String :=
  ((do
    let root ← Ruleset.document (← numberRules rules)
    let compiled ← compile { options, sources } root
    record .joining
    let joined ← compiled.join
    return (← get).css options.compress joined : CompileM String).run.run {}).1

theorem compileToCssWith_compile (rules : List Rule) (options : Options)
    (sources : Option Sources) :
    compileToCssWith (fun sc r => r.compile sc) rules options sources =
      compileToCss rules options sources := by
  simp only [compileToCssWith, compileToCss, compileDocument, compileTree, bind_assoc,
    List.isEmpty_nil, if_true]

/-- The evaluator does as the compiler does with the declarations of sound candidates, wherever
their rules are expanded. -/
def Evaluator.Faithful (fit : Fit) (evaluate : Evaluator) : Prop :=
  ∀ (sc : Scope) (s : Store) (c : Candidate) (span : Span) (args : List Value)
    (bindings : List Declaration) (params frame : Ruleset) (selectors : List Selector)
    (slots : List Slot), sc.Ready fit s → c.Sound fit s.blocks.length →
    c.bindings sc span args = .ok bindings → params.rules = bindings.map Node.declaration →
    DeclaredIn slots frame.rules → ∀ d,
    evaluate c sc slots ((sc.inBody params c).enter frame selectors) d =
      ((sc.inBody params c).enter frame selectors).declaration d

section Faithful

variable {fit : Fit} {expand expand' : Expander} {sc : Scope} {r : Ruleset} {s : Store}

/-- Declarations may be evaluated by any function that does as the compiler does in the frames that
declare no more than the slots. -/
theorem safeAt_evaluating (hkept : Header.Kept fit.header)
    (hexpand : Expander.Safe fit expand expand')
    (hreached : fit.course.reaches (.ruleset expand (sc.levels s r.rules) sc r) s)
    {evaluate : List Slot → Scope → Declaration → Except Error Declaration}
    (hevaluate : ∀ slots frame selectors d, DeclaredIn slots frame.rules →
      evaluate slots (sc.enter frame selectors) d = (sc.enter frame selectors).declaration d) :
    Compiler.SafeAt fit expand.compiler (expand'.evaluating evaluate) sc r s := by
  intro hsc hheader hr hsettled
  have hlevels : sc.levels s r.rules = sc.levels s r.rules - 1 + 1 := by
    rw [Scope.levels]
    omega
  refine Alike.get ?_
  rw [hlevels] at hreached ⊢
  rw [Nat.add_sub_cancel]
  refine safeAt_compileBy hkept hexpand (fun selectors slots _ => ?_) hreached
    (hlevels ▸ sc.heights_add_unread_le_levels s r.rules) hsc hheader hr hsettled
  intro frame n t hinside hready hdeclared hn hcall hdefinition hheight
  have hplain := safe_nodeCompileWith hkept (safe_nested hkept hexpand _) slots frame n t hinside
    hready hdeclared hn hcall hdefinition hheight
  cases n with
  | declaration d =>
    rw [Node.evaluateWith, hevaluate slots frame selectors d hdeclared]
    exact hplain
  | _ => exact hplain

theorem safe_observed (hkept : Header.Kept fit.header) {evaluate : Evaluator}
    (hevaluate : evaluate.Faithful fit) (budget : Nat) :
    Expander.Safe fit (Expander.upTo budget) (Expander.observed evaluate budget) := by
  induction budget with
  | zero => exact safe_refuse
  | succ budget ih =>
    intro sc call args c s hreached hsc hc
    refine alike_ofCompiler hkept hreached hsc hc
      fun bindings params body t hbindings hparams hinside => ?_
    exact safeAt_evaluating hkept ih hinside fun slots frame selectors d hdeclared =>
      hevaluate sc s c call.span args bindings params frame selectors slots hsc hc hbindings hparams
        hdeclared d

/-- A faithful evaluator changes nothing about a compilation. -/
theorem compileToCss_observed (hkept : Header.Kept fit.header) {evaluate : Evaluator}
    (hevaluate : evaluate.Faithful fit) {rules : List Rule} {options : Options}
    {sources : Option Sources}
    (hstart : ∀ root s, (numberRules rules >>= Ruleset.document).run {} = (root, s) →
      fit.course.reaches (.ruleset (.upTo options.maxMixinDepth)
        (Scope.levels { options, sources } s root.rules) { options, sources } root) s)
    (hdocument : fit.header .document) (hlist : fit.rules rules)
    (hrules : ∀ rule ∈ rules, rule.Fits fit)
    (hsources : ∀ table, sources = some table →
      ∀ entry ∈ table, ∀ rule ∈ entry.2, rule.Fits fit) :
    compileToCssWith (Expander.observed evaluate options.maxMixinDepth).compiler rules options
      sources = compileToCss rules options sources := by
  rw [← compileToCssWith_compile]
  have hsafe := safeAt_compiler hkept (safe_observed hkept hevaluate options.maxMixinDepth)
    (hstart _ _ rfl)
  have hready : ∀ next, Scope.Ready fit { options, sources } { nextSerial := next } := fun next =>
    ⟨by simp, by simp, by simp, hsources, Store.sound_empty.blocks, Store.sound_empty.memo⟩
  refine congrArg Prod.fst ?_
  rw [run_bind_lift, run_bind_lift, run_bind_lift, run_bind_lift]
  exact run_bind_congr (hsafe (hready _) hdocument (Node.allSound_ofRules hrules _)
    (Node.untouched_ofRules hlist _).settled).run_eq

end Faithful

/-- The declarations of a mixin come from the evaluator, and the others do not. -/
example :
    let rules : List Rule := [
      .definition { name := { elements := [{ value := ".m" }] } }
        [.declaration { name := "color", value := .read "red" }],
      .ruleset { selectors := [{ elements := [{ value := ".x" }] }] }
        [.call { selector := { elements := [{ value := ".m" }] } },
          .declaration { name := "top", value := .read "0" }]]
    let expand := Expander.observed (fun _ _ _ _ d => .ok { d with value := .read "blue" }) 1
    compileToCssWith expand.compiler rules {} none =
      .ok ".x \x7b\n  color: blue;\n  top: 0;\n\x7d" := by
  decide +kernel

end Stylesheet
