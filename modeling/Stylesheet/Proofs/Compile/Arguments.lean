import Mathlib.Data.List.Pairwise
import Stylesheet.Proofs.Compile.Steps

/-!
# Arguments of mixins

A mixin takes as many arguments as it has parameters, or fewer, as long as there is one
for each parameter without a fallback. Only the number counts. The arguments go to the
parameters by their position, so they can be bound if every parameter behind the last
argument has a fallback.

All arguments that can be bound are accepted. All that are accepted can be bound if and
only if no parameter without a fallback stands behind one with a fallback. A call of
candidates that can be bound fails only as the rules of one of them do.
-/

namespace Stylesheet

namespace Candidate

/-- There are no more arguments than parameters, and each parameter behind them has a fallback. -/
def Bindable (c : Candidate) (arity : Nat) : Prop :=
  arity ≤ c.params.length ∧ ∀ p ∈ c.params.drop arity, p.fallback.isSome = true

/-- No parameter without a fallback stands behind one with a fallback. -/
def RequiredFirst (c : Candidate) : Prop :=
  c.params.Pairwise fun p q => q.fallback.isNone = true → p.fallback.isNone = true

/-- The fallbacks have values in the scope. -/
def Resolvable (c : Candidate) (sc : Scope) (span : Span) : Prop :=
  ∀ p ∈ c.params, ∀ fallback, p.fallback = some fallback →
    ∃ value, sc.value fallback span = .ok value

variable {c : Candidate} {arity : Nat}

theorem accepts_iff :
    c.accepts arity = true ↔
      (c.params.filter (·.fallback.isNone)).length ≤ arity ∧ arity ≤ c.params.length := by
  simp [accepts]

theorem length_filter_take_drop (p : Param → Bool) (params : List Param) (n : Nat) :
    (params.filter p).length = ((params.take n).filter p).length +
      ((params.drop n).filter p).length := by
  rw [← List.length_append, ← List.filter_append, List.take_append_drop]

/-- The parameters without a fallback are all among those that get an argument. -/
theorem Bindable.length_filter_eq (h : c.Bindable arity) :
    (c.params.filter (·.fallback.isNone)).length =
      ((c.params.take arity).filter (·.fallback.isNone)).length := by
  have hnone : (c.params.drop arity).filter (·.fallback.isNone) = [] := by
    refine List.filter_eq_nil_iff.2 ?_
    intro p hp
    simp [Option.isNone_eq_false_iff.2 (h.2 p hp)]
  rw [length_filter_take_drop _ _ arity, hnone, List.length_nil, Nat.add_zero]

theorem Bindable.accepts (h : c.Bindable arity) : c.accepts arity = true := by
  refine accepts_iff.2 ⟨?_, h.1⟩
  calc (c.params.filter (·.fallback.isNone)).length
      = ((c.params.take arity).filter (·.fallback.isNone)).length := h.length_filter_eq
    _ ≤ (c.params.take arity).length := List.length_filter_le ..
    _ ≤ arity := List.length_take_le ..

/-- A parameter without a fallback behind the arguments means that those before it have none
either, and then they are too many. -/
theorem RequiredFirst.bindable (h : c.RequiredFirst) (haccepts : c.accepts arity = true) :
    c.Bindable arity := by
  obtain ⟨hrequired, hle⟩ := accepts_iff.1 haccepts
  refine ⟨hle, ?_⟩
  intro p hp
  by_contra hsome
  have hnone : p.fallback.isNone = true := by simpa using hsome
  rw [RequiredFirst, ← List.take_append_drop arity c.params, List.pairwise_append] at h
  have htake : (c.params.take arity).filter (·.fallback.isNone) = c.params.take arity :=
    List.filter_eq_self.2 fun q hq => h.2.2 q hq p hp hnone
  have hdrop : 0 < ((c.params.drop arity).filter (·.fallback.isNone)).length :=
    List.length_pos_of_mem (List.mem_filter.2 ⟨hp, hnone⟩)
  rw [length_filter_take_drop _ _ arity, htake, List.length_take_of_le hle] at hrequired
  omega

/-- If as many arguments as there are parameters without a fallback can be bound, then these
parameters are the first ones. -/
theorem requiredFirst_of_bindable (harity : (c.params.filter (·.fallback.isNone)).length = arity)
    (h : c.Bindable arity) : c.RequiredFirst := by
  have hall : ∀ p ∈ c.params.take arity, p.fallback.isNone = true := by
    refine List.length_filter_eq_length_iff.1 ?_
    rw [← h.length_filter_eq, harity, List.length_take_of_le h.1]
  rw [RequiredFirst, ← List.take_append_drop arity c.params, List.pairwise_append]
  refine ⟨List.pairwise_of_forall_mem_list fun p hp _ _ _ => hall p hp,
    List.pairwise_of_forall_mem_list fun _ _ q hq hnone => ?_, fun p hp _ _ _ => hall p hp⟩
  rw [Option.isNone_eq_false_iff.2 (h.2 q hq)] at hnone
  cases hnone

theorem requiredFirst_iff :
    c.RequiredFirst ↔ ∀ arity, c.accepts arity = true ↔ c.Bindable arity := by
  constructor
  · exact fun h arity => ⟨h.bindable, Bindable.accepts⟩
  · intro h
    -- The least number of arguments that is accepted decides.
    refine requiredFirst_of_bindable rfl ((h _).1 ?_)
    exact accepts_iff.2 ⟨Nat.le_refl _, List.length_filter_le ..⟩

theorem bindable_of_accepts (h : c.RequiredFirst ∨ c.Bindable arity)
    (haccepts : c.accepts arity = true) : c.Bindable arity :=
  h.elim (fun hfirst => hfirst.bindable haccepts) id

/-- Parameters are bound one by one: to the arguments as far as they go, then to the fallbacks. -/
theorem bindParams_ok (c : Candidate) {sc : Scope} {span : Span} (args : List Value)
    {params : List Param} {rest : List Value}
    (hresolvable : ∀ p ∈ params, ∀ fallback, p.fallback = some fallback →
      ∃ value, sc.value fallback span = .ok value)
    (hle : rest.length ≤ params.length)
    (hfallback : ∀ p ∈ params.drop rest.length, p.fallback.isSome = true) :
    ∃ bound, c.bindParams sc span args params rest = .ok bound ∧
      bound.map Declaration.name = params.map Param.name ∧
      (bound.map Declaration.value).take rest.length = rest := by
  induction params generalizing rest with
  | nil =>
    obtain rfl : rest = [] := by simpa using hle
    exact ⟨[], rfl, rfl, rfl⟩
  | cons p params ih =>
    obtain ⟨hp, hparams⟩ := List.forall_mem_cons.1 hresolvable
    cases rest with
    | cons arg rest =>
      obtain ⟨bound, hbound, hnames, hvalues⟩ := ih hparams (by simpa using hle) hfallback
      refine ⟨{ name := p.name, value := arg, span } :: bound, ?_, ?_, ?_⟩
      · rw [bindParams, hbound]
        rfl
      · rw [List.map_cons, List.map_cons, hnames]
      · rw [List.map_cons, List.length_cons, List.take_succ_cons, hvalues]
    | nil =>
      obtain ⟨hsome, hrest⟩ := List.forall_mem_cons.1 hfallback
      obtain ⟨fallback, hfallback⟩ := Option.isSome_iff_exists.1 hsome
      obtain ⟨value, hvalue⟩ := hp fallback hfallback
      obtain ⟨bound, hbound, hnames, -⟩ := @ih [] hparams (Nat.zero_le _) hrest
      refine ⟨{ name := p.name, value, span } :: bound, ?_, ?_, rfl⟩
      · rw [bindParams, hfallback]
        dsimp only
        rw [hvalue, ok_bind, hbound]
        rfl
      · rw [List.map_cons, List.map_cons, hnames]

theorem bindings_ok {sc : Scope} {span : Span} {args : List Value}
    (hresolvable : c.Resolvable sc span) (h : c.Bindable args.length) :
    ∃ bound, c.bindings sc span args = .ok bound ∧
      bound.map Declaration.name = c.params.map Param.name ++ ["@arguments"] ∧
      (bound.map Declaration.value).take args.length = args := by
  obtain ⟨bound, hbound, hnames, hvalues⟩ := c.bindParams_ok args hresolvable h.1 h.2
  refine ⟨bound ++ [{ name := "@arguments", value := Value.join args }], ?_, ?_, ?_⟩
  · rw [bindings, hbound]
    rfl
  · rw [List.map_append, hnames]
    rfl
  · have hlength : args.length ≤ (bound.map Declaration.value).length := by
      have := congrArg List.length hnames
      simp only [List.length_map] at this ⊢
      rw [this]
      exact h.1
    rw [List.map_append, List.take_append_of_le_length hlength, hvalues]

end Candidate

/-- The rules of the candidate, compiled as a body inside of the frame of its parameters, which are
bound to the arguments, fail with that error. -/
def Candidate.BodyFails (sc : Scope) (c : Candidate) (span : Span) (args : List Value) (e : Error)
    (t : Store) : Prop :=
  ∃ bindings params body s s₁ s₂, c.bindings sc span args = .ok bindings ∧
    (Ruleset.build {} (bindings.map .declaration) none).run s = (params, s₁) ∧
    (Ruleset.build {} c.rules none).run s₁ = (body, s₂) ∧
    (Ruleset.compile (sc.inBody params c) body).run.run s₂ = (.error e, t)

section Calls

variable {sc : Scope} {call : MixinCall} {args : List Value} {s : Store}

/-- The compiler for the rules of a candidate is the one that has one expansion less. -/
theorem Ruleset.compile_inBody {budget : Nat} (h : sc.budget = budget + 1) (frame : Ruleset)
    (c : Candidate) :
    Ruleset.compile (sc.inBody frame c) =
      (Expander.upTo budget).compiler (sc.inBody frame c) := by
  have hbudget : (sc.inBody frame c).budget = budget := by
    simp only [Scope.budget, Scope.inBody] at h ⊢
    omega
  funext body
  rw [Ruleset.compile, Scope.expander, hbudget]

/-- A candidate that can be bound is expanded, unless its rules fail or no expansion is left. -/
theorem ensures_expander {c : Candidate} (hresolvable : c.Resolvable sc call.span)
    (h : c.Bindable args.length) (s : Store) :
    Ensures (sc.expander sc call args c) s (fun _ _ => True) fun e t =>
      (sc.budget = 0 ∧
        e = .mixinRecursion call.selector.text sc.options.maxMixinDepth call.span) ∨
      c.BodyFails sc call.span args e t := by
  rw [Scope.expander]
  cases hbudget : sc.budget with
  | zero => exact ensures_throw.2 (.inl ⟨rfl, rfl⟩)
  | succ budget =>
    -- All steps before the rules are compiled succeed, the binding of the parameters included.
    obtain ⟨bound, hbound, -⟩ := Candidate.bindings_ok hresolvable h
    rw [Expander.upTo, Expander.ofCompiler_eq, ensures_bind, Expander.body, ensures_bind,
      ensures_lift, ensures_bind, ensures_ofExcept_of_ok hbound, ensures_bind, ensures_lift,
      ensures_bind, ensures_lift, ensures_bind, ensures_get, ensures_bind]
    refine (Ensures.run _ _).mono ?_ ?_
    · intro compiled t _
      rw [ensures_pure]
      dsimp only
      split
      · exact ensures_lift.2 trivial
      · exact ensures_pure.2 trivial
    · intro e t hrun
      rw [← Ruleset.compile_inBody hbudget] at hrun
      exact .inr ⟨bound, _, _, _, _, _, hbound, rfl, rfl, hrun⟩

theorem ensures_expandAll {expand : Candidate → CompileM (List Node)} {candidates : List Candidate}
    {fail : Error → Store → Prop}
    (h : ∀ c ∈ candidates, ∀ s, Ensures (expand c) s (fun _ _ => True) fail) (s : Store) :
    Ensures (expandAll expand candidates) s (fun _ _ => True) fail := by
  induction candidates generalizing s with
  | nil => exact ensures_pure.2 trivial
  | cons c candidates ih =>
    obtain ⟨hc, hcandidates⟩ := List.forall_mem_cons.1 h
    rw [expandAll, ensures_bind]
    refine (hc s).mono (fun nodes t _ => ?_) fun _ _ hfail => hfail
    rw [ensures_bind]
    exact (ih hcandidates t).mono (fun _ _ _ => ensures_pure.2 trivial) fun _ _ hfail => hfail

/-- A call that has something to expand, all of which can be bound, fails only where the rules of
a candidate fail or no expansion is left. -/
theorem ensures_call {candidates : List Candidate}
    (hargs : (call.args.mapM fun arg => sc.value arg call.span) = .ok args)
    (hfound : ((sc.mixin call.selector).run s).1 = some candidates)
    (heligible : ∃ c ∈ candidates, sc.isEligible args.length c = true)
    (hbindable : ∀ c ∈ candidates, sc.isEligible args.length c = true →
      c.Resolvable sc call.span ∧ (c.RequiredFirst ∨ c.Bindable args.length)) :
    Ensures (call.compile sc) s (fun _ _ => True) fun e t =>
      (sc.budget = 0 ∧
        e = .mixinRecursion call.selector.text sc.options.maxMixinDepth call.span) ∨
      ∃ c ∈ candidates, sc.isEligible args.length c = true ∧
        c.BodyFails sc call.span args e t := by
  rw [MixinCall.compile, MixinCall.compileWith, ensures_bind, ensures_ofExcept_of_ok hargs,
    ensures_bind, ensures_lift, hfound]
  obtain ⟨c, hc, hcalled⟩ := heligible
  have hne : (candidates.filter (sc.isEligible args.length)).isEmpty = false := by
    simpa using ⟨c, hc, hcalled⟩
  dsimp only
  rw [hne, if_neg Bool.false_ne_true, ensures_bind]
  refine (ensures_expandAll (fun d hd u => ?_) _).mono (fun nodes t _ => ?_) fun _ _ hfail => hfail
  · obtain ⟨hmem, hcalled⟩ := List.mem_filter.1 hd
    obtain ⟨hresolvable, hparams⟩ := hbindable d hmem hcalled
    have hbound : d.Bindable args.length :=
      Candidate.bindable_of_accepts hparams (Bool.and_eq_true_iff.1 hcalled).1
    refine (ensures_expander hresolvable hbound u).mono (fun _ _ h => h) fun e t hfail => ?_
    exact hfail.imp_right fun h => ⟨d, hmem, hcalled, h⟩
  · rw [ensures_bind]
    exact ensures_lift.2 (ensures_pure.2 trivial)

end Calls

/-- Arguments are accepted by their number, and all that can be bound are accepted. All that are
accepted can be bound exactly for candidates whose parameters without a fallback are the first ones.
There, and wherever else they can be bound, accepted arguments are bound by position. A call with
something to expand, all of which is of that kind, fails only as the rules of a candidate do or with
the limit of expansions. -/
theorem accepts_binds :
    (∀ (c : Candidate) (arity : Nat), c.accepts arity = true ↔
      (c.params.filter (·.fallback.isNone)).length ≤ arity ∧ arity ≤ c.params.length) ∧
    (∀ (c : Candidate) (arity : Nat), c.Bindable arity → c.accepts arity = true) ∧
    (∀ c : Candidate, (∀ arity, c.accepts arity = true ↔ c.Bindable arity) ↔ c.RequiredFirst) ∧
    (∀ (c : Candidate) (sc : Scope) (span : Span) (args : List Value),
      c.Resolvable sc span → c.accepts args.length = true →
      (c.RequiredFirst ∨ c.Bindable args.length) →
        ∃ bound, c.bindings sc span args = .ok bound ∧
          bound.map Declaration.name = c.params.map Param.name ++ ["@arguments"] ∧
          (bound.map Declaration.value).take args.length = args) ∧
    (∀ (sc : Scope) (call : MixinCall) (args : List Value) (s : Store)
        (candidates : List Candidate),
      (call.args.mapM fun arg => sc.value arg call.span) = .ok args →
      ((sc.mixin call.selector).run s).1 = some candidates →
      (∃ c ∈ candidates, sc.isEligible args.length c = true) →
      (∀ c ∈ candidates, sc.isEligible args.length c = true →
        c.Resolvable sc call.span ∧ (c.RequiredFirst ∨ c.Bindable args.length)) →
      ∀ e t, (call.compile sc).run.run s = (.error e, t) →
        (sc.budget = 0 ∧
          e = .mixinRecursion call.selector.text sc.options.maxMixinDepth call.span) ∨
        ∃ c ∈ candidates, sc.isEligible args.length c = true ∧
          c.BodyFails sc call.span args e t) := by
  refine ⟨fun _ _ => Candidate.accepts_iff, fun _ _ => Candidate.Bindable.accepts,
    fun _ => Candidate.requiredFirst_iff.symm, ?_, ?_⟩
  · intro c sc span args hresolvable haccepts hparams
    exact Candidate.bindings_ok hresolvable (Candidate.bindable_of_accepts hparams haccepts)
  · intro sc call args s candidates hargs hfound heligible hbindable e t hrun
    exact (ensures_call hargs hfound heligible hbindable).of_error hrun

/-- The mixin `.m(@a, @b: 1)`, whose rule refers to a variable that is not there. -/
def fallbackLast : Definition where
  signature := {
    name := { elements := [⟨.compound, ".m"⟩] }
    params := [⟨"@a", none⟩, ⟨"@b", some (.literal "1")⟩] }
  rules := [.declaration { name := "w", value := ⟨[.reference "@c"]⟩ }]
  closure := none

/-- One argument binds both parameters, and a call with it fails in the rule. -/
theorem accepts_binds_fallbackLast :
    let sc : Scope := { frames := [⟨0, none, {}, [.definition fallbackLast]⟩] }
    let call : MixinCall := { selector := fallbackLast.signature.name, args := [.literal "2"] }
    (∃ bound, (Candidate.definition fallbackLast).bindings sc {} [.literal "2"] = .ok bound ∧
      bound.map Declaration.name = ["@a", "@b", "@arguments"] ∧
      (bound.map Declaration.value).take 1 = [.literal "2"]) ∧
    ((call.compile sc).run.run {}).1.isOk = false ∧
    ∀ e t, (call.compile sc).run.run {} = (.error e, t) →
      (Candidate.definition fallbackLast).BodyFails sc {} [.literal "2"] e t := by
  intro sc call
  obtain ⟨-, -, -, hbind, hcall⟩ := accepts_binds
  have hfirst : (Candidate.definition fallbackLast).RequiredFirst := by
    simp [Candidate.RequiredFirst, Candidate.params, fallbackLast]
  have hresolvable : (Candidate.definition fallbackLast).Resolvable sc {} := by
    simp only [Candidate.Resolvable, Candidate.params, fallbackLast, List.forall_mem_cons]
    refine ⟨by simp, fun fallback h => ?_, by simp⟩
    cases h
    exact ⟨_, rfl⟩
  refine ⟨hbind _ sc {} _ hresolvable rfl (.inl hfirst), by decide +kernel, fun e t hrun => ?_⟩
  have hfails := hcall sc call [.literal "2"] {} [.definition fallbackLast] rfl rfl
    ⟨.definition fallbackLast, by simp, rfl⟩
    (by simpa using fun _ => ⟨hresolvable, .inl hfirst⟩) e t hrun
  obtain ⟨hbudget, -⟩ | ⟨c, hc, -, hfails⟩ := hfails
  · exact absurd hbudget (by decide)
  · obtain rfl := List.mem_singleton.1 hc
    exact hfails

/-- With the fallback first, one argument is accepted and cannot be bound. The call fails, although
the other mixin of that name takes the argument. -/
theorem compileToCss_fallback_first :
    let name : Selector := { elements := [⟨.compound, ".m"⟩] }
    let early : Signature := { name, params := [⟨"@a", some (.read "1")⟩, ⟨"@b", none⟩] }
    let other : Signature := { name, params := [⟨"@c", none⟩] }
    let caller : Rule := .ruleset { selectors := [{ elements := [⟨.compound, ".x"⟩] }] }
      [.call { selector := name, args := [.read "2"] }]
    let sheet : List Rule := [.definition other [.declaration { name := "w", value := .read "@c" }],
      caller]
    Candidate.accepts (.definition ⟨early, [], none⟩) 1 = true ∧
      ¬Candidate.Bindable (.definition ⟨early, [], none⟩) 1 ∧
      Candidate.Bindable (.definition ⟨other, [], none⟩) 1 ∧
      compileToCss sheet {} none = .ok ".x \x7b\n  w: 2;\n\x7d" ∧
      compileToCss (.definition early [] :: sheet) {} none =
        .error (.argumentMismatch ".m" 1 {}) := by
  intro name early other caller sheet
  refine ⟨rfl, ?_, ?_, by decide +kernel, by decide +kernel⟩
  · rintro ⟨-, hfallback⟩
    exact absurd (hfallback ⟨"@b", none⟩ (by simp [Candidate.params, early])) (by decide)
  · exact ⟨by decide, by simp [Candidate.params, other]⟩

end Stylesheet
