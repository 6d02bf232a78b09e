import Stylesheet.Proofs.Compile.Growth
import Stylesheet.Proofs.Environment.Basic

/-!
# The environment is restored

Each computation with the environment does what the compiler does with the scope of
that environment, with the same result or error and the same store, and leaves the
scope as it found it. Inside a ruleset the innermost frame is overwritten on the
way, so there the two are compared up to that frame; leaving the ruleset pops it,
and with it the difference.

With this the compiler's own facts hold of the environment. In particular the
store only grows.
-/

namespace Stylesheet.Environment

variable {α β : Type} {sc : Scope} {s : Store}

theorem run_between (before after : Scope → Scope) (x : EnvironmentM α) (env : Environment) :
    (between before after x).run.run env =
      let inner := x.run.run { env with scope := before env.scope }
      (inner.1, { inner.2 with scope := after inner.2.scope }) := rfl

theorem run_withFrames (frames : List Ruleset) (x : EnvironmentM α) (env : Environment) :
    (withFrames frames x).run.run env =
      let inner := x.run.run { env with scope := { env.scope with frames } }
      (inner.1,
        { inner.2 with scope := { inner.2.scope with frames := env.scope.frames } }) := rfl

/-- Run in the environment of `sc` and `s`, `x` does what `y` does to `s`, and keeps `sc`. -/
def RunsFrom (sc : Scope) (s : Store) (x : EnvironmentM α) (y : CompileM α) : Prop :=
  x.run.run ⟨sc, s⟩ = ((y.run.run s).1, ⟨sc, (y.run.run s).2⟩)

/-- In the scope `sc`, `x` does what `y` does, whatever the store is. -/
def RunsAt (sc : Scope) (x : EnvironmentM α) (y : CompileM α) : Prop := ∀ s, RunsFrom sc s x y

/-- In the scope `sc`, `x` has the outcome `y` and changes nothing. -/
def ReadsAt (sc : Scope) (x : EnvironmentM α) (y : Except Error α) : Prop :=
  ∀ s, x.run.run ⟨sc, s⟩ = (y, ⟨sc, s⟩)

theorem RunsFrom.bind {x : EnvironmentM α} {y : CompileM α} {f : α → EnvironmentM β}
    {g : α → CompileM β} (hx : RunsFrom sc s x y) (hf : ∀ a t, RunsFrom sc t (f a) (g a)) :
    RunsFrom sc s (x >>= f) (y >>= g) := by
  unfold RunsFrom at hx ⊢
  cases hy : y.run.run s with
  | mk result t =>
    rw [hy] at hx
    cases result with
    | ok a =>
      rw [run_bind_ok hx, run_bind_ok hy]
      exact hf a t
    | error e => rw [run_bind_error hx, run_bind_error hy]

namespace RunsAt

theorem pure (a : α) : RunsAt sc (Pure.pure a) (Pure.pure a) := fun _ => rfl

theorem throw (e : Error) :
    RunsAt sc (MonadExcept.throw e : EnvironmentM α) (MonadExcept.throw e) := fun _ => rfl

theorem bind {x : EnvironmentM α} {y : CompileM α} {f : α → EnvironmentM β} {g : α → CompileM β}
    (hx : RunsAt sc x y) (hf : ∀ a, RunsAt sc (f a) (g a)) : RunsAt sc (x >>= f) (y >>= g) :=
  fun s => (hx s).bind fun a t => hf a t

theorem withStore (x : StateM Store α) : RunsAt sc (Environment.withStore x) (liftM x) :=
  fun _ => rfl

/-- Reading the environment gives the scope at hand. -/
theorem get {f : Environment → EnvironmentM α} {y : CompileM α}
    (h : ∀ s, RunsFrom sc s (f ⟨sc, s⟩) y) : RunsAt sc (MonadState.get >>= f) y := h

/-- Reading the environment where the compiler reads the store. -/
theorem get_get {f : Environment → EnvironmentM α} {g : Store → CompileM α}
    (h : ∀ s, RunsFrom sc s (f ⟨sc, s⟩) (g s)) :
    RunsAt sc (MonadState.get >>= f) (MonadState.get >>= g) := h

end RunsAt

namespace ReadsAt

theorem runsAt {x : EnvironmentM α} {y : Except Error α} (h : ReadsAt sc x y) :
    RunsAt sc x (ofExcept y) := by
  intro s
  rw [RunsFrom, h s]
  cases y <;> rfl

theorem pure (a : α) : ReadsAt sc (Pure.pure a) (Pure.pure a) := fun _ => rfl

theorem throw (e : Error) : ReadsAt sc (MonadExcept.throw e : EnvironmentM α) (.error e) :=
  fun _ => rfl

theorem bind {x : EnvironmentM α} {y : Except Error α} {f : α → EnvironmentM β}
    {g : α → Except Error β} (hx : ReadsAt sc x y) (hf : ∀ a, ReadsAt sc (f a) (g a)) :
    ReadsAt sc (x >>= f) (y >>= g) := by
  intro s
  cases y with
  | ok a => exact (run_bind_ok (hx s)).trans (hf a s)
  | error e => exact run_bind_error (hx s)

theorem get {f : Environment → EnvironmentM α} {y : Except Error α}
    (h : ∀ s, (f ⟨sc, s⟩).run.run ⟨sc, s⟩ = (y, ⟨sc, s⟩)) :
    ReadsAt sc (MonadState.get >>= f) y := h

theorem mapM {f : α → EnvironmentM β} {g : α → Except Error β} (h : ∀ a, ReadsAt sc (f a) (g a))
    (xs : List α) : ReadsAt sc (xs.mapM f) (xs.mapM g) := by
  induction xs with
  | nil => exact pure []
  | cons x xs ih =>
    rw [List.mapM_cons, List.mapM_cons]
    exact (h x).bind fun _ => ih.bind fun _ => pure _

/-- A step that is undone afterwards is seen by what runs in between, and by nothing else. -/
theorem between {x : EnvironmentM α} {y : Except Error α} {before after : Scope → Scope}
    (hundo : after (before sc) = sc) (h : ReadsAt (before sc) x y) :
    ReadsAt sc (Environment.between before after x) y := by
  intro s
  rw [run_between, h s]
  exact congrArg (fun sc => (y, (⟨sc, s⟩ : Environment))) hundo

end ReadsAt

theorem RunsAt.between {x : EnvironmentM α} {y : CompileM α} {before after : Scope → Scope}
    (hundo : after (before sc) = sc) (h : RunsAt (before sc) x y) :
    RunsAt sc (Environment.between before after x) y := by
  intro s
  rw [RunsFrom, run_between, h s]
  exact congrArg (fun sc => ((y.run.run s).1, (⟨sc, (y.run.run s).2⟩ : Environment))) hundo

theorem RunsAt.withFrames {x : EnvironmentM α} {y : CompileM α} {frames : List Ruleset}
    (h : RunsAt { sc with frames } x y) : RunsAt sc (Environment.withFrames frames x) y := by
  intro s
  rw [RunsFrom, run_withFrames, h s]

section Values

theorem readsAt_fillText {lookup : String → EnvironmentM String}
    {lookup' : String → Except Error String} (h : ∀ name, ReadsAt sc (lookup name) (lookup' name))
    (v : Value) : ReadsAt sc (v.fillText lookup) (v.fillText lookup') := by
  refine ReadsAt.bind (ReadsAt.mapM ?_ v.parts) fun _ => ReadsAt.pure _
  rintro (text | name)
  · exact ReadsAt.pure text
  · exact h name

theorem readsAt_fill {lookup : String → EnvironmentM String}
    {lookup' : String → Except Error String} (h : ∀ name, ReadsAt sc (lookup name) (lookup' name))
    (v : Value) : ReadsAt sc (v.fill lookup) (v.fill lookup') := by
  unfold Value.fill
  split
  · exact ReadsAt.pure v
  · exact ReadsAt.bind (readsAt_fillText h v) fun _ => ReadsAt.pure _

/-- A count of rounds beyond the number of variables that are not being resolved is enough. -/
theorem readsAt_resolveIn {rounds : Nat} (h : sc.idleNames.length < rounds) (name : String)
    (span : Span) : ReadsAt sc (resolveIn rounds name span) (sc.resolve name span) := by
  induction rounds generalizing sc name span with
  | zero => exact absurd h (Nat.not_lt_zero _)
  | succ rounds ih =>
    refine ReadsAt.get fun s => ?_
    dsimp only
    cases hd : sc.binding? name with
    | none =>
      rw [Scope.resolve_of_unbound hd]
      rfl
    | some d =>
      dsimp only
      by_cases hp : name ∈ sc.pending
      · rw [if_pos hp, Scope.resolve_of_pending hd hp]
        rfl
      · rw [if_neg hp, Scope.resolve_of_bound hd hp]
        refine ReadsAt.between rfl (readsAt_fill (fun inner => ?_) d.value) s
        have hless := Scope.length_idleNames_lt hd hp
        exact (ih (by omega) inner d.span).bind fun _ => ReadsAt.pure _

theorem readsAt_resolve (name : String) (span : Span) :
    ReadsAt sc (resolve name span) (sc.resolve name span) :=
  ReadsAt.get (readsAt_resolveIn (Nat.lt_succ_self _) name span)

theorem readsAt_lookup (span : Span) (name : String) :
    ReadsAt sc (lookup span name) (sc.lookup span name) :=
  (readsAt_resolve name span).bind fun _ => ReadsAt.pure _

theorem readsAt_value (v : Value) (span : Span) : ReadsAt sc (value v span) (sc.value v span) :=
  readsAt_fill (readsAt_lookup span) v

theorem readsAt_element (e : Element) : ReadsAt sc (element e) (sc.element e) :=
  ReadsAt.bind (readsAt_fillText (readsAt_lookup _) _) fun _ => ReadsAt.pure _

theorem readsAt_selector (t : Selector) : ReadsAt sc (selector t) (sc.selector t) :=
  ReadsAt.bind (ReadsAt.mapM readsAt_element _) fun _ => ReadsAt.pure _

theorem readsAt_declaration (d : Declaration) : ReadsAt sc (declaration d) (sc.declaration d) :=
  ReadsAt.bind (readsAt_value _ _) fun _ => ReadsAt.pure _

end Values

section Imports

theorem runsAt_replaceImports {replace : Import → EnvironmentM (List Node)}
    {replace' : Import → CompileM (List Node)} (h : ∀ i, RunsAt sc (replace i) (replace' i))
    (nodes : List Node) :
    RunsAt sc (replaceImports replace nodes) (Stylesheet.replaceImports replace' nodes) := by
  induction nodes with
  | nil => exact RunsAt.pure []
  | cons node nodes ih =>
    cases node with
    | inclusion i => exact (h i).bind fun _ => ih.bind fun _ => RunsAt.pure _
    | _ => exact ih.bind fun _ => RunsAt.pure _

/-- A count of rounds beyond the number of paths that are not being imported is enough. -/
theorem runsAt_importIn {rounds : Nat} (h : sc.idlePaths.length < rounds) (i : Import) :
    RunsAt sc (importIn rounds i) (i.compile sc) := by
  induction rounds generalizing sc i with
  | zero => exact absurd h (Nat.not_lt_zero _)
  | succ rounds ih =>
    refine RunsAt.get fun s => ?_
    dsimp only
    by_cases hcss : i.css = true
    · rw [if_pos hcss, Import.compile_of_css hcss]
      exact RunsAt.pure _ s
    rw [if_neg hcss]
    by_cases hi : i.path ∈ sc.importing
    · rw [if_pos hi, Import.compile_of_importing hcss hi]
      exact RunsAt.throw _ s
    rw [if_neg hi]
    cases hs : sc.sources with
    | none =>
      rw [Import.compile_of_no_sources hcss hi hs]
      exact RunsAt.pure _ s
    | some sources =>
      dsimp only
      cases hrules : sources.lookup i.path with
      | none =>
        rw [Import.compile_of_not_found hcss hi hs hrules]
        exact RunsAt.throw _ s
      | some rules =>
        rw [Import.compile_of_found hcss hi hs hrules]
        refine RunsAt.bind (RunsAt.withStore _) (fun loaded => ?_) s
        cases loaded with
        | none => exact RunsAt.pure _
        | some nodes =>
          have hless := Scope.length_idlePaths_lt hs hrules hi
          exact RunsAt.between rfl (runsAt_replaceImports (ih (by omega)) nodes)

theorem runsAt_compileImport (i : Import) : RunsAt sc (compileImport i) (i.compile sc) :=
  RunsAt.get (runsAt_importIn (Nat.lt_succ_self _) i)

end Imports

section Mixins

variable {compile : Compiler} {compile' : Stylesheet.Compiler}

/-- Binding parameters reads the frames and what is being resolved, but not the depth. -/
theorem readsAt_bindings (depth : Nat) (c : Candidate) (span : Span) (args : List Value) :
    ReadsAt { sc with depth } (bindings c span args) (c.bindings sc span args) := by
  have hparams : ∀ params rest, ReadsAt { sc with depth } (bindParams c span args params rest)
      (c.bindParams sc span args params rest) := by
    intro params
    induction params with
    | nil => exact fun _ => ReadsAt.pure []
    | cons p params ih =>
      rintro (_ | ⟨arg, rest⟩)
      · rw [bindParams, Candidate.bindParams]
        cases p.fallback with
        | none => exact ReadsAt.throw _
        | some fallback =>
          have hdepth : { sc with depth }.value fallback span = sc.value fallback span := by
            apply Scope.value_congr
            · exact fun _ => rfl
            · rfl
          have hvalue : ReadsAt { sc with depth } (value fallback span)
              ({ sc with depth }.value fallback span) := readsAt_value fallback span
          rw [hdepth] at hvalue
          exact hvalue.bind fun _ => (ih []).bind fun _ => ReadsAt.pure _
      · exact (ih rest).bind fun _ => ReadsAt.pure _
  exact (hparams _ _).bind fun _ => ReadsAt.pure _

/-- The rules of a candidate are compiled with the frames exchanged and one expansion more. -/
theorem runsAt_body {call : MixinCall} {args : List Value} {c : Candidate}
    (h : ∀ frame body, RunsAt
      { sc with frames := frame :: (c.closure ++ sc.frames), depth := sc.depth + 1 } (compile body)
      (compile' { sc with frames := frame :: (c.closure ++ sc.frames), depth := sc.depth + 1 }
        body)) :
    RunsAt sc
      (expanding do
        withStore (record (.expanding call.selector (← get).scope.depth))
        expandBody compile call.span args c)
      (Expander.body compile' sc call args c) := by
  refine RunsAt.between rfl (RunsAt.get fun s => RunsAt.bind (RunsAt.withStore _) (fun _ => ?_) s)
  refine RunsAt.bind (readsAt_bindings _ c call.span args).runsAt fun bindings =>
    RunsAt.bind (RunsAt.withStore _) fun frame => RunsAt.bind (RunsAt.withStore _) fun body => ?_
  refine RunsAt.get_get fun s => RunsAt.get (fun t => ?_) s
  exact RunsAt.bind (RunsAt.withFrames (h frame body)) (fun _ => RunsAt.pure _) t

theorem runsAt_expandWith {call : MixinCall} {args : List Value} {c : Candidate}
    (hdepth : sc.depth < sc.options.maxMixinDepth)
    (h : ∀ frame body, RunsAt
      { sc with frames := frame :: (c.closure ++ sc.frames), depth := sc.depth + 1 } (compile body)
      (compile' { sc with frames := frame :: (c.closure ++ sc.frames), depth := sc.depth + 1 }
        body)) :
    RunsAt sc (expandWith compile call args c)
      (Expander.ofCompiler compile' sc call args c) := by
  rw [Expander.ofCompiler_eq]
  refine RunsAt.get fun s => ?_
  change RunsFrom sc s (if sc.options.maxMixinDepth ≤ sc.depth then _ else _) _
  rw [if_neg (Nat.not_le.2 hdepth)]
  refine RunsAt.bind (runsAt_body h) (fun result => ?_) s
  change RunsAt sc (if call.important = true then _ else _) (if call.important = true then _ else _)
  split
  · exact RunsAt.withStore _
  · exact RunsAt.pure _

/-- Going through all candidates expands those that are eligible. -/
theorem runsAt_expandEach {expand : Candidate → EnvironmentM (List Node)}
    {expand' : Candidate → CompileM (List Node)} (h : ∀ c, RunsAt sc (expand c) (expand' c))
    (arity : Nat) (candidates : List Candidate) :
    RunsAt sc (expandEach expand arity candidates) (do
      let nodes ← expandAll expand' (candidates.filter (sc.isEligible arity))
      return (!(candidates.filter (sc.isEligible arity)).isEmpty, nodes)) := by
  induction candidates with
  | nil => exact RunsAt.pure _
  | cons c candidates ih =>
    refine RunsAt.get fun s => ?_
    change RunsFrom sc s (if sc.isEligible arity c = true then _ else _) _
    by_cases hc : sc.isEligible arity c = true
    · have hfirst : (do
          let nodes ← expandAll expand' (c :: candidates.filter (sc.isEligible arity))
          return (!(c :: candidates.filter (sc.isEligible arity)).isEmpty, nodes)) = (do
          let nodes ← expand' c
          let rest ← (do
            let nodes ← expandAll expand' (candidates.filter (sc.isEligible arity))
            return (!(candidates.filter (sc.isEligible arity)).isEmpty, nodes))
          return (true, nodes ++ rest.2)) := by
        simp only [expandAll, bind_assoc, pure_bind, List.isEmpty_cons, Bool.not_false]
      rw [if_pos hc, List.filter_cons_of_pos hc, hfirst]
      exact RunsAt.bind (h c) (fun _ => ih.bind fun _ => RunsAt.pure _) s
    · rw [if_neg hc, List.filter_cons_of_neg hc]
      exact ih s

theorem runsAt_callWith {expand : Expander} {expand' : Stylesheet.Expander}
    (h : ∀ call args c, RunsAt sc (expand call args c) (expand' sc call args c))
    (call : MixinCall) : RunsAt sc (callWith expand call) (call.compileWith expand' sc) := by
  refine RunsAt.bind (ReadsAt.mapM (fun arg => readsAt_value arg call.span) call.args).runsAt
    fun args => RunsAt.get fun s => RunsAt.bind (RunsAt.withStore _) ?_ s
  rintro (_ | candidates)
  · exact RunsAt.throw _
  · have hall : (if (candidates.filter (sc.isEligible args.length)).isEmpty then
          throw (.argumentMismatch call.selector.text args.length call.span)
        else do
          let nodes ← expandAll (expand' sc call args)
            (candidates.filter (sc.isEligible args.length))
          record (.expanded call.selector nodes.length)
          return nodes) = (do
        let result ← (do
          let nodes ← expandAll (expand' sc call args)
            (candidates.filter (sc.isEligible args.length))
          return (!(candidates.filter (sc.isEligible args.length)).isEmpty, nodes))
        if result.1 then
          record (.expanded call.selector result.2.length)
          return result.2
        else throw (.argumentMismatch call.selector.text args.length call.span) :
          CompileM (List Node)) := by
      cases candidates.filter (sc.isEligible args.length) with
      | nil => simp [expandAll]
      | cons c eligible => simp
    change RunsAt sc _ (if (candidates.filter (sc.isEligible args.length)).isEmpty = true then _
      else _)
    rw [hall]
    refine (runsAt_expandEach (h call args) args.length candidates).bind ?_
    rintro ⟨matched, nodes⟩
    change RunsAt sc (if matched = true then _ else _) (if matched = true then _ else _)
    split
    · exact (RunsAt.withStore _).bind fun _ => RunsAt.pure _
    · exact RunsAt.throw _

end Mixins

section Rulesets

variable {selectors : List Selector} {frame : Ruleset}

/-- Inside a ruleset with the given frame, around which `sc` is the scope, `x` does what `y` does.
It may exchange the innermost frame, and `left` says for which one if it does not fail. -/
def RunsInside (sc : Scope) (selectors : List Selector) (frame : Ruleset) (x : EnvironmentM α)
    (y : CompileM α) (left : α → Ruleset → Prop) : Prop :=
  ∀ s, ∃ last,
    x.run.run ⟨sc.enter frame selectors, s⟩ =
      ((y.run.run s).1, ⟨sc.enter last selectors, (y.run.run s).2⟩) ∧
    ∀ a, (y.run.run s).1 = .ok a → left a last

namespace RunsInside

variable {x : EnvironmentM α} {y : CompileM α} {left : α → Ruleset → Prop}

/-- What keeps the scope keeps the frame. -/
theorem of_runsAt (h : RunsAt (sc.enter frame selectors) x y) (hleft : ∀ a, left a frame) :
    RunsInside sc selectors frame x y left :=
  fun s => ⟨frame, h s, fun a _ => hleft a⟩

theorem pure {a : α} (h : left a frame) :
    RunsInside sc selectors frame (Pure.pure a) (Pure.pure a) left := by
  intro s
  refine ⟨frame, rfl, ?_⟩
  rintro _ ⟨⟩
  exact h

theorem bind {f : α → EnvironmentM β} {g : α → CompileM β} {left' : β → Ruleset → Prop}
    (hx : RunsInside sc selectors frame x y left)
    (hf : ∀ a last, left a last → RunsInside sc selectors last (f a) (g a) left') :
    RunsInside sc selectors frame (x >>= f) (y >>= g) left' := by
  intro s
  obtain ⟨last, hrun, hlast⟩ := hx s
  cases hy : y.run.run s with
  | mk result t =>
    rw [hy] at hrun hlast
    cases result with
    | ok a =>
      rw [run_bind_ok hrun, run_bind_ok hy]
      exact hf a last (hlast a rfl) t
    | error e =>
      rw [run_bind_error hrun, run_bind_error hy]
      exact ⟨last, rfl, fun _ ha => by cases ha⟩

/-- A step that keeps the frame, and then the rest. -/
theorem step {f : α → EnvironmentM β} {g : α → CompileM β} {left' : β → Ruleset → Prop}
    (hx : RunsAt (sc.enter frame selectors) x y)
    (hf : ∀ a, RunsInside sc selectors frame (f a) (g a) left') :
    RunsInside sc selectors frame (x >>= f) (y >>= g) left' :=
  have hframe : RunsInside sc selectors frame x y fun _ last => last = frame :=
    of_runsAt hx fun _ => rfl
  hframe.bind fun a _ hlast => hlast ▸ hf a

/-- The compiler has nothing to do where the innermost frame is overwritten. -/
theorem replaceTop {last : Ruleset} (h : RunsInside sc selectors last x y left) :
    RunsInside sc selectors frame (Environment.replaceTop last >>= fun _ => x) y left := h

theorem get {f : Environment → EnvironmentM α}
    (h : ∀ s, RunsInside sc selectors frame (f ⟨sc.enter frame selectors, s⟩) y left) :
    RunsInside sc selectors frame (MonadState.get >>= f) y left := fun s => h s s

theorem get_get {f : Environment → EnvironmentM α} {g : Store → CompileM α}
    (h : ∀ s, RunsInside sc selectors frame (f ⟨sc.enter frame selectors, s⟩) (g s) left) :
    RunsInside sc selectors frame (MonadState.get >>= f) (MonadState.get >>= g) left :=
  fun s => h s s

/-- Leaving the ruleset pops the frame, whichever it is by then. -/
theorem inFrame (h : RunsInside sc selectors frame x y left) :
    RunsAt sc (Environment.inFrame frame selectors x) y := by
  intro s
  obtain ⟨last, hx, -⟩ := h s
  rw [RunsFrom, Environment.inFrame, run_between, hx]
  rfl

end RunsInside

variable {expand : Expander} {expand' : Stylesheet.Expander}
variable {compile : Compiler} {compile' : Stylesheet.Compiler}

theorem runsInside_expandCalls
    (h : ∀ frame call args c, RunsAt (sc.enter frame selectors) (expand call args c)
      (expand' (sc.enter frame selectors) call args c))
    (nodes : List Node) (frame : Ruleset) (done : List Slot) :
    RunsInside sc selectors frame (expandCalls expand frame done nodes)
      (Stylesheet.expandCalls expand' (sc.enter · selectors) frame done nodes)
      fun result last => last = result.1 := by
  induction nodes generalizing frame done with
  | nil => exact RunsInside.pure rfl
  | cons node nodes ih =>
    cases node with
    | call c =>
      exact RunsInside.step (runsAt_callWith (h frame) c) fun results =>
        RunsInside.step (RunsAt.withStore _) fun frame => RunsInside.replaceTop (ih frame _)
    | _ => exact ih frame _

theorem runsAt_compileBody (h : ∀ r, RunsAt sc (compile r) (compile' sc r)) (rules : List Node) :
    RunsAt sc (compileBody compile rules) (Stylesheet.compileBody compile' sc rules) :=
  (RunsAt.withStore _).bind fun body => (h body).bind fun _ => RunsAt.pure _

theorem runsAt_compileMedia (h : ∀ r, RunsAt sc (compile r) (compile' sc r)) (head : MediaHead)
    (rules : List Node) :
    RunsAt sc (compileMedia compile head rules) (Stylesheet.compileMedia compile' sc head rules) :=
  (runsAt_compileBody h rules).bind fun _ => RunsAt.withStore _

theorem runsAt_nodeWith (h : ∀ r, RunsAt sc (compile r) (compile' sc r)) (node : Node) :
    RunsAt sc (nodeWith compile node) (node.compileWith compile' sc) := by
  cases node with
  | declaration d => exact (readsAt_declaration d).runsAt.bind fun _ => RunsAt.pure _
  | ruleset r => exact (h r).bind fun _ => RunsAt.pure _
  | media head rules => exact runsAt_compileMedia h head rules
  | block index =>
    refine RunsAt.get_get fun s => ?_
    dsimp only
    cases s.blocks[index]? with
    | none => exact RunsAt.pure _ s
    | some b => exact runsAt_compileMedia h b.head b.rules s
  | directive head rules =>
    cases rules with
    | none => exact RunsAt.pure _
    | some rules => exact (runsAt_compileBody h rules).bind fun _ => RunsAt.pure _
  | call c => exact RunsAt.throw _
  | definition d => exact RunsAt.pure _
  | inclusion i => exact RunsAt.pure _
  | comment c => exact RunsAt.pure _

/-- A slot of the ruleset itself is compiled, unless it holds a mixin definition. -/
theorem compileSlots_own {done : List Node} {node : Node} {slots : List Slot}
    (h : ∀ d, node ≠ .definition d) :
    compileSlots compile frame done (.own node :: slots) = (do
      let compiled ← nodeWith compile node
      match compiled with
      | .ruleset _ => do
        let frame ← withStore (frame.rebuild (done ++ [compiled] ++ slots.map Slot.node))
        replaceTop frame
        compileSlots compile frame (done ++ [compiled]) slots
      | _ => compileSlots compile frame (done ++ [compiled]) slots) := by
  cases node with
  | definition d => exact absurd rfl (h d)
  | _ => rfl

theorem runsInside_compileSlots
    (h : ∀ frame r, RunsAt (sc.enter frame selectors) (compile r)
      (compile' (sc.enter frame selectors) r))
    (slots : List Slot) (frame : Ruleset) (done : List Node) :
    RunsInside sc selectors frame (compileSlots compile frame done slots)
      (Stylesheet.compileSlots (Node.compileWith compile') (sc.enter · selectors) frame done slots)
      fun result last => last = result.1 := by
  induction slots generalizing frame done with
  | nil => exact RunsInside.pure rfl
  | cons slot slots ih =>
    cases slot with
    | expanded node => exact ih frame _
    | own node =>
      by_cases hnode : ∃ d, node = .definition d
      · obtain ⟨d, rfl⟩ := hnode
        exact ih frame _
      · rw [compileSlots_own fun d hd => hnode ⟨d, hd⟩,
          Stylesheet.compileSlots_own fun d hd => hnode ⟨d, hd⟩]
        refine RunsInside.step (runsAt_nodeWith (h frame) node) fun compiled => ?_
        cases compiled with
        | ruleset r =>
          exact RunsInside.step (RunsAt.withStore _) fun frame =>
            RunsInside.replaceTop (ih frame _)
        | _ => exact ih frame _

theorem runsAt_bubble (first : Nat) :
    RunsAt (sc.enter frame selectors) (bubble first) (Stylesheet.bubble selectors first) :=
  RunsAt.get fun s => RunsAt.withStore _ s

theorem runsInside_fillFrame
    (hexpand : ∀ frame call args c, RunsAt (sc.enter frame selectors) (expand call args c)
      (expand' (sc.enter frame selectors) call args c))
    (hcompile : ∀ frame r, RunsAt (sc.enter frame selectors) (compile r)
      (compile' (sc.enter frame selectors) r))
    (frame : Ruleset) :
    RunsInside sc selectors frame (fillFrame expand compile frame)
      (frame.fillFrame expand' (fun _ => Node.compileWith compile') sc selectors)
      fun _ _ => True := by
  refine RunsInside.get_get fun s => RunsInside.bind (runsInside_expandCalls hexpand _ _ _) ?_
  rintro ⟨_, slots⟩ frame rfl
  refine RunsInside.bind (runsInside_compileSlots hcompile slots frame []) ?_
  rintro ⟨_, rules⟩ frame rfl
  exact RunsInside.step (runsAt_bubble _) fun _ =>
    RunsInside.of_runsAt (RunsAt.withStore _) fun _ => trivial

theorem runsInside_captureInside
    (hexpand : ∀ frame call args c, RunsAt (sc.enter frame selectors) (expand call args c)
      (expand' (sc.enter frame selectors) call args c))
    (hcompile : ∀ frame r, RunsAt (sc.enter frame selectors) (compile r)
      (compile' (sc.enter frame selectors) r))
    (home : Ruleset) :
    RunsInside sc selectors home (captureInside expand compile home) (do
      let frame ← home.rebuild (captureFrames (home :: sc.frames) home.rules)
      frame.fillFrame expand' (fun _ => Node.compileWith compile') sc selectors) fun _ _ => True :=
  RunsInside.get fun _ => RunsInside.step (RunsAt.withStore _) fun frame =>
    RunsInside.replaceTop (runsInside_fillFrame hexpand hcompile frame)

theorem runsAt_compileWith
    (hexpand : ∀ frame selectors call args c, RunsAt (sc.enter frame selectors)
      (expand call args c) (expand' (sc.enter frame selectors) call args c))
    (hcompile : ∀ frame selectors r, RunsAt (sc.enter frame selectors) (compile r)
      (compile' (sc.enter frame selectors) r))
    (r : Ruleset) :
    RunsAt sc (compileWith expand compile r) (Ruleset.compileWith expand' compile' sc r) := by
  refine RunsAt.bind (ReadsAt.mapM readsAt_selector r.header.selectors).runsAt fun selectors =>
    RunsAt.bind (RunsAt.withStore _) fun _ =>
    RunsAt.get fun s => RunsAt.bind (RunsAt.withStore _) (fun frame => ?_) s
  have hinside := runsInside_captureInside (fun frame => hexpand frame selectors)
    fun frame => hcompile frame selectors
  change RunsAt sc (inFrame frame selectors (if sc.replacesImports r.header = true then _ else _))
    (if sc.replacesImports r.header = true then _ else _)
  split
  · exact RunsInside.inFrame (RunsInside.step (runsAt_replaceImports runsAt_compileImport _)
      fun rules => RunsInside.step (RunsAt.withStore _) fun home =>
      RunsInside.replaceTop (hinside home))
  · exact RunsInside.inFrame (hinside frame)

end Rulesets

section Knot

variable {expand : Expander} {expand' : Stylesheet.Expander} {budget : Nat}

/-- The two expanders agree in every scope that leaves room for that many expansions. -/
def AgreesWithin (budget : Nat) (expand : Expander) (expand' : Stylesheet.Expander) : Prop :=
  ∀ sc : Scope, sc.budget = budget → ∀ call args c,
    RunsAt sc (expand call args c) (expand' sc call args c)

theorem runsAt_nested (h : AgreesWithin budget expand expand') (levels : Nat)
    (hsc : sc.budget = budget) (r : Ruleset) :
    RunsAt sc (nested expand levels r) (expand'.nested levels sc r) := by
  induction levels generalizing sc r with
  | zero => exact RunsAt.throw _
  | succ levels ih =>
    exact runsAt_compileWith (fun frame selectors => h (sc.enter frame selectors) hsc)
      (fun _ _ r => ih (by exact hsc) r) r

theorem runsAt_compiler (h : AgreesWithin budget expand expand') (hsc : sc.budget = budget)
    (r : Ruleset) : RunsAt sc (compiler expand r) (expand'.compiler sc r) :=
  RunsAt.get_get fun s => runsAt_nested h _ hsc r s

/-- One round more than the scope leaves room for is enough: the last one refuses. -/
theorem agreesWithin_expandIn (budget : Nat) :
    AgreesWithin budget (expandIn (budget + 1)) (Stylesheet.Expander.upTo budget) := by
  induction budget with
  | zero =>
    intro sc hsc call args c
    refine RunsAt.get fun s => ?_
    change RunsFrom sc s (if sc.options.maxMixinDepth ≤ sc.depth then _ else _) _
    rw [if_pos (Nat.sub_eq_zero_iff_le.1 hsc)]
    exact RunsAt.throw _ s
  | succ budget ih =>
    intro sc hsc call args c
    have hsub : sc.options.maxMixinDepth - sc.depth = budget + 1 := hsc
    refine runsAt_expandWith (by omega) fun frame body => runsAt_compiler ih ?_ body
    change sc.options.maxMixinDepth - (sc.depth + 1) = budget
    omega

theorem runsAt_compileRuleset (r : Ruleset) : RunsAt sc (compileRuleset r) (r.compile sc) :=
  RunsAt.get fun s => runsAt_compiler (agreesWithin_expandIn _) rfl r s

theorem runsAt_compileNode (node : Node) : RunsAt sc (compileNode node) (node.compile sc) :=
  RunsAt.get fun s => runsAt_nodeWith (runsAt_compiler (agreesWithin_expandIn _) rfl) node s

theorem runsAt_compileCall (call : MixinCall) : RunsAt sc (compileCall call) (call.compile sc) :=
  RunsAt.get fun s => runsAt_callWith (agreesWithin_expandIn _ sc rfl) call s

theorem runsAt_tryStore (x : CompileM α) : RunsAt sc (tryStore x) x := by
  intro s
  rw [RunsFrom]
  cases hx : x.run.run s with
  | mk result t =>
    have hlift : (withStore x.run).run.run ⟨sc, s⟩ = (.ok result, ⟨sc, t⟩) := by
      change (Except.ok (x.run.run s).1, (⟨sc, (x.run.run s).2⟩ : Environment)) = _
      rw [hx]
    rw [tryStore, run_bind_ok hlift]
    cases result <;> rfl

/-- All frames have been popped at the end of a document that was compiled without any. -/
theorem runsAt_compileTree (rules : List Node) :
    RunsAt sc (compileTree rules) (Stylesheet.compileTree sc rules) := by
  refine (RunsAt.withStore _).bind fun document => (runsAt_compileRuleset document).bind
    fun compiled => RunsAt.get fun s => ?_
  dsimp only
  split
  · exact (RunsAt.withStore _).bind (fun _ => runsAt_tryStore _) s
  · exact RunsAt.throw _ s

theorem runsAt_compileDocument (rules : List Rule) :
    RunsAt sc (compileDocument rules) (Stylesheet.compileDocument sc rules) :=
  (RunsAt.withStore _).bind fun nodes => (runsAt_compileTree nodes).bind fun _ =>
    RunsAt.get_get fun s => RunsAt.pure _ s

end Knot

end Stylesheet.Environment
