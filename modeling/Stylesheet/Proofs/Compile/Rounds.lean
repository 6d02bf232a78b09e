import Stylesheet.Proofs.Compile.Observed
import Stylesheet.Proofs.Compile.Unreachable

/-!
# Compilations come to an end

The plain recursion of the compiler has no measure. A ruleset compiles what is nested in
it, and a mixin call compiles the rules of what it finds, unless too many mixins are being
expanded. Here the recursion is cut off after a number of rounds, whatever is compiled in
them. With enough rounds nothing is cut off: there is a number from which on the result is
that of the compiler, and does not change any more.

The compiler itself counts mixins and levels of nesting apart. A computation that does not
run out of either needs only finitely many rounds, since it goes through finitely many
steps, and the rounds of its steps have a maximum.
-/

namespace Stylesheet

/-- The expander that compiles the rules of a candidate with the given compiler, unless as many
mixins are being expanded as the options allow. -/
def Expander.guarded (compile : Compiler) : Expander := fun sc call args c =>
  if sc.depth < sc.options.maxMixinDepth then Expander.ofCompiler compile sc call args c
  else Expander.refuse sc call args c

/-- Compile rulesets with at most so many compilations inside each other. -/
def Ruleset.compileRounds : Nat → Compiler
  | 0 => fun _ _ => throw (.internal .nesting)
  | rounds + 1 =>
    Ruleset.compileWith (Expander.guarded (compileRounds rounds)) (compileRounds rounds)

section Settling

variable {α β : Type} {x : Nat → CompileM α} {y : CompileM α} {s : Store}

/-- From the store on, the computation does not run out of levels of nesting. -/
def Finishes (y : CompileM α) (s : Store) : Prop :=
  Ensures y s (fun _ _ => True) fun e _ => e ≠ .internal .nesting

/-- From the store on, the computations run like the given one from some number of rounds on,
provided that it does not run out of levels. -/
def Settles (x : Nat → CompileM α) (y : CompileM α) (s : Store) : Prop :=
  Finishes y s → ∃ least, ∀ rounds, least ≤ rounds → (x rounds).run.run s = y.run.run s

namespace Settles

theorem same (y : CompileM α) (s : Store) : Settles (fun _ => y) y s :=
  fun _ => ⟨0, fun _ _ => rfl⟩

/-- The computations of a bind settle once both of its steps do. -/
theorem bind {f : Nat → α → CompileM β} {g : α → CompileM β} (hx : Settles x y s)
    (hf : ∀ a t, y.run.run s = (.ok a, t) → Settles (fun rounds => f rounds a) (g a) t) :
    Settles (fun rounds => x rounds >>= f rounds) (y >>= g) s := by
  intro hfinishes
  have hy : Ensures y s (fun a t => Finishes (g a) t) fun e _ => e ≠ .internal .nesting :=
    ensures_bind.1 hfinishes
  obtain ⟨least, hleast⟩ := hx (hy.mono (fun _ _ _ => trivial) fun _ _ h => h)
  cases hrun : y.run.run s with
  | mk result t =>
    cases result with
    | error e =>
      refine ⟨least, fun rounds hrounds => ?_⟩
      rw [run_bind_error hrun, run_bind_error ((hleast rounds hrounds).trans hrun)]
    | ok a =>
      obtain ⟨least', hleast'⟩ := hf a t hrun (hy.of_ok hrun)
      refine ⟨max least least', fun rounds hrounds => ?_⟩
      rw [run_bind_ok hrun, run_bind_ok ((hleast rounds (by omega)).trans hrun)]
      exact hleast' rounds (by omega)

/-- A step that is the same in all rounds. -/
theorem step {z : CompileM β} {f : Nat → β → CompileM α} {g : β → CompileM α}
    (hf : ∀ a t, z.run.run s = (.ok a, t) → Settles (fun rounds => f rounds a) (g a) t) :
    Settles (fun rounds => z >>= f rounds) (z >>= g) s :=
  bind (same z s) hf

/-- The first round may be left out. -/
theorem succ (h : Settles (fun rounds => x (rounds + 1)) y s) : Settles x y s := by
  intro hfinishes
  obtain ⟨least, hleast⟩ := h hfinishes
  refine ⟨least + 1, fun rounds hrounds => ?_⟩
  obtain ⟨rounds, rfl⟩ : ∃ k, rounds = k + 1 := ⟨rounds - 1, by omega⟩
  exact hleast rounds (by omega)

end Settles

end Settling

/-- In scopes with the given budget, the compilers settle on the given one. -/
def Compiler.SettleOn (budget : Nat) (compile : Nat → Compiler) (final : Compiler) : Prop :=
  ∀ sc r s, sc.budget = budget → Settles (fun rounds => compile rounds sc r) (final sc r) s

/-- In scopes with the given budget, the expanders settle on the given one. -/
def Expander.SettleOn (budget : Nat) (expand : Nat → Expander) (final : Expander) : Prop :=
  ∀ sc call args c s, sc.budget = budget →
    Settles (fun rounds => expand rounds sc call args c) (final sc call args c) s

section Steps

variable {budget : Nat} {compile : Nat → Compiler} {finalCompile : Compiler}
  {expand : Nat → Expander} {finalExpand : Expander} {sc : Scope}

theorem settles_expandAll {expand : Nat → Candidate → CompileM (List Node)}
    {final : Candidate → CompileM (List Node)}
    (h : ∀ c s, Settles (fun rounds => expand rounds c) (final c) s) (candidates : List Candidate)
    (s : Store) :
    Settles (fun rounds => expandAll (expand rounds) candidates)
      (expandAll final candidates) s := by
  induction candidates generalizing s with
  | nil => exact .same _ s
  | cons c candidates ih =>
    exact (h c s).bind fun nodes t _ => (ih t).bind fun more u _ => .same _ u

theorem settles_call (h : Expander.SettleOn budget expand finalExpand) (hsc : sc.budget = budget)
    (call : MixinCall) (s : Store) :
    Settles (fun rounds => call.compileWith (expand rounds) sc) (call.compileWith finalExpand sc)
      s := by
  refine .step fun args t _ => .step fun found u _ => ?_
  cases found with
  | none => exact .same _ u
  | some candidates =>
    dsimp only
    split
    · exact .same _ u
    · exact (settles_expandAll (fun c s => h sc call args c s hsc) _ u).bind fun nodes v _ =>
        .same _ v

theorem settles_expandCalls (h : Expander.SettleOn budget expand finalExpand)
    {inside : Ruleset → Scope} (hinside : ∀ frame, (inside frame).budget = budget)
    (nodes : List Node) (frame : Ruleset) (done : List Slot) (s : Store) :
    Settles (fun rounds => expandCalls (expand rounds) inside frame done nodes)
      (expandCalls finalExpand inside frame done nodes) s := by
  induction nodes generalizing frame done s with
  | nil => exact .same _ s
  | cons node nodes ih =>
    cases node with
    | call c =>
      exact (settles_call h (hinside frame) c s).bind fun results t _ => .step fun frame u _ =>
        ih frame _ u
    | _ => exact ih frame _ s

theorem settles_compileBody (h : Compiler.SettleOn budget compile finalCompile)
    (hsc : sc.budget = budget) (rules : List Node) (s : Store) :
    Settles (fun rounds => compileBody (compile rounds) sc rules)
      (compileBody finalCompile sc rules) s :=
  .step fun body t _ => (h sc body t hsc).bind fun _ u _ => .same _ u

theorem settles_compileMedia (h : Compiler.SettleOn budget compile finalCompile)
    (hsc : sc.budget = budget) (head : MediaHead) (rules : List Node) (s : Store) :
    Settles (fun rounds => compileMedia (compile rounds) sc head rules)
      (compileMedia finalCompile sc head rules) s :=
  (settles_compileBody h hsc rules s).bind fun _ t _ => .same _ t

theorem settles_node (h : Compiler.SettleOn budget compile finalCompile)
    (hsc : sc.budget = budget) (n : Node) (s : Store) :
    Settles (fun rounds => n.compileWith (compile rounds) sc)
      (n.compileWith finalCompile sc) s := by
  cases n with
  | ruleset r => exact (h sc r s hsc).bind fun compiled t _ => .same _ t
  | media head rules => exact settles_compileMedia h hsc head rules s
  | block index =>
    refine .step fun store t _ => ?_
    cases store.blocks[index]? with
    | none => exact .same _ t
    | some b => exact settles_compileMedia h hsc b.head b.rules t
  | directive head rules =>
    cases rules with
    | none => exact .same _ s
    | some rules => exact (settles_compileBody h hsc rules s).bind fun body t _ => .same _ t
  | _ => exact .same _ s

theorem settles_compileSlots (h : Compiler.SettleOn budget compile finalCompile)
    {inside : Ruleset → Scope} (hinside : ∀ frame, (inside frame).budget = budget)
    (slots : List Slot) (frame : Ruleset) (done : List Node) (s : Store) :
    Settles (fun rounds => compileSlots (Node.compileWith (compile rounds)) inside frame done slots)
      (compileSlots (Node.compileWith finalCompile) inside frame done slots) s := by
  induction slots generalizing frame done s with
  | nil => exact .same _ s
  | cons slot slots ih =>
    cases slot with
    | expanded n => exact ih frame _ s
    | own n =>
      by_cases hn : ∃ d, n = .definition d
      · obtain ⟨d, rfl⟩ := hn
        exact ih frame _ s
      · simp only [compileSlots_own fun d hd => hn ⟨d, hd⟩]
        refine (settles_node h (hinside frame) n s).bind fun compiled t _ => ?_
        cases compiled with
        | ruleset r => exact .step fun frame u _ => ih frame _ u
        | _ => exact ih frame _ t

theorem settles_compileWith (hexpand : Expander.SettleOn budget expand finalExpand)
    (hcompile : Compiler.SettleOn budget compile finalCompile) :
    Compiler.SettleOn budget (fun rounds => Ruleset.compileWith (expand rounds) (compile rounds))
      (Ruleset.compileWith finalExpand finalCompile) := by
  intro sc r s hsc
  simp only [Ruleset.compileWith_eq]
  have hinside : ∀ selectors frame, (sc.enter frame selectors).budget = budget := fun _ _ => hsc
  refine .step fun selectors t _ => .step fun _ u _ => .step fun home v _ => ?_
  refine .step fun frame w _ => ?_
  refine .step fun store w' _ => ?_
  refine (settles_expandCalls hexpand (hinside selectors) _ _ _ _).bind fun filled t' _ => ?_
  refine (settles_compileSlots hcompile (hinside selectors) _ _ _ _).bind fun result u' _ => ?_
  exact .same _ u'

/-- A budget of one more allows an expansion, in which the budget is one less. -/
theorem settles_guarded (h : Compiler.SettleOn budget compile finalCompile) :
    Expander.SettleOn (budget + 1) (fun rounds => Expander.guarded (compile rounds))
      (Expander.ofCompiler finalCompile) := by
  intro sc call args c s hsc
  have hdepth : sc.depth < sc.options.maxMixinDepth := by
    rw [Scope.budget] at hsc
    omega
  simp only [Expander.guarded, if_pos hdepth]
  refine .step fun _ t _ => .step fun bindings u _ => .step fun frame v _ => .step fun body w _ =>
    .step fun store w' _ => ?_
  refine (h _ body w' ?_).bind fun compiled t' _ => ?_
  · rw [Scope.budget] at hsc ⊢
    dsimp only
    omega
  · split <;> exact .same _ t'

theorem settles_refuse :
    Expander.SettleOn 0 (fun rounds => Expander.guarded (compile rounds)) Expander.refuse := by
  intro sc call args c s hsc
  have hdepth : ¬ sc.depth < sc.options.maxMixinDepth := by
    rw [Scope.budget] at hsc
    omega
  simp only [Expander.guarded, if_neg hdepth]
  exact .same _ s

end Steps

theorem settles_nested {budget : Nat} {expand : Expander}
    (h : Expander.SettleOn budget (fun rounds => Expander.guarded (Ruleset.compileRounds rounds))
      expand) (levels : Nat) :
    Compiler.SettleOn budget Ruleset.compileRounds (expand.nested levels) := by
  induction levels with
  | zero =>
    intro sc r s _ hfinishes
    exact absurd rfl (ensures_throw.1 hfinishes)
  | succ levels ih =>
    intro sc r s hsc
    exact .succ (settles_compileWith h ih sc r s hsc)

theorem settles_compiler {budget : Nat} {expand : Expander}
    (h : Expander.SettleOn budget (fun rounds => Expander.guarded (Ruleset.compileRounds rounds))
      expand) : Compiler.SettleOn budget Ruleset.compileRounds expand.compiler := by
  intro sc r s hsc
  exact settles_nested h (sc.levels s r.rules) sc r s hsc

theorem settles_upTo (budget : Nat) :
    Expander.SettleOn budget (fun rounds => Expander.guarded (Ruleset.compileRounds rounds))
      (Expander.upTo budget) := by
  induction budget with
  | zero => exact settles_refuse
  | succ budget ih => exact settles_guarded (settles_compiler ih)

/-- With enough rounds, a ruleset is compiled as the compiler does it. -/
theorem settles_compile (sc : Scope) (r : Ruleset) (s : Store) :
    Settles (fun rounds => Ruleset.compileRounds rounds sc r) (r.compile sc) s :=
  settles_compiler (settles_upTo sc.budget) sc r s rfl

section Documents

variable {rules : List Rule} {options : Options} {sources : Option Sources}

/-- Compile a document with the given compiler, join its selectors, and print it. -/
def compileDocumentWith (compile : Compiler) (sc : Scope) (rules : List Rule) :
    CompileM String := do
  let root ← Ruleset.document (← numberRules rules)
  let compiled ← compile sc root
  record .joining
  let joined ← compiled.join
  return (← get).css sc.options.compress joined

theorem compileToCssWith_eq (compile : Compiler) :
    compileToCssWith compile rules options sources =
      ((compileDocumentWith compile { options, sources } rules).run.run {}).1 := rfl

theorem compileDocumentWith_compile {sc : Scope} (hframes : sc.frames = []) :
    compileDocumentWith (fun sc r => r.compile sc) sc rules = compileDocument sc rules := by
  simp only [compileDocumentWith, compileDocument, compileTree, bind_assoc, hframes,
    List.isEmpty_nil, if_true]

theorem settles_compileDocument {sc : Scope} (hframes : sc.frames = []) (s : Store) :
    Settles (fun rounds => compileDocumentWith (Ruleset.compileRounds rounds) sc rules)
      (compileDocument sc rules) s := by
  rw [← compileDocumentWith_compile hframes]
  exact .step fun nodes t _ => .step fun root u _ =>
    (settles_compile sc root u).bind fun compiled v _ => .same _ v

/-- With enough rounds, a document is compiled as the compiler does it. -/
theorem exists_rounds (hrules : ∀ rule ∈ rules, rule.Fits .hasElements)
    (hsources : ∀ table, sources = some table →
      ∀ entry ∈ table, ∀ rule ∈ entry.2, rule.Fits .hasElements) (options : Options) :
    ∃ least, ∀ rounds, least ≤ rounds →
      compileToCssWith (Ruleset.compileRounds rounds) rules options sources =
        compileToCss rules options sources := by
  have hfinishes : Finishes (compileDocument { options, sources } rules) {} := by
    refine (ensures_compileDocument hrules hsources rfl).mono (fun _ _ _ => trivial) ?_
    rintro e t he rfl
    cases he
  obtain ⟨least, hleast⟩ := settles_compileDocument rfl {} hfinishes
  exact ⟨least, fun rounds hrounds => congrArg Prod.fst (hleast rounds hrounds)⟩

/-- Every compilation of a style sheet that was read comes to an end, whatever its sources import
and its mixins call: the plain recursion gives the result of the compiler from some number of rounds
on, and that is a style sheet or a reported error, never that the rounds ran out. -/
theorem compileToCss_terminates (hrules : ∃ json, Rule.readList json = .ok rules)
    (hsources : ∀ table, sources = some table →
      ∀ entry ∈ table, ∃ json, Rule.readList json = .ok entry.2) (options : Options) :
    (∃ least, ∀ rounds, least ≤ rounds →
      compileToCssWith (Ruleset.compileRounds rounds) rules options sources =
        compileToCss rules options sources) ∧
      ((∃ css, compileToCss rules options sources = .ok css) ∨
        ∃ e, compileToCss rules options sources = .error e ∧ e.isReported = true) := by
  obtain ⟨json, hjson⟩ := hrules
  have hfits : ∀ table, sources = some table →
      ∀ entry ∈ table, ∀ rule ∈ entry.2, rule.Fits .hasElements := by
    intro table htable entry hentry
    obtain ⟨json, hjson⟩ := hsources table htable entry hentry
    exact Rule.fits_readList hjson
  have hensures : Ensures (compileDocument { options, sources } rules) {} (fun _ _ => True)
      fun e _ => e.isReported = true :=
    ensures_compileDocument (Rule.fits_readList hjson) hfits rfl
  constructor
  · exact exists_rounds (Rule.fits_readList hjson) hfits options
  · cases hresult : compileToCss rules options sources with
    | ok css => exact .inl ⟨css, rfl⟩
    | error e =>
      exact .inr ⟨e, rfl, hensures.of_error
        (t := ((compileDocument { options, sources } rules).run.run {}).2) (Prod.ext hresult rfl)⟩

/-- A mixin that calls itself, in a source that imports itself from a ruleset. -/
theorem compileToCss_terminates_recursive_mixin :
    let call : Rule := .call { selector := { elements := [{ value := ".m" }] } }
    let table : Sources := [("a", [
      .definition { name := { elements := [{ value := ".m" }] } } [call],
      .ruleset { selectors := [{ elements := [{ value := ".x" }] }] }
        [.inclusion { path := "a" }, call]])]
    compileToCss [.inclusion { path := "a" }] { maxMixinDepth := 2 } (some table) =
        .error (.mixinRecursion ".m" 2 {}) ∧
      ∃ least, ∀ rounds, least ≤ rounds →
        compileToCssWith (Ruleset.compileRounds rounds) [.inclusion { path := "a" }]
          { maxMixinDepth := 2 } (some table) = .error (.mixinRecursion ".m" 2 {}) := by
  intro call table
  have herror : compileToCss [.inclusion { path := "a" }] { maxMixinDepth := 2 } (some table) =
      .error (.mixinRecursion ".m" 2 {}) := by decide +kernel
  refine ⟨herror, ?_⟩
  rw [← herror]
  refine (compileToCss_terminates ?_ ?_ _).1
  · exact ⟨.array [.object [("type", .string "import"), ("path", .string "a")]], rfl⟩
  · rintro _ ⟨⟩ entry hentry
    obtain rfl := List.mem_singleton.1 hentry
    exact ⟨.array [
      .object [("type", .string "mixin_definition"), ("name", .string ".m"),
        ("rules", .array [.object [("type", .string "mixin_call"), ("selector", .string ".m")]])],
      .object [("type", .string "ruleset"), ("selectors", .array [.string ".x"]),
        ("rules", .array [
          .object [("type", .string "import"), ("path", .string "a")],
          .object [("type", .string "mixin_call"), ("selector", .string ".m")]])]], rfl⟩

end Documents

end Stylesheet
