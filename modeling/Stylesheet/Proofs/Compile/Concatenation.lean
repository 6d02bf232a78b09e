import Stylesheet.Proofs.Compile.Levels
import Stylesheet.Rule.Decoder
import Mathlib.Data.List.DropRight

/-!
# The rules of a compiled ruleset

The rules of a compiled ruleset are those that its nodes became, one after the other. A
call becomes what its expansion adds to the frame, as it is. A mixin definition stays, with the
frames it has hold of, and every other node becomes one node of its kind.

Each node is compiled in the frame of the ruleset at that moment. That frame has what the
nodes became up to the last ruleset among them, and shows the rest as it was when the calls were
expanded: only a ruleset is put back once it is compiled.
-/

namespace Stylesheet

namespace Node

/-- The kind of a node. A block is a media rule that was compiled. -/
def kind : Node → Rule.Kind
  | .declaration _ => .declaration
  | .ruleset _ => .ruleset
  | .definition _ => .definition
  | .call _ => .call
  | .inclusion _ => .inclusion
  | .comment _ => .comment
  | .media _ _ | .block _ => .media
  | .directive _ _ => .directive

theorem ensures_kind_of_compileMedia (compile : Compiler) (sc : Scope) (head : MediaHead)
    (rules : List Node) (s : Store) :
    Ensures (compileMedia compile sc head rules) s (fun m _ => m.kind = .media)
      fun _ _ => True :=
  ensures_bind.2 (ensures_of_forall (fun _ _ => rfl) fun _ _ => trivial)

/-- A node is compiled to a node of its kind. -/
theorem ensures_kind_of_compile (compile : Compiler) (sc : Scope) (n : Node) (s : Store) :
    Ensures (n.compileWith compile sc) s (fun m _ => m.kind = n.kind) fun _ _ => True := by
  cases n with
  | declaration d | ruleset r =>
    exact ensures_bind.2 (ensures_of_forall (fun _ _ => rfl) fun _ _ => trivial)
  | media head rules => exact ensures_kind_of_compileMedia compile sc head rules s
  | block index =>
    rw [compileWith, ensures_bind, ensures_get]
    cases s.blocks[index]? with
    | none => exact rfl
    | some b => exact ensures_kind_of_compileMedia compile sc b.head b.rules s
  | directive head rules =>
    cases rules with
    | none => exact rfl
    | some rules =>
      exact ensures_bind.2 (ensures_of_forall (fun _ _ => rfl) fun _ _ => trivial)
  | call c => trivial
  | _ => exact rfl

end Node

/-- A node that was compiled. -/
structure Compilation where
  node : Node
  /-- The frame of the ruleset at that moment. -/
  frame : Ruleset
  /-- What the node was compiled to. -/
  result : Node
  /-- The store before the node was compiled. -/
  start : Store
  /-- The store after the node was compiled. -/
  finish : Store

/-- What became of a node of a ruleset. -/
inductive Fate where
  | expanded (e : Expansion)
  | defined (d : Definition)
  | compiled (c : Compilation)

namespace Fate

/-- What became of the node while the calls were expanded. -/
def turn : Fate → Turn
  | .expanded e => .expanded e
  | .defined d => .own (.definition d)
  | .compiled c => .own c.node

/-- The node itself. -/
def source (f : Fate) : Node := f.turn.source

/-- The nodes that stood in its place when the calls were expanded. -/
def waiting (f : Fate) : List Node := f.turn.nodes

/-- The nodes that stand in its place in the end. -/
def result : Fate → List Node
  | .expanded e => e.kept
  | .defined d => [.definition d]
  | .compiled c => [c.result]

/-- The stores before and after the node was compiled. -/
def runs : Fate → List (Store × Store)
  | .compiled c => [(c.start, c.finish)]
  | _ => []

/-- Whether a ruleset was compiled. -/
def isRuleset : Fate → Bool
  | .compiled c => c.result.kind = .ruleset
  | _ => false

/-- The rules of a frame after some fates, and before some nodes. What was compiled shows up to the
last ruleset. -/
def shown (before : List Fate) (rest : List Node) : List Node :=
  (before.rdropWhile fun f => !f.isRuleset).flatMap result ++
    (before.rtakeWhile fun f => !f.isRuleset).flatMap waiting ++ rest

variable {before : List Fate} {f : Fate} {rest : List Node}

theorem shown_concat_of_isRuleset (h : f.isRuleset = true) :
    shown (before ++ [f]) rest = (before ++ [f]).flatMap result ++ rest := by
  rw [shown, List.rdropWhile_concat_neg _ _ _ (by simpa using h),
    List.rtakeWhile_concat_neg _ _ _ (by simpa using h), List.flatMap_nil, List.append_nil]

theorem shown_concat_of_not_isRuleset (h : f.isRuleset = false) :
    shown (before ++ [f]) rest = shown before (f.waiting ++ rest) := by
  rw [shown, shown, List.rdropWhile_concat_pos _ _ _ (by simpa using h),
    List.rtakeWhile_concat_pos _ _ _ (by simpa using h), List.flatMap_append]
  simp

end Fate

/-- The fates of some nodes, behind those before them. Each node that was compiled saw the frame at
that moment. -/
structure Compiles (compile : NodeCompiler) (inside : Ruleset → Scope) (before fates : List Fate) :
    Prop where
  other : ∀ c, .compiled c ∈ fates → ∀ d, c.node ≠ .definition d
  frame : ∀ front c after, fates = front ++ .compiled c :: after →
    c.frame.rules = Fate.shown (before ++ front) (c.node :: after.flatMap Fate.waiting)
  result : ∀ c, .compiled c ∈ fates →
    (compile (inside c.frame) c.node).run.run c.start = (.ok c.result, c.finish)

namespace Compiles

variable {compile : NodeCompiler} {inside : Ruleset → Scope} {before fates : List Fate}

theorem nil : Compiles compile inside before [] where
  other := by simp
  frame := by simp
  result := by simp

/-- A node that is not compiled comes before. -/
theorem cons {f : Fate} (hf : ∀ c, f ≠ .compiled c)
    (h : Compiles compile inside (before ++ [f]) fates) :
    Compiles compile inside before (f :: fates) where
  other c hc := h.other c ((List.mem_cons.1 hc).resolve_left fun hcf => hf c hcf.symm)
  frame := by
    intro front c after hfates
    cases front with
    | nil => exact absurd (List.cons.inj hfates).1 (hf c)
    | cons _ front =>
      obtain ⟨rfl, hrest⟩ := List.cons.inj hfates
      simpa using h.frame front c after hrest
  result c hc := h.result c ((List.mem_cons.1 hc).resolve_left fun hcf => hf c hcf.symm)

/-- A node that is compiled comes before. -/
theorem cons_compiled {c : Compilation} (hother : ∀ d, c.node ≠ .definition d)
    (hframe : c.frame.rules = Fate.shown before (c.node :: fates.flatMap Fate.waiting))
    (hrun : (compile (inside c.frame) c.node).run.run c.start = (.ok c.result, c.finish))
    (h : Compiles compile inside (before ++ [.compiled c]) fates) :
    Compiles compile inside before (.compiled c :: fates) where
  other c' hc' := by
    rcases List.mem_cons.1 hc' with hc' | hc'
    · cases hc'
      exact hother
    · exact h.other c' hc'
  frame := by
    intro front c' after hfates
    cases front with
    | nil =>
      cases hfates
      simpa using hframe
    | cons _ front =>
      obtain ⟨rfl, hrest⟩ := List.cons.inj hfates
      simpa using h.frame front c' after hrest
  result c' hc' := by
    rcases List.mem_cons.1 hc' with hc' | hc'
    · cases hc'
      exact hrun
    · exact h.result c' hc'

end Compiles

/-- From `s` to `t`, some turns came to their fates, behind those before them, and these gave the
nodes. -/
def Fated (compile : NodeCompiler) (inside : Ruleset → Scope) (before : List Fate)
    (turns : List Turn) (s : Store) (nodes : List Node) (t : Store) : Prop :=
  ∃ fates, fates.map Fate.turn = turns ∧ Compiles compile inside before fates ∧
    s.Passes (fates.flatMap Fate.runs) t ∧ nodes = (before ++ fates).flatMap Fate.result

section Slots

variable {compile : NodeCompiler} {inside : Ruleset → Scope} {before : List Fate}
  {turns : List Turn} {nodes : List Node} {frame : Ruleset} {s t u : Store} {f : Fate}

theorem Fated.cons (h : Fated compile inside (before ++ [f]) turns t nodes u)
    (hcons : ∀ fates, fates.map Fate.turn = turns →
      Compiles compile inside (before ++ [f]) fates → Compiles compile inside before (f :: fates))
    (hpasses : ∀ runs, t.Passes runs u → s.Passes (f.runs ++ runs) u) :
    Fated compile inside before (f.turn :: turns) s nodes u := by
  obtain ⟨fates, hturns, hcompiles, hruns, hnodes⟩ := h
  refine ⟨f :: fates, ?_, hcons fates hturns hcompiles, hpasses _ hruns, ?_⟩
  · rw [List.map_cons, hturns]
  · simpa using hnodes

/-- A node that is not compiled does nothing to the frame and to the store. -/
theorem Fated.cons_other (h : Fated compile inside (before ++ [f]) turns s nodes u)
    (hf : ∀ c, f ≠ .compiled c) : Fated compile inside before (f.turn :: turns) s nodes u := by
  refine h.cons (fun fates _ hcompiles => hcompiles.cons hf) fun runs hruns => ?_
  cases f with
  | compiled c => exact absurd rfl (hf c)
  | _ => exact hruns

/-- A frame shows a node that is not a ruleset as it was. -/
theorem Fate.shown_of_not_isRuleset (hf : f.isRuleset = false)
    (hframe : frame.rules = Fate.shown before ((f.turn :: turns).flatMap Turn.nodes)) :
    frame.rules = Fate.shown (before ++ [f]) (turns.flatMap Turn.nodes) := by
  rw [Fate.shown_concat_of_not_isRuleset hf, hframe, List.flatMap_cons, Fate.waiting]

theorem flatMap_result_concat (before : List Fate) (f : Fate) :
    before.flatMap Fate.result ++ f.result = (before ++ [f]).flatMap Fate.result := by
  simp

/-- Compiling the slots brings each node to its fate, one after the other. -/
theorem ensures_compileSlots
    (hframe : frame.rules = Fate.shown before (turns.flatMap Turn.nodes)) (s : Store) :
    Ensures
      (compileSlots compile inside frame (before.flatMap Fate.result) (turns.flatMap Turn.slots)) s
      (fun result t => Fated compile inside before turns s result.2 t) fun _ _ => True := by
  induction turns generalizing frame before s with
  | nil => exact ⟨[], rfl, .nil, .nil (.refl s), by simp⟩
  | cons turn turns ih =>
    cases turn with
    | expanded e =>
      have hnext := Fate.shown_of_not_isRuleset (f := .expanded e) rfl hframe
      rw [List.flatMap_cons, Turn.slots, compileSlots_expanded]
      have hrest := ih hnext s
      rw [← flatMap_result_concat] at hrest
      exact hrest.mono (fun _ _ h => h.cons_other fun c hc => by cases hc) fun _ _ _ => trivial
    | own node =>
      by_cases hdefinition : ∃ d, node = .definition d
      · obtain ⟨d, rfl⟩ := hdefinition
        have hnext := Fate.shown_of_not_isRuleset (f := .defined d) rfl hframe
        have hrest := ih hnext s
        rw [← flatMap_result_concat] at hrest
        exact hrest.mono (fun _ _ h => h.cons_other fun c hc => by cases hc) fun _ _ _ => trivial
      · have hother : ∀ d, node ≠ .definition d := fun d hd => hdefinition ⟨d, hd⟩
        rw [List.flatMap_cons, Turn.slots, List.singleton_append, compileSlots_own hother,
          ensures_bind]
        refine (Ensures.run _ s).mono (fun compiled t hrun => ?_) fun _ _ _ => trivial
        -- The node is shown as it was, whatever comes of the nodes behind it.
        have hcons : ∀ fates, fates.map Fate.turn = turns →
            Compiles compile inside (before ++ [.compiled ⟨node, frame, compiled, s, t⟩]) fates →
            Compiles compile inside before (.compiled ⟨node, frame, compiled, s, t⟩ :: fates) := by
          intro fates hturns h
          refine h.cons_compiled hother ?_ hrun
          rw [← hturns, List.flatMap_cons, List.flatMap_map] at hframe
          exact hframe
        have hkeeps : (Fate.compiled ⟨node, frame, compiled, s, t⟩).isRuleset = false →
            frame.rules = Fate.shown (before ++ [.compiled ⟨node, frame, compiled, s, t⟩])
              (turns.flatMap Turn.nodes) := fun hf => Fate.shown_of_not_isRuleset hf hframe
        cases compiled with
        | ruleset r =>
          refine ensures_bind.2 (ensures_rebuild fun next u _ hnext hquiet => ?_)
          have hshown : next.rules = Fate.shown
              (before ++ [.compiled ⟨node, frame, .ruleset r, s, t⟩])
              (turns.flatMap Turn.nodes) := by
            rw [Fate.shown_concat_of_isRuleset rfl, hnext, Turn.map_node_flatMap_slots]
            simp [Fate.result]
          have hrest := ih hshown u
          rw [← flatMap_result_concat] at hrest
          refine hrest.mono (fun _ v h => h.cons hcons fun runs hruns => ?_) fun _ _ _ => trivial
          exact .cons (.refl s) (hruns.after_quiet hquiet)
        | _ =>
          have hrest := ih (hkeeps rfl) t
          rw [← flatMap_result_concat] at hrest
          exact hrest.mono (fun _ u h => h.cons hcons fun runs hruns => .cons (.refl s) hruns)
            fun _ _ _ => trivial

end Slots

/-- From `s` to `t`, a ruleset was compiled. Its nodes, with the imports replaced and with the
frames that definitions take hold of, came to the given fates. -/
structure Ruleset.ComesTo (sc : Scope) (r : Ruleset) (s : Store) (selectors : List Selector)
    (home : Ruleset) (fates : List Fate) (compiled : Ruleset) (t : Store) : Prop where
  filled : r.header.selectors.mapM sc.selector = .ok selectors
  sources : fates.map Fate.source = captureFrames (home :: sc.frames) home.rules
  rules : compiled.rules = fates.flatMap Fate.result
  definition : ∀ d, .defined d ∈ fates → d.closure.isSome = true
  /-- A call sees what the nodes before it became, and the rest of the nodes as they are. -/
  call : ∀ before e after, fates = before ++ .expanded e :: after →
    e.frame.rules = before.flatMap Fate.waiting ++ .call e.call :: after.map Fate.source ∧
    (e.call.compile (sc.enter e.frame selectors)).run.run e.start = (.ok e.returned, e.finish)
  /-- A node that is neither a call nor a definition is compiled to one of its kind. -/
  node : ∀ before c after, fates = before ++ .compiled c :: after →
    c.frame.rules = Fate.shown before (c.node :: after.flatMap Fate.waiting) ∧
    (c.node.compile (sc.enter c.frame selectors)).run.run c.start = (.ok c.result, c.finish) ∧
    c.result.kind = c.node.kind ∧ (∀ d, c.node ≠ .definition d) ∧ ∀ call, c.node ≠ .call call
  /-- First the imports were replaced, then the calls were expanded, then the other nodes were
  compiled, and at last the blocks were wrapped. -/
  stores : ∃ u v, (r.homeFrame sc selectors).run.run
      (s.record (.compiling selectors r.rules.length)) = (.ok home, u) ∧
    u.Passes (fates.flatMap (fun f => f.turn.runs) ++ fates.flatMap Fate.runs) v ∧
    ((bubble selectors u.blocks.length).run v).2.Quiet t

/-- From the point on where the calls are expanded, the nodes come to their fates. -/
theorem ensures_finish {sc : Scope} {r : Ruleset} {s t : Store} {turns : List Turn} {w : Unrolled}
    (h : w.Records sc.expander sc r s turns t) :
    Ensures (w.finish Node.compile sc) t
      (fun compiled u => ∃ fates, r.ComesTo sc s w.selectors w.home fates compiled u)
      fun _ _ => True := by
  obtain ⟨start, hhome, hpasses, hfirst⟩ := h.home
  rw [Unrolled.finish, h.slots, ensures_bind]
  have hframe : w.frame.rules = Fate.shown [] (turns.flatMap Turn.nodes) := h.frame
  refine (ensures_compileSlots hframe t).mono ?_ fun _ _ _ => trivial
  rintro ⟨last, rules⟩ u ⟨fates, rfl, hcompiles, hruns, hrules⟩
  refine ensures_bind.2 (ensures_lift.2 (ensures_rebuild fun compiled v _ hcompiled hquiet => ?_))
  have hsources : fates.map Fate.source = captureFrames (w.home :: sc.frames) w.home.rules := by
    rw [← h.unrolls.sources, List.map_map]
    rfl
  refine ⟨fates, h.selectors, hsources, hcompiled.trans hrules, ?_, ?_, ?_, start, u, hhome, ?_, ?_⟩
  · intro d hd
    refine allCaptured_captureFrames (w.home :: sc.frames) w.home.rules d ?_
    exact hsources ▸ List.mem_map.2 ⟨_, hd, rfl⟩
  · intro before e after hfates
    have hturns : fates.map Fate.turn =
        before.map Fate.turn ++ .expanded e :: after.map Fate.turn := by
      rw [hfates, List.map_append]
      rfl
    refine ⟨?_, h.unrolls.returned e (hturns ▸ by simp)⟩
    have hseen := h.unrolls.frame _ e _ hturns
    rwa [List.flatMap_map, List.map_map] at hseen
  · intro before c after hfates
    have hmem : .compiled c ∈ fates := hfates ▸ by simp
    have hrun := hcompiles.result c hmem
    refine ⟨hcompiles.frame before c after hfates, hrun, ?_, hcompiles.other c hmem, ?_⟩
    · exact (Node.ensures_kind_of_compile _ _ c.node c.start).of_ok hrun
    · exact h.unrolls.own c.node (List.mem_map.2 ⟨_, hmem, rfl⟩)
  · rw [List.flatMap_map] at hpasses
    exact hpasses.append hruns
  · rwa [hfirst] at hquiet

/-- The rules of a compiled ruleset are those that the nodes of the ruleset became, in their order.
A call became what its expansion returned, without the variables that the frame declared at that
moment. A definition stayed, with the frames that it has hold of. Any other node became the one
node of its kind that it is compiled to. -/
theorem Ruleset.compile_comesTo {bound : Nat} {sc : Scope} {r compiled : Ruleset} {s t : Store}
    (hr : Node.Grounded bound s r.rules)
    (hrun : (r.compile sc).run.run s = (.ok compiled, t)) :
    ∃ selectors home fates, r.ComesTo sc s selectors home fates compiled t := by
  rw [run_compile_eq hr] at hrun
  have hensures : Ensures (r.unroll sc.expander sc >>= fun w => w.finish Node.compile sc) s
      (fun compiled t => ∃ selectors home fates, r.ComesTo sc s selectors home fates compiled t)
      fun _ _ => True := by
    refine ensures_bind.2 ((ensures_unroll sc.expander sc r s).mono ?_ fun _ _ _ => trivial)
    rintro w u ⟨turns, hrecords⟩
    exact (ensures_finish hrecords).mono (fun _ _ hfates => ⟨w.selectors, w.home, hfates⟩)
      fun _ _ _ => trivial
  exact hensures.of_ok hrun

/-- A call between other nodes, of which one declares a variable of its expansion. -/
theorem Ruleset.compile_comesTo_call_between :
    let declare (name value : String) : Rule := .declaration { name, value := .read value }
    let selector (value : String) : Selector := { elements := [⟨.compound, value⟩] }
    let rules : List Rule := [
      .definition { name := selector ".m" }
        [declare "@a" "2", declare "@b" "3", .ruleset { selectors := [selector ".n"] } []],
      .media { features := "print" } [declare "x" "@a"],
      .call { selector := selector ".m" },
      .ruleset { selectors := [selector ".o"] } [declare "y" "@b"],
      declare "@a" "1"]
    let r : Ruleset := ⟨0, none, {}, ((Node.ofRules rules).run 1).1⟩
    ∃ compiled t, (r.compile {}).run.run { nextSerial := 5 } = (.ok compiled, t) ∧
      compiled.rules.map Node.kind =
        [.definition, .media, .declaration, .ruleset, .ruleset, .declaration] ∧
      ∃ selectors home fates, r.ComesTo {} { nextSerial := 5 } selectors home fates compiled t := by
  intro declare selector rules r
  have hgrounded : Node.Grounded 0 { nextSerial := 5 } r.rules := by
    refine ⟨Nat.zero_le _, fun i hi => ?_, fun index b hindex => by omega⟩
    rw [Node.allBlockIndices_ofRules] at hi
    cases hi
  have hkinds : ((do
      let compiled ← r.compile {}
      return compiled.rules.map Node.kind : CompileM (List Rule.Kind)).run.run
        { nextSerial := 5 }).1.toOption =
      some [.definition, .media, .declaration, .ruleset, .ruleset, .declaration] := by
    decide +kernel
  obtain ⟨compiled, t, hrun, hkinds⟩ := exists_run_of_toOption_bind hkinds
  exact ⟨compiled, t, hrun, Option.some.inj hkinds, compile_comesTo hgrounded hrun⟩

end Stylesheet
