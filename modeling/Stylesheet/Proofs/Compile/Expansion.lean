import Stylesheet.Proofs.Compile.Steps
import Mathlib.Data.List.Induction

/-!
# How the calls of a ruleset are expanded

The calls of a ruleset are replaced from left to right. What becomes of its nodes is
written down as a list of turns, one for each node: a call was expanded against the frame
that it saw, and every other node waits for its own turn to be compiled. The frame that a
call sees has what the nodes before it became, and then the rest of the nodes as they are.

An expansion is not allowed to declare a variable that the frame declares already. So the
rules of the ruleset itself come first, wherever they stand, and then the first call that
declares the variable.
-/

namespace Stylesheet

namespace Store

/-- From the first store to the last, computations ran one after the other, each from a store to
another. Between them only numbers were given out and events recorded. -/
inductive Passes : Store → List (Store × Store) → Store → Prop
  | nil {s t : Store} (hquiet : s.Quiet t) : Passes s [] t
  | cons {s start finish t : Store} {runs : List (Store × Store)} (hquiet : s.Quiet start)
      (hrest : Passes finish runs t) : Passes s ((start, finish) :: runs) t

namespace Passes

variable {s t u : Store} {runs more : List (Store × Store)}

theorem after_quiet (h : Passes t runs u) (hst : s.Quiet t) : Passes s runs u := by
  cases h with
  | nil hquiet => exact .nil (hst.trans hquiet)
  | cons hquiet hrest => exact .cons (hst.trans hquiet) hrest

theorem append (h : Passes s runs t) (h' : Passes t more u) : Passes s (runs ++ more) u := by
  induction h with
  | nil hquiet => exact h'.after_quiet hquiet
  | cons hquiet _ ih => exact .cons hquiet (ih h')

end Passes

end Store

/-- The expansion of a call. -/
structure Expansion where
  call : MixinCall
  /-- The frame of the ruleset at that moment. -/
  frame : Ruleset
  /-- What the call expands to. -/
  returned : List Node
  /-- The store before the expansion. -/
  start : Store
  /-- The store after the expansion. -/
  finish : Store

/-- The nodes that replace the call: not the variables that the frame declares. -/
def Expansion.kept (e : Expansion) : List Node := e.returned.filter e.frame.admits

/-- What became of a node of a ruleset while its calls were expanded. -/
inductive Turn where
  | expanded (e : Expansion)
  /-- The node is not a call, and waits. -/
  | own (node : Node)

namespace Turn

/-- The node itself. -/
def source : Turn → Node
  | .expanded e => .call e.call
  | .own node => node

/-- The nodes that stand in its place. -/
def nodes : Turn → List Node
  | .expanded e => e.kept
  | .own node => [node]

/-- The slots that stand in its place. -/
def slots : Turn → List Slot
  | .expanded e => e.kept.map .expanded
  | .own node => [.own node]

/-- The expansion, if the node was a call. -/
def expansion? : Turn → Option Expansion
  | .expanded e => some e
  | .own _ => none

/-- The stores before and after the expansion. -/
def runs : Turn → List (Store × Store)
  | .expanded e => [(e.start, e.finish)]
  | .own _ => []

theorem map_node_slots (turn : Turn) : turn.slots.map Slot.node = turn.nodes := by
  cases turn with
  | expanded e => simp [slots, nodes, Function.comp_def, Slot.node]
  | own node => rfl

theorem map_node_flatMap_slots (turns : List Turn) :
    (turns.flatMap slots).map Slot.node = turns.flatMap nodes := by
  rw [List.map_flatMap]
  exact congrArg (fun f => turns.flatMap f) (funext map_node_slots)

end Turn

/-- The turns of some nodes, behind the ones that are shown before them. Every call was expanded,
and saw what the nodes before it became, and the rest of the nodes as they are. -/
structure Unrolls (expand : Expander) (inside : Ruleset → Scope) (shown nodes : List Node)
    (turns : List Turn) : Prop where
  sources : turns.map Turn.source = nodes
  own : ∀ node, .own node ∈ turns → ∀ c, node ≠ .call c
  frame : ∀ before e after, turns = before ++ .expanded e :: after →
    e.frame.rules =
      shown ++ before.flatMap Turn.nodes ++ .call e.call :: after.map Turn.source
  returned : ∀ e, .expanded e ∈ turns →
    (e.call.compileWith expand (inside e.frame)).run.run e.start = (.ok e.returned, e.finish)

namespace Unrolls

variable {expand : Expander} {inside : Ruleset → Scope} {shown nodes : List Node}
  {turns : List Turn}

theorem nil : Unrolls expand inside shown [] [] where
  sources := rfl
  own := by simp
  frame := by simp
  returned := by simp

theorem cons_own {node : Node} (hnode : ∀ c, node ≠ .call c)
    (h : Unrolls expand inside (shown ++ [node]) nodes turns) :
    Unrolls expand inside shown (node :: nodes) (.own node :: turns) where
  sources := congrArg (node :: ·) h.sources
  own := by
    intro m hm
    rcases List.mem_cons.1 hm with hm | hm
    · cases hm
      exact hnode
    · exact h.own m hm
  frame := by
    intro before e after hturns
    cases before with
    | nil => cases hturns
    | cons _ before =>
      obtain ⟨rfl, hrest⟩ := List.cons.inj hturns
      simpa [Turn.nodes] using h.frame before e after hrest
  returned := by
    intro e he
    rcases List.mem_cons.1 he with he | he
    · cases he
    · exact h.returned e he

theorem cons_expanded {c : MixinCall} {frame : Ruleset} {returned : List Node} {s t : Store}
    (hframe : frame.rules = shown ++ .call c :: nodes)
    (hrun : (c.compileWith expand (inside frame)).run.run s = (.ok returned, t))
    (h : Unrolls expand inside (shown ++ returned.filter frame.admits) nodes turns) :
    Unrolls expand inside shown (.call c :: nodes)
      (.expanded ⟨c, frame, returned, s, t⟩ :: turns) where
  sources := congrArg (Node.call c :: ·) h.sources
  own := by
    intro m hm
    rcases List.mem_cons.1 hm with hm | hm
    · cases hm
    · exact h.own m hm
  frame := by
    intro before e after hturns
    cases before with
    | nil =>
      cases hturns
      simpa [h.sources] using hframe
    | cons _ before =>
      obtain ⟨rfl, hrest⟩ := List.cons.inj hturns
      simpa [Turn.nodes, Expansion.kept] using h.frame before e after hrest
  returned := by
    intro e he
    rcases List.mem_cons.1 he with he | he
    · cases he
      exact hrun
    · exact h.returned e he

end Unrolls

theorem expandCalls_own {expand : Expander} {inside : Ruleset → Scope} {frame : Ruleset}
    {done : List Slot} {node : Node} {nodes : List Node} (h : ∀ c, node ≠ .call c) :
    expandCalls expand inside frame done (node :: nodes) =
      expandCalls expand inside frame (done ++ [.own node]) nodes := by
  cases node with
  | call c => exact absurd rfl (h c)
  | _ => rfl

/-- Expanding the calls takes a turn for each node, and in the end the frame shows what the nodes
became. -/
theorem ensures_expandCalls (expand : Expander) (inside : Ruleset → Scope) {frame : Ruleset}
    {done : List Slot} {nodes : List Node} (hframe : frame.rules = done.map Slot.node ++ nodes)
    (s : Store) :
    Ensures (expandCalls expand inside frame done nodes) s
      (fun result t => ∃ turns, Unrolls expand inside (done.map Slot.node) nodes turns ∧
        s.Passes (turns.flatMap Turn.runs) t ∧ result.2 = done ++ turns.flatMap Turn.slots ∧
        result.1.rules = result.2.map Slot.node)
      fun _ _ => True := by
  induction nodes generalizing frame done s with
  | nil => exact ⟨[], .nil, .nil (.refl s), by simp, by simpa using hframe⟩
  | cons node nodes ih =>
    by_cases hcall : ∃ c, node = .call c
    · obtain ⟨c, rfl⟩ := hcall
      rw [expandCalls, ensures_bind]
      refine (Ensures.run _ s).mono (fun results t hrun => ?_) fun _ _ _ => trivial
      have hshown := map_node_append_expanded done (results.filter frame.admits)
      refine ensures_bind.2 (ensures_rebuild fun next u _ hnext hquiet => ?_)
      rw [← hshown] at hnext
      refine (ih hnext u).mono ?_ fun _ _ _ => trivial
      rintro ⟨last, slots⟩ v ⟨turns, hturns, hpasses, hslots, hlast⟩
      rw [hshown] at hturns
      refine ⟨_, hturns.cons_expanded hframe hrun, ?_, ?_, hlast⟩
      · exact .cons (.refl s) (hpasses.after_quiet hquiet)
      · simpa [Turn.slots, Expansion.kept] using hslots
    · have hnode : ∀ c, node ≠ .call c := fun c hc => hcall ⟨c, hc⟩
      rw [expandCalls_own hnode]
      have hshown : frame.rules = (done ++ [Slot.own node]).map Slot.node ++ nodes := by
        simpa [Slot.node] using hframe
      refine (ih hshown s).mono ?_ fun _ _ _ => trivial
      rintro ⟨last, slots⟩ t ⟨turns, hturns, hpasses, hslots, hlast⟩
      rw [List.map_append] at hturns
      refine ⟨.own node :: turns, hturns.cons_own hnode, hpasses, ?_, hlast⟩
      simpa [Turn.slots] using hslots

namespace Node

/-- The last declaration of a variable among some nodes. -/
def lastBinding? (name : String) (nodes : List Node) : Option Declaration :=
  (nodes.filterMap binding?).reverse.find? (·.name = name)

variable {name : String} {nodes more : List Node}

theorem lastBinding?_append :
    lastBinding? name (nodes ++ more) = (lastBinding? name more).or (lastBinding? name nodes) := by
  simp [lastBinding?, List.find?_append]

theorem lastBinding?_call_cons (c : MixinCall) :
    lastBinding? name (.call c :: nodes) = lastBinding? name nodes := rfl

theorem lastBinding?_cons (n : Node) :
    lastBinding? name (n :: nodes) = (lastBinding? name nodes).or (lastBinding? name [n]) := by
  rw [← lastBinding?_append, List.singleton_append]

theorem lastBinding?_eq_none_iff :
    lastBinding? name nodes = none ↔ ∀ n ∈ nodes, ¬n.Declares name := by
  simp only [lastBinding?, List.find?_eq_none, List.mem_reverse, List.mem_filterMap]
  constructor
  · rintro h n hn ⟨d, hd, rfl⟩
    simpa using h d ⟨n, hn, hd⟩
  · rintro h d ⟨n, hn, hd⟩ hname
    exact h n hn ⟨d, hd, by simpa using hname⟩

end Node

/-- A frame admits the declaration of a variable if and only if it does not declare it. -/
theorem Ruleset.admits_iff_of_declares {frame : Ruleset} {n : Node} {name : String}
    (h : n.Declares name) : frame.admits n = true ↔ frame.binding? name = none := by
  obtain ⟨d, hd, rfl⟩ := h
  cases n with
  | declaration d' =>
    rw [Node.binding?] at hd
    split at hd
    next hvariable =>
      cases hd
      simp [Ruleset.admits, hvariable]
    next => cases hd
  | _ => cases hd

namespace Expansion

variable {e : Expansion} {name : String}

/-- Nothing that an expansion declares again is kept. -/
theorem lastBinding?_kept_of_some {d : Declaration} (h : e.frame.binding? name = some d) :
    Node.lastBinding? name e.kept = none := by
  refine Node.lastBinding?_eq_none_iff.2 fun n hn hdeclares => ?_
  have hnone := (Ruleset.admits_iff_of_declares hdeclares).1 (List.mem_filter.1 hn).2
  rw [h] at hnone
  cases hnone

/-- All declarations of a new variable are kept. -/
theorem lastBinding?_kept_of_none (h : e.frame.binding? name = none) :
    Node.lastBinding? name e.kept = Node.lastBinding? name e.returned := by
  rw [kept]
  induction e.returned with
  | nil => rfl
  | cons n nodes ih =>
    rw [List.filter_cons, Node.lastBinding?_cons n]
    split
    · rw [Node.lastBinding?_cons, ih]
    next hnot =>
      have hsilent : Node.lastBinding? name [n] = none :=
        Node.lastBinding?_eq_none_iff.2 (List.forall_mem_singleton.2 fun hdeclares =>
          hnot ((Ruleset.admits_iff_of_declares hdeclares).2 h))
      rw [ih, hsilent, Option.or_none]

/-- To put an expansion in place of its call leaves the variables of the frame alone, and adds those
that are new. -/
theorem lastBinding?_replace {before after : List Node}
    (hframe : e.frame.rules = before ++ .call e.call :: after) :
    Node.lastBinding? name (before ++ e.kept ++ after) =
      (e.frame.binding? name).or (Node.lastBinding? name e.returned) := by
  have hrules : e.frame.binding? name =
      (Node.lastBinding? name after).or (Node.lastBinding? name before) := by
    rw [← Node.lastBinding?_call_cons e.call, ← Node.lastBinding?_append, ← hframe]
    rfl
  rw [Node.lastBinding?_append, Node.lastBinding?_append]
  cases hbinding : e.frame.binding? name with
  | some d => rw [lastBinding?_kept_of_some hbinding, Option.none_or, ← hrules, hbinding,
      Option.some_or]
  | none =>
    rw [hbinding] at hrules
    obtain ⟨hafter, hbefore⟩ := Option.or_eq_none_iff.1 hrules.symm
    rw [lastBinding?_kept_of_none hbinding, hafter, hbefore, Option.or_none]

end Expansion

/-- While the calls are expanded, the frame has a variable from the nodes themselves, and else from
the first expansion that declares it. -/
theorem Unrolls.lastBinding?_eq {expand : Expander} {inside : Ruleset → Scope} {nodes : List Node}
    {turns before after : List Turn} (h : Unrolls expand inside [] nodes turns)
    (hturns : turns = before ++ after) (name : String) :
    Node.lastBinding? name (before.flatMap Turn.nodes ++ after.map Turn.source) =
      (Node.lastBinding? name nodes).or
        ((before.filterMap Turn.expansion?).findSome?
          fun e => Node.lastBinding? name e.returned) := by
  induction before using List.reverseRecOn generalizing after with
  | nil => simp [← h.sources, hturns]
  | append_singleton before turn ih =>
    have hturns' : turns = before ++ turn :: after := by simpa using hturns
    have hbefore := ih hturns'
    rw [List.filterMap_append, List.findSome?_append, ← Option.or_assoc, ← hbefore]
    cases turn with
    | own node =>
      have hnone : [Turn.own node].filterMap Turn.expansion? = [] := rfl
      simp [hnone, Turn.nodes, Turn.source]
    | expanded e =>
      have hone : [Turn.expanded e].filterMap Turn.expansion? = [e] := rfl
      have hframe := h.frame before e after hturns'
      have hshown : e.frame.binding? name = Node.lastBinding? name
          (before.flatMap Turn.nodes ++ (Turn.expanded e :: after).map Turn.source) :=
        congrArg (Node.lastBinding? name) hframe
      rw [hone, ← hshown, List.flatMap_append]
      simpa [Turn.nodes] using Expansion.lastBinding?_replace hframe

theorem lastBinding?_captureFrames (frames : List Ruleset) (nodes : List Node) (name : String) :
    Node.lastBinding? name (captureFrames frames nodes) = Node.lastBinding? name nodes := by
  have hbinding : ∀ n : Node, Node.lastBinding? name (captureFrames frames [n]) =
      Node.lastBinding? name [n] := by
    intro n
    rcases n with _ | _ | ⟨_, _, _ | _⟩ | _ | _ | _ | _ | _ | _ <;> rfl
  induction nodes with
  | nil => rfl
  | cons n nodes ih =>
    have hcons : captureFrames frames (n :: nodes) =
        captureFrames frames [n] ++ captureFrames frames nodes := rfl
    rw [hcons, Node.lastBinding?_append, ih, hbinding, ← Node.lastBinding?_cons]

/-- A ruleset that is being compiled, once its calls are expanded. -/
structure Unrolled where
  /-- The selectors with their holes filled. -/
  selectors : List Selector
  /-- The frame with the imports replaced. -/
  home : Ruleset
  /-- The number of blocks before the calls were expanded. -/
  first : Nat
  /-- The frame with the calls expanded. -/
  frame : Ruleset
  slots : List Slot

/-- Compile a ruleset up to the point where its calls are expanded. -/
def Ruleset.unroll (expand : Expander) (sc : Scope) (r : Ruleset) : CompileM Unrolled := do
  let selectors ← ofExcept (r.header.selectors.mapM sc.selector)
  record (.compiling selectors r.rules.length)
  let home ← r.homeFrame sc selectors
  let frame ← home.rebuild (captureFrames (home :: sc.frames) home.rules)
  let first := (← get).blocks.length
  let (frame, slots) ← expandCalls expand (sc.enter · selectors) frame [] frame.rules
  return { selectors, home, first, frame, slots }

/-- Compile the other nodes of a ruleset, from the point on where its calls are expanded. -/
def Unrolled.finish (compile : NodeCompiler) (sc : Scope) (w : Unrolled) : CompileM Ruleset := do
  let (frame, rules) ← compileSlots compile (sc.enter · w.selectors) w.frame [] w.slots
  bubble w.selectors w.first
  frame.rebuild rules

theorem Ruleset.compileWith_eq_unroll (expand : Expander) (compile : Compiler) (sc : Scope)
    (r : Ruleset) :
    Ruleset.compileWith expand compile sc r = (do
      let w ← r.unroll expand sc
      w.finish (Node.compileWith compile) sc) := by
  rw [compileWith_eq]
  simp only [compileBy, fillFrame, unroll, Unrolled.finish, bind_assoc, pure_bind]

/-- What is known of a ruleset whose calls are expanded: where it comes from, and the turns that its
nodes took. -/
structure Unrolled.Records (expand : Expander) (sc : Scope) (r : Ruleset) (s : Store)
    (turns : List Turn) (w : Unrolled) (t : Store) : Prop where
  selectors : r.header.selectors.mapM sc.selector = .ok w.selectors
  home : ∃ u, (r.homeFrame sc w.selectors).run.run
      (s.record (.compiling w.selectors r.rules.length)) = (.ok w.home, u) ∧
    u.Passes (turns.flatMap Turn.runs) t ∧ w.first = u.blocks.length
  unrolls : Unrolls expand (sc.enter · w.selectors) []
    (captureFrames (w.home :: sc.frames) w.home.rules) turns
  slots : w.slots = turns.flatMap Turn.slots
  frame : w.frame.rules = turns.flatMap Turn.nodes

theorem ensures_unroll (expand : Expander) (sc : Scope) (r : Ruleset) (s : Store) :
    Ensures (r.unroll expand sc) s (fun w t => ∃ turns, w.Records expand sc r s turns t)
      fun _ _ => True := by
  refine ensures_bind.2 (ensures_ofExcept.2 ⟨fun selectors hselectors => ?_, fun _ _ => trivial⟩)
  refine ensures_bind.2 (ensures_lift.2 (ensures_bind.2 ?_))
  refine (Ensures.run _ _).mono (fun home u hhome => ?_) fun _ _ _ => trivial
  refine ensures_bind.2 (ensures_rebuild fun frame v _ hframe hquiet => ?_)
  refine ensures_bind.2 (ensures_get.2 (ensures_bind.2 ?_))
  refine (ensures_expandCalls expand (sc.enter · selectors) rfl v).mono ?_ fun _ _ _ => trivial
  rintro ⟨last, slots⟩ t ⟨turns, hturns, hpasses, rfl, hlast⟩
  rw [hframe] at hturns
  refine ⟨turns, hselectors, ⟨u, hhome, hpasses.after_quiet hquiet, ?_⟩, hturns, rfl, ?_⟩
  · exact congrArg List.length hquiet.blocks
  · rw [hlast]
    exact Turn.map_node_flatMap_slots turns

/-- Where compiling a ruleset has expanded the calls, its frame has each variable from its own
rules, with the imports replaced, and from the last declaration there. A variable that they do not
declare it has from the first call whose expansion declares it, and from the last declaration there,
and no others. -/
theorem Ruleset.unroll_binding?_eq {sc : Scope} {r : Ruleset} {s t : Store} {w : Unrolled}
    (hrun : (r.unroll sc.expander sc).run.run s = (.ok w, t)) :
    (∃ levels, (r.compile sc).run.run s =
      (w.finish (Node.compileWith (sc.expander.nested levels)) sc).run.run t) ∧
    ∃ turns, w.Records sc.expander sc r s turns t ∧
      ∀ name, w.frame.binding? name = (Node.lastBinding? name w.home.rules).or
        ((turns.filterMap Turn.expansion?).findSome?
          fun e => Node.lastBinding? name e.returned) := by
  constructor
  · refine ⟨s.heights r.rules + (sc.sources.map Sources.height).getD 0, ?_⟩
    have hlevels : sc.levels s r.rules =
        s.heights r.rules + (sc.sources.map Sources.height).getD 0 + 1 := by
      rw [Scope.levels]
      omega
    change (sc.expander.nested (sc.levels s r.rules) sc r).run.run s = _
    rw [hlevels, Expander.nested, compileWith_eq_unroll, run_bind_ok hrun]
  · obtain ⟨turns, hrecords⟩ := (ensures_unroll sc.expander sc r s).of_ok hrun
    refine ⟨turns, hrecords, fun name => ?_⟩
    have hbinding := hrecords.unrolls.lastBinding?_eq (List.append_nil turns).symm name
    rw [List.map_nil, List.append_nil, ← hrecords.frame, lastBinding?_captureFrames] at hbinding
    exact hbinding

/-- A ruleset that declares a variable behind two calls, both of which declare others. -/
theorem Ruleset.unroll_binding?_eq_two_calls :
    let declare (name value : String) : Rule := .declaration { name, value := .read value }
    let selector (value : String) : Selector := { elements := [⟨.compound, value⟩] }
    let rules : List Rule := [
      .definition { name := selector ".m" }
        [declare "@b" "3", declare "@c" "4", declare "@c" "5"],
      .definition { name := selector ".n" } [declare "@c" "6", declare "@d" "7"],
      .call { selector := selector ".m" }, .call { selector := selector ".n" },
      declare "@b" "2"]
    let r : Ruleset := ⟨0, none, {}, ((Node.ofRules rules).run 1).1⟩
    let sc : Scope := {}
    ∃ w t, (r.unroll sc.expander sc).run.run { nextSerial := 1 } = (.ok w, t) ∧
      ["@b", "@c", "@d", "@e"].map (fun name => (w.frame.binding? name).map (·.value.text)) =
        [some "2", some "5", some "7", none] ∧
      ∃ turns, w.Records sc.expander sc r { nextSerial := 1 } turns t ∧
        w.frame.binding? "@c" = (Node.lastBinding? "@c" w.home.rules).or
          ((turns.filterMap Turn.expansion?).findSome?
            fun e => Node.lastBinding? "@c" e.returned) := by
  intro declare selector rules r sc
  have hvalues : ((do
      let w ← r.unroll sc.expander sc
      return ["@b", "@c", "@d", "@e"].map fun name =>
        (w.frame.binding? name).map (·.value.text) :
          CompileM (List (Option String))).run.run { nextSerial := 1 }).1.toOption =
      some [some "2", some "5", some "7", none] := by
    decide +kernel
  obtain ⟨w, t, hrun, hvalues⟩ := exists_run_of_toOption_bind hvalues
  obtain ⟨-, turns, hrecords, hbinding⟩ := unroll_binding?_eq hrun
  exact ⟨w, t, hrun, Option.some.inj hvalues, turns, hrecords, hbinding "@c"⟩

end Stylesheet
