import Stylesheet.Proofs.Compile.Bubbling
import Stylesheet.Proofs.Rule.Resettled

/-!
# A ruleset that calls its sibling

A ruleset whose only rule is the call of a sibling becomes what the sibling expands to, as the
sibling stands in the frame at that point: as it was read, or as it was compiled. Its rules are
settled for the call, marked if the call is important, and their media blocks are wrapped in the
selectors of the caller.

The caller may itself have a selector that the call asks for. It is found then, but not expanded,
since it is being compiled.
-/

namespace Stylesheet

section Lookup

variable {query : Selector} {call : MixinCall} {caller called : Ruleset} {s : Store}

/-- No answer that was kept has a candidate. -/
def Store.FoundNothing (s : Store) : Prop :=
  ∀ serial key found, s.remembered? serial key = some found → found = []

theorem Store.foundNothing_of_memo_nil (h : s.memo = []) : s.FoundNothing := by
  intro serial key found hfound
  rw [remembered?, h] at hfound
  cases hfound

/-- The first lookup in a ruleset that holds only a call. -/
theorem run_find_of_call_of_not_remembered {r : Ruleset} (hr : r.rules = [.call call])
    (h : s.remembered? r.serial query.text = none) :
    (r.find none query).run s =
      ([], (s.record (.lookupMiss query.text)).remember r.serial query.text []) := by
  rw [run_find_of_not_remembered h, hr]
  rfl

/-- Nothing is found among the rules of a ruleset that holds only a call. -/
theorem run_find_of_call {r : Ruleset} (hr : r.rules = [.call call]) (query : Selector)
    (hs : s.FoundNothing) :
    ((r.find none query).run s).1 = [] ∧ ((r.find none query).run s).2.FoundNothing := by
  cases hfound : s.remembered? r.serial query.text with
  | some found =>
    rw [run_find_of_remembered hfound]
    exact ⟨hs _ _ _ hfound, hs⟩
  | none =>
    rw [run_find_of_call_of_not_remembered hr hfound]
    refine ⟨rfl, fun serial key found h => ?_⟩
    rw [Store.remembered?, Store.remember, List.lookup_cons] at h
    split at h
    · exact (Option.some.inj h).symm
    · exact hs serial key found h

/-- A ruleset that holds only a call is all that can be found at it. -/
theorem run_find_caller (hcaller : caller.rules = [.call call]) (query : Selector)
    (hs : s.FoundNothing) :
    (∀ c ∈ ((Node.find none query (.ruleset caller)).run s).1, c = .ruleset caller) ∧
      ((Node.find none query (.ruleset caller)).run s).2.FoundNothing := by
  rw [Node.find, if_neg (Option.some_ne_none caller.serial).symm]
  cases query.firstMatch? caller.header.selectors with
  | none => exact ⟨fun c hc => (List.not_mem_nil hc).elim, hs⟩
  | some count =>
    dsimp only
    split
    · obtain ⟨hnone, hstore⟩ := run_find_of_call hcaller (query.rest count) hs
      rw [hnone]
      exact ⟨fun c hc => (List.not_mem_nil hc).elim, hstore⟩
    · exact ⟨fun c hc => List.mem_singleton.1 hc, hs⟩

theorem run_findAll_cons (n : Node) (nodes : List Node) (s : Store) :
    (Node.findAll none query (n :: nodes)).run s =
      (((n.find none query).run s).1 ++
        ((Node.findAll none query nodes).run ((n.find none query).run s).2).1,
        ((Node.findAll none query nodes).run ((n.find none query).run s).2).2) := by
  rw [Node.findAll]
  rfl

theorem run_findAll_callers (hcaller : caller.rules = [.call call]) {nodes : List Node}
    (hnodes : ∀ n ∈ nodes, n = .ruleset caller) (hs : s.FoundNothing) :
    ∀ c ∈ ((Node.findAll none query nodes).run s).1, c = .ruleset caller := by
  induction nodes generalizing s with
  | nil => exact fun c hc => (List.not_mem_nil hc).elim
  | cons n nodes ih =>
    obtain ⟨rfl, hrest⟩ := List.forall_mem_cons.1 hnodes
    obtain ⟨hown, hstore⟩ := run_find_caller hcaller query hs
    rw [run_findAll_cons]
    exact List.forall_mem_append.2 ⟨hown, ih hrest hstore⟩

/-- Beside the caller, the ruleset that the query asks for is found. -/
theorem run_findAll_siblings (hcaller : caller.rules = [.call call])
    (hcalled : query.firstMatch? called.header.selectors = some query.elements.length)
    {before after : List Node} (hothers : ∀ n ∈ before ++ after, n = .ruleset caller)
    (hs : s.FoundNothing) :
    ∃ left right, ((Node.findAll none query (before ++ .ruleset called :: after)).run s).1 =
        left ++ .ruleset called :: right ∧ ∀ c ∈ left ++ right, c = .ruleset caller := by
  induction before generalizing s with
  | nil =>
    have hfind : (Node.find none query (.ruleset called)).run s = ([.ruleset called], s) := by
      rw [Node.find, if_neg (Option.some_ne_none called.serial).symm, hcalled]
      dsimp only
      rw [if_neg (Nat.lt_irrefl _)]
      rfl
    refine ⟨[], ((Node.findAll none query after).run s).1, ?_, ?_⟩
    · rw [List.nil_append, run_findAll_cons, hfind]
      rfl
    · exact run_findAll_callers hcaller hothers hs
  | cons n before ih =>
    obtain ⟨rfl, hrest⟩ := List.forall_mem_cons.1 hothers
    obtain ⟨hown, hstore⟩ := run_find_caller hcaller query hs
    obtain ⟨left, right, hfound, hall⟩ := ih hrest hstore
    refine ⟨((Node.find none query (.ruleset caller)).run s).1 ++ left, right, ?_, ?_⟩
    · rw [List.cons_append, run_findAll_cons, hfound, ← List.append_assoc]
    · rw [List.append_assoc]
      exact List.forall_mem_append.2 ⟨hown, hall⟩

/-- The query is not found in a frame that holds only a call, and so in the frame around it. -/
theorem run_findInFrames_siblings {frame outer : Ruleset} (hframe : frame.rules = [.call call])
    (hcaller : caller.rules = [.call call])
    (hcalled : query.firstMatch? called.header.selectors = some query.elements.length)
    {before after : List Node} (houter : outer.rules = before ++ .ruleset called :: after)
    (hothers : ∀ n ∈ before ++ after, n = .ruleset caller) (hne : outer.serial ≠ frame.serial)
    (hmemo : s.memo = []) :
    ∃ left right, ((findInFrames query [frame, outer]).run s).1 =
        some (left ++ .ruleset called :: right) ∧ ∀ c ∈ left ++ right, c = .ruleset caller := by
  have hnew : s.remembered? frame.serial query.text = none := by
    rw [Store.remembered?, hmemo]
    rfl
  generalize hlearnt :
    (s.record (.lookupMiss query.text)).remember frame.serial query.text [] = learnt
  have hmiss : learnt.remembered? outer.serial query.text = none := by
    rw [← hlearnt, Store.remembered?, Store.remember, List.lookup_cons]
    have hother : ((outer.serial, query.text) == (frame.serial, query.text)) = false := by
      simpa using hne
    rw [hother]
    exact congrArg (List.lookup _) hmemo
  have hnothing : learnt.FoundNothing := by
    have hfound := (run_find_of_call hframe query (Store.foundNothing_of_memo_nil hmemo)).2
    rwa [run_find_of_call_of_not_remembered hframe hnew, hlearnt] at hfound
  obtain ⟨left, right, hfound, hall⟩ :=
    run_findAll_siblings hcaller hcalled hothers (s := learnt.record (.lookupMiss query.text))
      hnothing
  refine ⟨left, right, ?_, hall⟩
  rw [findInFrames, run_bind_eq, run_find_of_call_of_not_remembered hframe hnew, hlearnt]
  dsimp only
  rw [if_pos List.isEmpty_nil, findInFrames, run_bind_eq, run_find_of_not_remembered hmiss, houter]
  dsimp only
  rw [hfound, if_neg (by simp)]
  rfl

end Lookup

section Expansion

variable {budget base : Nat} {sc : Scope} {call : MixinCall} {called : Ruleset} {s t : Store}

/-- The nodes on the right are what those on the left expand to for a call, from the first store to
the second. -/
structure Node.ExpandTo (important : Bool) (s : Store) (source nodes : List Node) (t : Store) :
    Prop where
  adds : s.Adds t
  hoisted : Node.AllHoisted s.blocks.length t.blocks.length nodes
  settled : ∃ settled, Rule.Settled [] (s.rulesOf source) settled ∧
    t.rulesOf nodes = Rule.expanded important settled

/-- The call fails since no mixin may be expanded at all. -/
def MixinCall.Refused (call : MixinCall) (options : Options) (budget : Nat) (e : Error) : Prop :=
  budget = 0 ∧ e = .mixinRecursion call.selector.text options.maxMixinDepth call.span

/-- The rules of a ruleset are settled for a call. -/
theorem ensures_body_of_ready {expand : Expander} (hcalled : Node.Ready base s called.rules)
    (hliteral : Rule.AllLiteral (s.rulesOf called.rules)) :
    Ensures (Expander.body expand.compiler sc call [] (.ruleset called)) s
      (fun result t => result.1 = s.blocks.length ∧
        Node.SettleTo [] s called.rules result.2 t) fun _ _ => False := by
  obtain ⟨serial, source, header, rules⟩ := called
  replace hcalled : Node.Ready base s rules := hcalled
  replace hliteral : Rule.AllLiteral (s.rulesOf rules) := hliteral
  obtain ⟨bindings, hbindings⟩ : ∃ bindings, (Candidate.ruleset
      ⟨serial, source, header, rules⟩).bindings sc call.span [] = .ok bindings := ⟨_, rfl⟩
  rw [Expander.body, ensures_bind]
  refine ensures_lift.2 ?_
  rw [ensures_bind, ensures_ofExcept_of_ok hbindings, ensures_bind]
  refine ensures_lift.2 ?_
  rw [ensures_bind]
  refine ensures_lift.2 ?_
  -- What is done up to here only takes numbers.
  have hrecord := s.quiet_record (.expanding call.selector (sc.depth + 1))
  have hparams := hrecord.trans (KeepsBooks.build {} (bindings.map .declaration) none _)
  have hquiet := hparams.trans (KeepsBooks.build {} rules none _)
  have hsame := hquiet.adds.rulesOf hcalled.refer
  rw [ensures_bind, ensures_get, ensures_bind]
  refine (ensures_compiler_settles expand (hcalled.adds hquiet.adds)).mono ?_ ?_
  · intro compiled t hcompiled
    obtain ⟨sc', selectors, hselectors, -, hsettle⟩ := hcompiled.settled
    obtain ⟨⟩ := hselectors
    exact ⟨congrArg List.length hquiet.blocks, hsettle.after_quiet hquiet hsame⟩
  · intro e t hfail
    rw [← hsame] at hliteral
    exact hfail ⟨fun σ hσ => (List.not_mem_nil hσ).elim, hliteral.allFilled⟩

/-- A ruleset is expanded to its settled rules, if any expansion is allowed. -/
theorem ensures_upTo_of_ready (hcalled : Node.Ready base s called.rules)
    (hliteral : Rule.AllLiteral (s.rulesOf called.rules)) :
    Ensures (Expander.upTo budget sc call [] (.ruleset called)) s
      (fun nodes t => budget ≠ 0 ∧ Node.ExpandTo call.important s called.rules nodes t)
      fun e _ => call.Refused sc.options budget e := by
  cases budget with
  | zero => exact ⟨rfl, rfl⟩
  | succ budget =>
    rw [Expander.upTo, Expander.ofCompiler_eq, ensures_bind]
    refine (ensures_body_of_ready hcalled hliteral).mono ?_ fun _ _ hfail => hfail.elim
    rintro ⟨first, nodes⟩ t ⟨hfirst, hsettle⟩
    obtain rfl : first = s.blocks.length := hfirst
    dsimp only
    cases himportant : call.important with
    | false =>
      exact ⟨Nat.succ_ne_zero budget, hsettle.adds, hsettle.hoisted, _, hsettle.settled, rfl⟩
    | true =>
      obtain ⟨hadds, hhoisted, hread⟩ := hsettle.adds.markImportant hsettle.hoisted
      exact ensures_lift.2 ⟨Nat.succ_ne_zero budget, hadds, hhoisted, _, hsettle.settled, hread⟩

theorem Node.ExpandTo.quiet {important : Bool} {source nodes : List Node} {u : Store}
    (h : Node.ExpandTo important s source nodes t) (htu : t.Quiet u) :
    Node.ExpandTo important s source nodes u where
  adds := h.adds.trans htu.adds
  hoisted := htu.blocks ▸ h.hoisted
  settled := by
    obtain ⟨settled, hsettled, hread⟩ := h.settled
    exact ⟨settled, hsettled, (htu.adds.rulesOf h.hoisted.referWithin).trans hread⟩

theorem Store.Learns.adds (h : s.Learns t) : s.Adds t where
  blocks := h.blocks ▸ List.prefix_rfl
  layered := h.blocks ▸ layeredFrom_length s.blocks
  nextSerial := Nat.le_of_eq h.nextSerial.symm

/-- Nothing is lost if an expansion starts after a lookup. -/
theorem Node.ExpandTo.after_learns {important : Bool} {source nodes : List Node} {u : Store}
    (h : Node.ExpandTo important t source nodes u) (hst : s.Learns t)
    (hsource : Node.ReferWithin base s.blocks.length source) :
    Node.ExpandTo important s source nodes u where
  adds := hst.adds.trans h.adds
  hoisted := hst.blocks ▸ h.hoisted
  settled := hst.adds.rulesOf hsource ▸ h.settled

end Expansion

/-- The ruleset was built with these parts and a number of its own, between the two stores. -/
structure Ruleset.BuiltIn (r : Ruleset) (header : Header) (rules : List Node)
    (source : Option Nat) (s t : Store) : Prop where
  quiet : s.Quiet t
  le_serial : s.nextSerial ≤ r.serial
  serial_lt : r.serial < t.nextSerial
  header_eq : r.header = header
  rules_eq : r.rules = rules
  source_eq : r.source = source

theorem Ruleset.builtIn_build (header : Header) (rules : List Node) (source : Option Nat)
    (s : Store) :
    ((Ruleset.build header rules source).run s).1.BuiltIn header rules source s
      ((Ruleset.build header rules source).run s).2 :=
  ⟨KeepsBooks.build header rules source s, Nat.le_refl _, Nat.lt_succ_self _, rfl, rfl, rfl⟩

theorem Ruleset.BuiltIn.after_quiet {r : Ruleset} {header : Header} {rules : List Node}
    {source : Option Nat} {s t u : Store} (h : r.BuiltIn header rules source t u)
    (hst : s.Quiet t) : r.BuiltIn header rules source s u :=
  { h with
    quiet := hst.trans h.quiet
    le_serial := Nat.le_trans hst.nextSerial h.le_serial }

section Calls

variable {budget base : Nat} {sc : Scope} {s t : Store} {outer frame caller called : Ruleset}
variable {call : MixinCall} {selectors : List Selector}

/-- A ruleset that holds only a call stands in one frame with the ruleset that the call asks for.
That one is not being compiled, and nothing was looked up before. -/
structure CallSite (sc : Scope) (s : Store) (outer caller called : Ruleset) (call : MixinCall) :
    Prop where
  rules : caller.rules = [.call call]
  args : call.args = []
  found : call.selector.firstMatch? called.header.selectors = some call.selector.elements.length
  frames : sc.frames = [outer]
  siblings : ∃ before after, outer.rules = before ++ .ruleset called :: after ∧
    ∀ n ∈ before ++ after, n = .ruleset caller
  memo : s.memo = []
  outer_lt : outer.serial < s.nextSerial
  called_lt : called.serial < s.nextSerial
  ne_caller : called.serial ≠ caller.serial
  ne_outer : called.serial ≠ outer.serial
  ne_source : some called.serial ≠ outer.source

/-- Of the two siblings, only the one that is not being compiled is expanded. -/
theorem CallSite.filter_isEligible (h : CallSite sc s outer caller called call)
    (hsource : frame.source = some caller.serial) (hserial : called.serial ≠ frame.serial)
    {left right : List Candidate} (hall : ∀ c ∈ left ++ right, c = .ruleset caller) :
    (left ++ .ruleset called :: right).filter ((sc.enter frame selectors).isEligible 0) =
      [.ruleset called] := by
  have hframes : (sc.enter frame selectors).frames = [frame, outer] := by rw [Scope.enter, h.frames]
  have hcaller : (sc.enter frame selectors).isEligible 0 (.ruleset caller) = false := by
    simp [Scope.isEligible, Scope.isCompiling, hframes, hsource]
  have hcalled : (sc.enter frame selectors).isEligible 0 (.ruleset called) = true := by
    simp [Scope.isEligible, Scope.isCompiling, hframes, hsource, Candidate.accepts,
      Candidate.params, h.ne_caller.symm, h.ne_outer.symm, h.ne_source.symm, hserial.symm]
  obtain ⟨hleft, hright⟩ := List.forall_mem_append.1 hall
  have hnone : ∀ {l : List Candidate}, (∀ c ∈ l, c = .ruleset caller) →
      l.filter ((sc.enter frame selectors).isEligible 0) = [] := by
    intro l hl
    refine List.filter_eq_nil_iff.2 fun c hc => ?_
    rw [hl c hc, hcaller]
    exact Bool.false_ne_true
  rw [List.filter_append, List.filter_cons_of_pos hcalled, hnone hleft, hnone hright]
  rfl

/-- The call expands the sibling. -/
theorem ensures_call_of_callSite {start : Store} {header : Header}
    (h : CallSite sc start outer caller called call)
    (hframe : frame.BuiltIn header caller.rules (some caller.serial) start s)
    (hcalled : Node.Ready base s called.rules)
    (hliteral : Rule.AllLiteral (s.rulesOf called.rules)) :
    Ensures (call.compileWith (Expander.upTo budget) (sc.enter frame selectors)) s
      (fun nodes t => budget ≠ 0 ∧ Node.ExpandTo call.important s called.rules nodes t)
      fun e _ => call.Refused sc.options budget e := by
  have houter := Nat.ne_of_lt (Nat.lt_of_lt_of_le h.outer_lt hframe.le_serial)
  have hserial := Nat.ne_of_lt (Nat.lt_of_lt_of_le h.called_lt hframe.le_serial)
  obtain ⟨before, after, hrules, hothers⟩ := h.siblings
  obtain ⟨left, right, hfound, hall⟩ :=
    run_findInFrames_siblings (hframe.rules_eq.trans h.rules) h.rules h.found hrules hothers houter
      (hframe.quiet.memo.trans h.memo)
  have hmixin : (((sc.enter frame selectors).mixin call.selector).run s).1 =
      some (left ++ .ruleset called :: right) := by
    rw [Scope.mixin, Scope.enter, h.frames, hfound]
  have hlearns := learns_mixin (sc.enter frame selectors) call.selector s
  have hargs : (call.args.mapM fun arg => (sc.enter frame selectors).value arg call.span) =
      .ok [] := by
    rw [h.args]
    rfl
  rw [MixinCall.compileWith, ensures_bind, ensures_ofExcept_of_ok hargs, ensures_bind]
  refine ensures_lift.2 ?_
  rw [hmixin]
  dsimp only
  rw [List.length_nil, h.filter_isEligible hframe.source_eq hserial hall, List.isEmpty_cons,
    if_neg Bool.false_ne_true, ensures_bind, expandAll, ensures_bind]
  have hready := hcalled.adds hlearns.adds
  rw [← hlearns.adds.rulesOf hcalled.refer] at hliteral
  refine (ensures_upTo_of_ready hready hliteral).mono ?_ fun _ _ hfail => hfail
  rintro nodes t ⟨hbudget, hexpand⟩
  rw [expandAll, pure_bind, List.append_nil]
  refine ensures_pure.2 ?_
  rw [ensures_bind]
  refine ensures_lift.2 ⟨hbudget, ?_⟩
  exact (hexpand.after_learns hlearns hcalled.refer).quiet (t.quiet_record _)

/-- The ruleset on the right is compiled from a caller, for the rules of the called ruleset. -/
structure Ruleset.CallsTo (caller : Ruleset) (selectors : List Selector) (important : Bool)
    (s : Store) (source : List Node) (compiled : Ruleset) (t : Store) : Prop where
  adds : s.Adds t
  hoisted : Node.AllHoisted s.blocks.length t.blocks.length compiled.rules
  header : compiled.header = { caller.header with selectors, paths := [] }
  settled : ∃ settled, Rule.Settled [] (s.rulesOf source) settled ∧
    t.rulesOf compiled.rules = Rule.bubbleAll selectors (Rule.expanded important settled)

/-- A frame keeps all nodes that read as literal rules. -/
theorem filter_admits_of_allLiteral {nodes : List Node} (frame : Ruleset)
    (h : Rule.AllLiteral (s.rulesOf nodes)) : nodes.filter frame.admits = nodes := by
  rw [Store.rulesOf_eq_readAll] at h
  induction nodes with
  | nil => rfl
  | cons n nodes ih =>
    obtain ⟨hn, hnodes⟩ := h
    have hadmits : frame.admits n = true := by
      cases n with
      | declaration d =>
        have hvariable : d.isVariable = false := hn.1
        rw [Ruleset.admits, hvariable]
        rfl
      | _ => rfl
    rw [List.filter_cons_of_pos hadmits, ih hnodes]

/-- From its frame on, the caller is filled with what the call expands to. -/
theorem ensures_fillFrame_caller {compile : List Slot → NodeCompiler} {start : Store}
    (h : CallSite sc start outer caller called call)
    (hframe : frame.BuiltIn { caller.header with selectors, paths := [] } caller.rules
      (some caller.serial) start s)
    (hne : selectors ≠ []) (hcalled : Node.Ready base s called.rules)
    (hliteral : Rule.AllLiteral (s.rulesOf called.rules)) :
    Ensures (frame.fillFrame (Expander.upTo budget) compile sc selectors) s
      (fun compiled t => budget ≠ 0 ∧
        caller.CallsTo selectors call.important s called.rules compiled t)
      fun e _ => call.Refused sc.options budget e := by
  rw [Ruleset.fillFrame, ensures_bind, ensures_get, hframe.rules_eq, h.rules, expandCalls,
    ensures_bind, ensures_bind]
  refine (ensures_call_of_callSite h hframe hcalled hliteral).mono ?_ fun _ _ hfail => hfail
  rintro nodes t ⟨hbudget, hexpand⟩
  obtain ⟨settled, hsettled, hread⟩ := hexpand.settled
  have hkept : nodes.filter frame.admits = nodes := by
    refine filter_admits_of_allLiteral (s := t) frame ?_
    rw [hread]
    exact (hsettled.allLiteral hliteral (List.forall_mem_nil _)).expanded call.important
  dsimp only
  rw [hkept, ensures_bind]
  refine ensures_lift.2 ?_
  rw [expandCalls, List.nil_append]
  refine ensures_pure.2 ?_
  dsimp only
  rw [← List.append_nil (nodes.map Slot.expanded), compileSlots_expanded, compileSlots, pure_bind,
    List.nil_append, ensures_bind]
  refine ensures_lift.2 (ensures_lift.2 ⟨hbudget, ?_⟩)
  have hquiet := KeepsBooks.build frame.header (nodes ++ []) frame.source t
  have hframed := hexpand.quiet hquiet
  obtain ⟨hadds, hhoisted, hbubbled⟩ := hframed.adds.bubble hframed.hoisted hne
  rw [hquiet.adds.rulesOf hexpand.hoisted.referWithin, hread] at hbubbled
  have hbuilt := KeepsBooks.build frame.header nodes frame.source
    ((bubble selectors s.blocks.length).run ((frame.rebuild (nodes ++ [])).run t).2).2
  refine ⟨hadds.trans hbuilt.adds, hbuilt.blocks ▸ hhoisted, hframe.header_eq, settled, hsettled,
    ?_⟩
  exact (hbuilt.adds.rulesOf hhoisted.referWithin).trans hbubbled

/-- Nodes without definitions take hold of no frames. -/
theorem captureFrames_of_no_definition {nodes : List Node} (frames : List Ruleset)
    (h : ∀ n ∈ nodes, ∀ d, n ≠ .definition d) : captureFrames frames nodes = nodes := by
  induction nodes with
  | nil => rfl
  | cons n nodes ih =>
    obtain ⟨hn, hnodes⟩ := List.forall_mem_cons.1 h
    have hrest : captureFrames frames nodes = nodes := ih hnodes
    cases n with
    | definition d => exact absurd rfl (hn d)
    | _ => exact congrArg (List.cons _) hrest

/-- A ruleset without imports and definitions is compiled from its frame on. -/
theorem ensures_compileWith_of_frame {expand : Expander} {compile : Compiler} {r : Ruleset}
    {post : Ruleset → Store → Prop} {fail : Error → Store → Prop}
    (himports : ∀ n ∈ r.rules, ∀ i, n ≠ .inclusion i)
    (hdefinitions : ∀ n ∈ r.rules, ∀ d, n ≠ .definition d)
    (hselectors : r.header.selectors.mapM sc.selector = .ok selectors)
    (h : ∀ (frame : Ruleset) (t : Store),
      frame.BuiltIn { r.header with selectors, paths := [] } r.rules (some r.serial) s t →
        Ensures (frame.fillFrame expand (fun _ => Node.compileWith compile) sc selectors) t
          post fail) :
    Ensures (Ruleset.compileWith expand compile sc r) s post fail := by
  rw [Ruleset.compileWith_eq, Ruleset.compileBy, ensures_bind, ensures_ofExcept_of_ok hselectors,
    ensures_bind]
  refine ensures_lift.2 ?_
  have hrecord := s.quiet_record (.compiling selectors r.rules.length)
  rw [ensures_bind]
  refine (ensures_homeFrame_of_no_import himports selectors).mono ?_ fun _ _ hfail => hfail.elim
  rintro home t ⟨hquiet, hrules, hsource, hheader⟩
  have hcaptured : captureFrames (home :: sc.frames) home.rules = r.rules := by
    rw [hrules]
    exact captureFrames_of_no_definition _ hdefinitions
  rw [hcaptured, ensures_bind]
  refine ensures_lift.2 ?_
  rw [Ruleset.rebuild, hheader, hsource]
  exact h _ _ ((Ruleset.builtIn_build _ _ _ t).after_quiet (hrecord.trans hquiet))

/-- A caller is compiled to what its sibling expands to. -/
theorem ensures_compileWith_caller {compile : Compiler}
    (h : CallSite sc s outer caller called call)
    (hselectors : caller.header.selectors.mapM sc.selector = .ok selectors) (hne : selectors ≠ [])
    (hcalled : Node.Ready base s called.rules)
    (hliteral : Rule.AllLiteral (s.rulesOf called.rules)) :
    Ensures (Ruleset.compileWith (Expander.upTo budget) compile sc caller) s
      (fun compiled t => budget ≠ 0 ∧
        caller.CallsTo selectors call.important s called.rules compiled t)
      fun e _ => call.Refused sc.options budget e := by
  have hrules : ∀ n ∈ caller.rules, n = .call call := by
    rw [h.rules]
    exact fun n hn => List.mem_singleton.1 hn
  refine ensures_compileWith_of_frame (fun n hn i => ?_) (fun n hn d => ?_) hselectors ?_
  · rw [hrules n hn]
    exact Node.noConfusion
  · rw [hrules n hn]
    exact Node.noConfusion
  · intro frame t hframe
    have hquiet := hframe.quiet
    have hsame := hquiet.adds.rulesOf hcalled.refer
    rw [← hsame] at hliteral
    refine (ensures_fillFrame_caller h hframe hne (hcalled.adds hquiet.adds) hliteral).mono ?_
      fun _ _ hfail => hfail
    rintro compiled u ⟨hbudget, hcalls⟩
    exact ⟨hbudget, hquiet.adds.trans hcalls.adds, hquiet.blocks ▸ hcalls.hoisted, hcalls.header,
      hsame ▸ hcalls.settled⟩

end Calls

end Stylesheet
