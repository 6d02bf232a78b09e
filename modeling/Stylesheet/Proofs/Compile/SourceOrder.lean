import Stylesheet.Proofs.Compile.Caller
import Stylesheet.Proofs.Rule.Joinable

/-!
# A call before or after the ruleset that it expands

A ruleset can be called before it in the source or after it. Before it, the call expands the ruleset
as it was read. After it, the ruleset has been compiled and put back in its place, and the call
expands what it was compiled to. That makes no difference, unless the ruleset has a media block.
The block was wrapped in the selectors of the ruleset then, which stay around its content when it
is expanded, so that the content is also under the selectors of a ruleset that only lends its rules.
-/

namespace Stylesheet

/-- The plain rules that a style sheet is compiled and joined to. -/
def compileRules (rules : List Rule) (options : Options) (sources : Option Sources) :
    Except Error (List Rule) :=
  ((do
    let root ← compileTree { options, sources } (← numberRules rules)
    return (← get).rulesOf root.rules : CompileM (List Rule)).run.run {}).1

section Steps

variable {sc : Scope} {s : Store} {frame root : Ruleset} {done : List Node} {slots : List Slot}

/-- A nested ruleset is compiled, and goes back into the frame. -/
theorem ensures_compileSlots_ruleset {compile : Compiler} {inside : Ruleset → Scope} {r : Ruleset}
    {post : Ruleset × List Node → Store → Prop} {fail : Error → Store → Prop}
    (h : Ensures (compile (inside frame) r) s
      (fun compiled t => ∀ (frame' : Ruleset) (u : Store),
        frame'.BuiltIn frame.header (done ++ [.ruleset compiled] ++ slots.map Slot.node)
            frame.source t u →
          Ensures (compileSlots (Node.compileWith compile) inside frame'
            (done ++ [.ruleset compiled]) slots) u post fail) fail) :
    Ensures (compileSlots (Node.compileWith compile) inside frame done
      (.own (.ruleset r) :: slots)) s post fail := by
  have hruleset : ∀ d, Node.ruleset r ≠ .definition d := fun d => Node.noConfusion
  rw [compileSlots_own hruleset, ensures_bind, Node.compileWith, ensures_bind]
  refine h.mono ?_ fun _ _ hfail => hfail
  intro compiled t hnext
  refine ensures_pure.2 ?_
  dsimp only
  rw [ensures_bind]
  exact ensures_lift.2 (hnext _ _ (Ruleset.builtIn_build _ _ _ t))

/-- A document of rulesets is compiled from its frame on, with enough levels for its height. -/
theorem ensures_compiler_document {expand : Expander} {post : Ruleset → Store → Prop}
    {fail : Error → Store → Prop} (hheader : root.header = Header.document)
    (hrules : ∀ n ∈ root.rules, ∃ r, n = .ruleset r)
    (h : ∀ (levels : Nat) (frame : Ruleset) (t : Store), s.heights root.rules ≤ levels →
      frame.BuiltIn Header.document root.rules (some root.serial) s t →
        Ensures (compileSlots (Node.compileWith (expand.nested levels)) (sc.enter · []) frame []
            (root.rules.map .own)) t
          (fun result u => ∀ (compiled : Ruleset) (v : Store),
            compiled.BuiltIn result.1.header result.2 result.1.source u v → post compiled v)
          fail) :
    Ensures (expand.compiler sc root) s post fail := by
  have hkinds : ∀ n ∈ root.rules, (∀ i, n ≠ .inclusion i) ∧ (∀ d, n ≠ .definition d) ∧
      ∀ c, n ≠ .call c := by
    intro n hn
    obtain ⟨r, rfl⟩ := hrules n hn
    exact ⟨fun i => Node.noConfusion, fun d => Node.noConfusion, fun c => Node.noConfusion⟩
  have hlevels : sc.levels s root.rules =
      s.heights root.rules + (sc.sources.map Sources.height).getD 0 + 1 := by
    rw [Scope.levels]
    omega
  have hselectors : root.header.selectors.mapM sc.selector = .ok [] := by
    rw [hheader]
    rfl
  rw [Expander.compiler, ensures_bind, ensures_get, hlevels, Expander.nested]
  refine ensures_compileWith_of_frame (fun n hn => (hkinds n hn).1)
    (fun n hn => (hkinds n hn).2.1) hselectors ?_
  intro frame t hframe
  have hcalls : ∀ n ∈ frame.rules, ∀ c, n ≠ .call c := by
    rw [hframe.rules_eq]
    exact fun n hn => (hkinds n hn).2.2
  have hdocument : frame.BuiltIn Header.document root.rules (some root.serial) s t :=
    { hframe with header_eq := by rw [hframe.header_eq, hheader]; rfl }
  rw [Ruleset.fillFrame, ensures_bind, ensures_get, expandCalls_of_no_call _ _ _ _ hcalls,
    pure_bind, ensures_bind, List.nil_append, hframe.rules_eq]
  refine (h _ frame t (Nat.le_add_right _ _) hdocument).mono ?_ fun _ _ hfail => hfail
  rintro ⟨frame', rules⟩ u hpost
  dsimp only
  rw [ensures_bind]
  exact ensures_lift.2 (ensures_lift.2 (hpost _ _ (Ruleset.builtIn_build _ _ _ u)))

/-- A document was compiled to literal rules that have the property. -/
structure Ruleset.Finished (P : List Rule → Prop) (compiled : Ruleset) (t : Store) : Prop where
  header : compiled.header = Header.document
  layered : LayeredFrom 0 t.blocks
  literal : Rule.AllLiteral (t.rulesOf compiled.rules)
  property : P (t.rulesOf compiled.rules)

/-- A document that is compiled to literal rules is joined. -/
theorem ensures_compileTree_of_finished {nodes : List Node} {P : List Rule → Prop}
    {fail : Error → Store → Prop} (hframes : sc.frames = [])
    (h : ∀ (root : Ruleset) (t : Store), root.BuiltIn Header.document nodes none s t →
      Ensures (root.compile sc) t (Ruleset.Finished P) fail) :
    Ensures (compileTree sc nodes) s
      (fun root t => ∃ rules, P rules ∧ Rule.joinAll [] rules = .ok (t.rulesOf root.rules))
      fail := by
  rw [compileTree, ensures_bind]
  refine ensures_lift.2 ?_
  rw [ensures_bind]
  refine (h _ _ (Ruleset.builtIn_build _ _ _ s)).mono ?_ fun _ _ hfail => hfail
  intro compiled t hcompiled
  rw [hframes, List.isEmpty_nil, if_pos rfl, ensures_bind]
  refine ensures_lift.2 ?_
  have helements : compiled.header.HasElements := by
    rw [hcompiled.header]
    exact List.forall_mem_nil _
  have hjoinable : Ensures compiled.join (t.record .joining) _ _ :=
    ensures_join_of_allLiteral helements hcompiled.layered hcompiled.literal
  refine (hjoinable.and (ensures_join_rulesOf compiled _)).mono ?_ fun _ _ hfail => hfail.1.elim
  rintro root u ⟨-, paths, inner, hpaths, -, hjoined⟩
  rw [hcompiled.header] at hpaths
  obtain ⟨⟩ := hpaths
  exact ⟨_, hcompiled.property, hjoined⟩

/-- A style sheet is compiled to joined rules, or the call is refused. -/
theorem compileRules_of_finished {rules : List Rule} {options : Options} {sources : Option Sources}
    {call : MixinCall} {P : List Rule → Prop}
    (h : ∀ (root : Ruleset) (t : Store),
      root.BuiltIn Header.document ((Node.ofRules rules).run 0).1 none
          { nextSerial := ((Node.ofRules rules).run 0).2 } t →
        Ensures (root.compile { options, sources }) t
          (Ruleset.Finished fun compiled => options.maxMixinDepth ≠ 0 ∧ P compiled)
          fun e _ => call.Refused options options.maxMixinDepth e) :
    (options.maxMixinDepth ≠ 0 ∧ ∃ compiled joined, P compiled ∧
        Rule.joinAll [] compiled = .ok joined ∧ compileRules rules options sources = .ok joined) ∨
      (options.maxMixinDepth = 0 ∧ compileRules rules options sources =
        .error (.mixinRecursion call.selector.text options.maxMixinDepth call.span)) := by
  have hrun : Ensures (do
      let root ← compileTree { options, sources } (← numberRules rules)
      return (← get).rulesOf root.rules : CompileM (List Rule)) {}
      (fun joined _ => ∃ compiled, (options.maxMixinDepth ≠ 0 ∧ P compiled) ∧
        Rule.joinAll [] compiled = .ok joined)
      fun e _ => call.Refused options options.maxMixinDepth e := by
    rw [ensures_bind]
    refine ensures_lift.2 ?_
    rw [run_numberRules, ensures_bind]
    exact (ensures_compileTree_of_finished rfl h).mono (fun root t hroot => hroot)
      fun _ _ hfail => hfail
  unfold Ensures at hrun
  split at hrun
  · rename_i joined t hdo
    obtain ⟨compiled, ⟨hdepth, hP⟩, hjoin⟩ := hrun
    exact .inl ⟨hdepth, compiled, joined, hP, hjoin, by rw [compileRules, hdo]⟩
  · rename_i e t hdo
    obtain ⟨hdepth, rfl⟩ := hrun
    exact .inr ⟨hdepth, by rw [compileRules, hdo]⟩

end Steps

/-- The header as it is compiled if its selectors are literal. -/
def Header.settle (h : Header) : Header :=
  { h with selectors := h.selectors.map Selector.evaluate, paths := [] }

/-- A query with the elements of a selector is matched by it as a whole. -/
theorem Selector.firstMatch?_of_elements_eq {query own : Selector}
    (h : query.elements = own.elements) (hne : own.elements ≠ []) :
    query.firstMatch? [own] = some query.elements.length := by
  obtain ⟨e, es, hown⟩ := List.exists_cons_of_ne_nil hne
  have hlength : query.matchLength own = query.elements.length := by
    rw [matchLength, h, hown]
    exact if_pos ⟨rfl, List.prefix_rfl⟩
  have hsome : query.elements.length ≠ 0 := by
    rw [h, hown]
    exact Nat.succ_ne_zero _
  rw [firstMatch?, List.map_cons, hlength, List.find?_cons_of_pos (by simpa using hsome)]

/-- One ruleset has one selector and literal rules, and the other has nothing but a call of it. -/
structure CallPair (a b : Header) (body : List Rule) (call : MixinCall) : Prop where
  called : ∃ σ, a.selectors = [σ] ∧ call.selector.elements = σ.elements
  literal : (Rule.ruleset a body).IsLiteral
  caller_ne : b.selectors ≠ []
  caller_literal : ∀ σ ∈ b.selectors, σ.IsLiteral ∧ σ.elements ≠ []
  args : call.args = []

/-- The two rulesets with their numbers, in a store in which nothing was compiled yet. -/
structure CallPair.Numbered (a b : Header) (body : List Rule) (call : MixinCall) (s : Store)
    (called caller : Ruleset) : Prop where
  called_header : called.header = a
  called_rules : ∃ next, called.rules = ((Node.ofRules body).run next).1
  caller_header : caller.header = b
  caller_rules : caller.rules = [.call call]
  called_lt : called.serial < s.nextSerial
  caller_lt : caller.serial < s.nextSerial
  serial_ne : called.serial ≠ caller.serial
  blocks : s.blocks = []
  memo : s.memo = []

namespace CallPair

variable {a b : Header} {body : List Rule} {call : MixinCall} {sc : Scope} {s t : Store}
variable {called caller root : Ruleset}

theorem Numbered.quiet (h : Numbered a b body call s called caller) (hst : s.Quiet t) :
    Numbered a b body call t called caller :=
  { h with
    called_lt := Nat.lt_of_lt_of_le h.called_lt hst.nextSerial
    caller_lt := Nat.lt_of_lt_of_le h.caller_lt hst.nextSerial
    blocks := hst.blocks.trans h.blocks
    memo := hst.memo.trans h.memo }

theorem Numbered.rulesOf_called (h : Numbered a b body call s called caller) (u : Store) :
    u.rulesOf called.rules = body := by
  obtain ⟨next, hrules⟩ := h.called_rules
  rw [hrules, Store.rulesOf_eq_readAll, Node.readAll_ofRules]

theorem Numbered.ready (h : Numbered a b body call s called caller) (hp : CallPair a b body call)
    (u : Store) : Node.Ready u.blocks.length u called.rules := by
  obtain ⟨next, hrules⟩ := h.called_rules
  rw [hrules]
  exact Node.ready_ofRules hp.literal.2.allStandAlone next u

theorem mapM_caller (hp : CallPair a b body call) (sc : Scope) :
    b.selectors.mapM sc.selector = .ok b.settle.selectors :=
  mapM_selector_of_isLiteral sc fun σ hσ => (hp.caller_literal σ hσ).1

theorem settle_ne (hp : CallPair a b body call) : b.settle.selectors ≠ [] := by
  rw [Header.settle, ne_eq, List.map_eq_nil_iff]
  exact hp.caller_ne

theorem found (hp : CallPair a b body call) {header : Header}
    (h : header = a ∨ header = a.settle) :
    call.selector.firstMatch? header.selectors = some call.selector.elements.length := by
  obtain ⟨σ, ha, hcall⟩ := hp.called
  have hne : σ.elements ≠ [] := (hp.literal.1 σ (by rw [ha]; exact List.mem_singleton.2 rfl)).2
  rcases h with rfl | rfl
  · rw [ha]
    exact Selector.firstMatch?_of_elements_eq hcall hne
  · have hevaluated : call.selector.elements = σ.evaluate.elements := hcall
    rw [Header.settle, ha]
    exact Selector.firstMatch?_of_elements_eq hevaluated hne

/-- The called ruleset is settled in its own place. -/
theorem ensures_nested_called (hp : CallPair a b body call)
    (hn : Numbered a b body call s called caller) (expand : Expander) {levels : Nat}
    (hlevels : Rule.heights body < levels) (u : Store) :
    Ensures (expand.nested levels sc called) u
      (fun compiled t => u.nextSerial ≤ compiled.serial ∧ compiled.serial < t.nextSerial ∧
        compiled.header = a.settle ∧
          Node.SettleTo [a.settle.selectors] u called.rules compiled.rules t)
      fun _ _ => False := by
  have hselectors : ∀ σ ∈ called.header.selectors, σ.IsLiteral := by
    rw [hn.called_header]
    exact fun σ hσ => (hp.literal.1 σ hσ).1
  refine (Compiler.SettlesRules.nested expand levels _ sc called u (hn.ready hp u)).mono ?_ ?_
  · intro compiled t hcompiled
    obtain ⟨sc', selectors, hmap, hheader, hsettle⟩ := hcompiled.settled
    rw [mapM_selector_of_isLiteral sc' hselectors] at hmap
    cases hmap
    rw [hn.called_header] at hheader hsettle
    have hlink : Rule.link a.settle.selectors = [a.settle.selectors] := by
      obtain ⟨σ, ha, -⟩ := hp.called
      rw [Header.settle, ha]
      rfl
    exact ⟨hcompiled.le_serial, hcompiled.serial_lt, hheader, hlink ▸ hsettle⟩
  · intro e t hfail
    rw [hn.rulesOf_called u] at hfail
    exact hfail ⟨hselectors, hp.literal.2.allFilled, hlevels⟩

/-- The called ruleset is lower than the document that it stands in. -/
theorem Numbered.heights_lt (h : Numbered a b body call s called caller)
    (hp : CallPair a b body call) (hroot : .ruleset called ∈ root.rules) :
    Rule.heights body < s.heights root.rules := by
  have hready := h.ready hp s
  have hrules := hready.layered.heights_rulesOf_le hready.refer
  rw [h.rulesOf_called] at hrules
  have hruleset : Node.height s.blockHeights (.ruleset called) = s.heights called.rules + 1 := by
    cases called
    rfl
  have hheight : Node.height s.blockHeights (.ruleset called) ≤ s.heights root.rules :=
    Node.height_le_heights hroot
  omega

/-- What literal rulesets with settled rules are compiled to is literal. -/
theorem allLiteral_called (hp : CallPair a b body call) {once : List Rule}
    (h : Rule.Settled [a.settle.selectors] body once) :
    (Rule.ruleset a.settle once).IsLiteral ∧ Rule.AllLiteral once := by
  have hselectors : ∀ σ ∈ a.settle.selectors, σ.IsLiteral ∧ σ.elements ≠ [] :=
    List.forall_mem_map.2 hp.literal.1
  have honce := h.allLiteral hp.literal.2 (List.forall_mem_singleton.2 hselectors)
  exact ⟨⟨hselectors, honce⟩, honce⟩

theorem isLiteral_caller (hp : CallPair a b body call) {source settled : List Rule}
    (h : Rule.Settled [] source settled) (hsource : Rule.AllLiteral source) :
    (Rule.ruleset b.settle
      (Rule.bubbleAll b.settle.selectors (Rule.expanded call.important settled))).IsLiteral := by
  have hselectors : ∀ σ ∈ b.settle.selectors, σ.IsLiteral ∧ σ.elements ≠ [] :=
    List.forall_mem_map.2 hp.caller_literal
  have hsettled := h.allLiteral hsource (List.forall_mem_nil _)
  exact ⟨hselectors, (hsettled.expanded call.important).bubbleAll hselectors⟩

/-- Where the called ruleset comes first, it is settled in its own place, and what it was settled to
is settled again for the call. -/
def CalledFirst (a b : Header) (body : List Rule) (call : MixinCall) (rules : List Rule) : Prop :=
  ∃ once twice, Rule.Settled [a.settle.selectors] body once ∧ Rule.Settled [] once twice ∧
    rules = [.ruleset a.settle once, .ruleset b.settle
      (Rule.bubbleAll b.settle.selectors (Rule.expanded call.important twice))]

/-- Where the caller comes first, the rules are settled for the call as they were read. -/
def CallerFirst (a b : Header) (body : List Rule) (call : MixinCall) (rules : List Rule) : Prop :=
  ∃ once direct, Rule.Settled [a.settle.selectors] body once ∧ Rule.Settled [] body direct ∧
    rules = [.ruleset b.settle
      (Rule.bubbleAll b.settle.selectors (Rule.expanded call.important direct)),
      .ruleset a.settle once]

theorem rulesOf_pair (s : Store) (r r' : Ruleset) :
    s.rulesOf [.ruleset r, .ruleset r'] =
      [.ruleset r.header (s.rulesOf r.rules), .ruleset r'.header (s.rulesOf r'.rules)] := by
  cases r
  cases r'
  simp only [Store.rulesOf_eq_readAll, Node.readAll, Node.read]

/-- Where the call finds its sibling once that is compiled and back in the frame. -/
theorem Numbered.callSite_of_settled (hp : CallPair a b body call)
    (hn : Numbered a b body call s called caller) (hframes : sc.frames = []) {serial : Nat}
    (hserial : serial < s.nextSerial) {compiled frame : Ruleset} {header : Header} {u : Store}
    (hcompiled : compiled.header = a.settle) (hle : s.nextSerial ≤ compiled.serial)
    (hlt : compiled.serial < t.nextSerial) (hmemo : t.memo = [])
    (hframe : frame.BuiltIn header [.ruleset compiled, .ruleset caller] (some serial) t u) :
    CallSite (sc.enter frame []) u frame caller compiled call where
  rules := hn.caller_rules
  args := hp.args
  found := hp.found (.inr hcompiled)
  frames := by rw [Scope.enter, hframes]
  siblings := ⟨[], [.ruleset caller], hframe.rules_eq, fun n hn => List.mem_singleton.1 hn⟩
  memo := hframe.quiet.memo.trans hmemo
  outer_lt := hframe.serial_lt
  called_lt := Nat.lt_of_lt_of_le hlt hframe.quiet.nextSerial
  ne_caller := Nat.ne_of_gt (Nat.lt_of_lt_of_le hn.caller_lt hle)
  ne_outer := Nat.ne_of_lt (Nat.lt_of_lt_of_le hlt hframe.le_serial)
  ne_source := by
    rw [hframe.source_eq]
    exact fun h => Nat.ne_of_gt (Nat.lt_of_lt_of_le hserial hle) (Option.some.inj h)

/-- Where the call finds its sibling before that is compiled. -/
theorem Numbered.callSite (hp : CallPair a b body call)
    (hn : Numbered a b body call s called caller) (hframes : sc.frames = []) {serial : Nat}
    (hserial : called.serial < serial) {frame : Ruleset} {header : Header}
    (hframe : frame.BuiltIn header [.ruleset caller, .ruleset called] (some serial) s t) :
    CallSite (sc.enter frame []) t frame caller called call where
  rules := hn.caller_rules
  args := hp.args
  found := hp.found (.inl hn.called_header)
  frames := by rw [Scope.enter, hframes]
  siblings := ⟨[.ruleset caller], [], hframe.rules_eq, fun n hn => List.mem_singleton.1 hn⟩
  memo := hframe.quiet.memo.trans hn.memo
  outer_lt := hframe.serial_lt
  called_lt := Nat.lt_of_lt_of_le hn.called_lt hframe.quiet.nextSerial
  ne_caller := hn.serial_ne
  ne_outer := Nat.ne_of_lt (Nat.lt_of_lt_of_le hn.called_lt hframe.le_serial)
  ne_source := by
    rw [hframe.source_eq]
    exact fun h => Nat.ne_of_lt hserial (Option.some.inj h)

/-- The caller is compiled to what the sibling expands to. -/
theorem ensures_nested_caller (hp : CallPair a b body call)
    (hn : Numbered a b body call s called caller) {levels base : Nat} {outer sibling : Ruleset}
    (hsite : CallSite (sc.enter outer []) t outer caller sibling call) (hlevels : levels ≠ 0)
    (hready : Node.Ready base t sibling.rules)
    (hliteral : Rule.AllLiteral (t.rulesOf sibling.rules)) :
    Ensures (sc.expander.nested levels (sc.enter outer []) caller) t
      (fun compiled u => sc.budget ≠ 0 ∧
        caller.CallsTo b.settle.selectors call.important t sibling.rules compiled u)
      fun e _ => call.Refused sc.options sc.budget e := by
  obtain ⟨levels, rfl⟩ := Nat.exists_eq_succ_of_ne_zero hlevels
  have hmap : caller.header.selectors.mapM (sc.enter outer []).selector =
      .ok b.settle.selectors := by
    rw [hn.caller_header]
    exact hp.mapM_caller _
  exact ensures_compileWith_caller hsite hmap hp.settle_ne hready hliteral

theorem ensures_compile_called_first (hp : CallPair a b body call)
    (hn : Numbered a b body call s called caller) (hframes : sc.frames = [])
    (hroot : root.rules = [.ruleset called, .ruleset caller])
    (hheader : root.header = Header.document) (hserial : root.serial < s.nextSerial) :
    Ensures (root.compile sc) s
      (Ruleset.Finished fun rules => sc.budget ≠ 0 ∧ CalledFirst a b body call rules)
      fun e _ => call.Refused sc.options sc.budget e := by
  have hheights : Rule.heights body < s.heights root.rules := hn.heights_lt hp (by simp [hroot])
  refine ensures_compiler_document hheader (by simp [hroot]) ?_
  intro levels frame t hlevels hframe
  have hquiet := hframe.quiet
  rw [hroot, List.map_cons, List.map_cons, List.map_nil]
  refine ensures_compileSlots_ruleset ?_
  refine (hp.ensures_nested_called hn _ (Nat.lt_of_lt_of_le hheights hlevels) t).mono ?_
    fun _ _ hfail => hfail.elim
  rintro compiled u ⟨hfrom, hbelow, hown, hsettle⟩ frame' v hframe'
  have honce := hsettle.settled
  rw [hn.rulesOf_called] at honce
  obtain ⟨hcalled, hliteral⟩ := hp.allLiteral_called honce
  have hready := (hsettle.ready hliteral.allStandAlone).adds hframe'.quiet.adds
  have hsame : v.rulesOf compiled.rules = u.rulesOf compiled.rules :=
    hframe'.quiet.adds.rulesOf hsettle.hoisted.referWithin
  rw [hframe.source_eq] at hframe'
  have hsite : CallSite (sc.enter frame' []) v frame' caller compiled call :=
    hn.callSite_of_settled hp hframes hserial hown (Nat.le_trans hquiet.nextSerial hfrom) hbelow
      (hsettle.memo.trans (hquiet.memo.trans hn.memo)) hframe'
  refine ensures_compileSlots_ruleset ?_
  refine (hp.ensures_nested_caller hn hsite (by omega) hready (hsame ▸ hliteral)).mono ?_
    fun _ _ hfail => hfail
  rintro caller' w ⟨hbudget, hcalls⟩ frame'' x hframe''
  obtain ⟨twice, htwice, hexpanded⟩ := hcalls.settled
  rw [compileSlots]
  refine ensures_pure.2 ?_
  intro final y hfinal
  have hafter := hframe''.quiet.adds.trans hfinal.quiet.adds
  have hadds := hframe'.quiet.adds.trans (hcalls.adds.trans hafter)
  have hread : y.rulesOf final.rules =
      [.ruleset a.settle (u.rulesOf compiled.rules), .ruleset b.settle
        (Rule.bubbleAll b.settle.selectors (Rule.expanded call.important twice))] := by
    rw [hfinal.rules_eq]
    refine (rulesOf_pair y compiled caller').trans ?_
    rw [hown, hcalls.header, hn.caller_header, hadds.rulesOf hsettle.hoisted.referWithin,
      hafter.rulesOf hcalls.hoisted.referWithin, hexpanded]
    rfl
  have hempty : t.blocks.length = 0 := by rw [hquiet.blocks, hn.blocks, List.length_nil]
  constructor
  · rw [hfinal.header_eq, hframe''.header_eq, hframe'.header_eq, hframe.header_eq]
  · exact hempty ▸ (hsettle.adds.trans hadds).layered
  · rw [hread]
    exact ⟨hcalled, hp.isLiteral_caller htwice (hsame ▸ hliteral), trivial⟩
  · exact ⟨hbudget, _, twice, honce, hsame ▸ htwice, hread⟩

theorem ensures_compile_caller_first (hp : CallPair a b body call)
    (hn : Numbered a b body call s called caller) (hframes : sc.frames = [])
    (hroot : root.rules = [.ruleset caller, .ruleset called])
    (hheader : root.header = Header.document) (hserial : called.serial < root.serial) :
    Ensures (root.compile sc) s
      (Ruleset.Finished fun rules => sc.budget ≠ 0 ∧ CallerFirst a b body call rules)
      fun e _ => call.Refused sc.options sc.budget e := by
  have hheights : Rule.heights body < s.heights root.rules := hn.heights_lt hp (by simp [hroot])
  refine ensures_compiler_document hheader (by simp [hroot]) ?_
  intro levels frame t hlevels hframe
  rw [hroot] at hframe
  have hsite := hn.callSite hp hframes hserial hframe
  have hbody : t.rulesOf called.rules = body := hn.rulesOf_called t
  rw [hroot, List.map_cons, List.map_cons, List.map_nil]
  refine ensures_compileSlots_ruleset ?_
  refine (hp.ensures_nested_caller hn hsite (by omega) (hn.ready hp t)
    (hbody.symm ▸ hp.literal.2)).mono ?_ fun _ _ hfail => hfail
  rintro caller' u ⟨hbudget, hcalls⟩ frame' v hframe'
  obtain ⟨direct, hdirect, hexpanded⟩ := hcalls.settled
  rw [hbody] at hdirect
  refine ensures_compileSlots_ruleset ?_
  refine (hp.ensures_nested_called hn _ (Nat.lt_of_lt_of_le hheights hlevels) v).mono ?_
    fun _ _ hfail => hfail.elim
  rintro compiled w ⟨-, -, hown, hsettle⟩ frame'' x hframe''
  have honce := hsettle.settled
  rw [hn.rulesOf_called] at honce
  rw [compileSlots]
  refine ensures_pure.2 ?_
  intro final y hfinal
  have hafter := hframe''.quiet.adds.trans hfinal.quiet.adds
  have hadds := hframe'.quiet.adds.trans (hsettle.adds.trans hafter)
  have hread : y.rulesOf final.rules = [.ruleset b.settle
        (Rule.bubbleAll b.settle.selectors (Rule.expanded call.important direct)),
        .ruleset a.settle (w.rulesOf compiled.rules)] := by
    rw [hfinal.rules_eq]
    refine (rulesOf_pair y caller' compiled).trans ?_
    rw [hown, hcalls.header, hn.caller_header, hadds.rulesOf hcalls.hoisted.referWithin,
      hafter.rulesOf hsettle.hoisted.referWithin, hexpanded]
    rfl
  have hempty : t.blocks.length = 0 := by rw [hframe.quiet.blocks, hn.blocks, List.length_nil]
  constructor
  · rw [hfinal.header_eq, hframe''.header_eq, hframe'.header_eq, hframe.header_eq]
  · exact hempty ▸ (hcalls.adds.trans hadds).layered
  · rw [hread]
    exact ⟨hp.isLiteral_caller hdirect hp.literal.2, (hp.allLiteral_called honce).1, trivial⟩
  · exact ⟨hbudget, _, direct, honce, hdirect, hread⟩

theorem compileRules_called_first (hp : CallPair a b body call) (options : Options)
    (sources : Option Sources) :
    let rules : List Rule := [.ruleset a body, .ruleset b [.call call]]
    (options.maxMixinDepth ≠ 0 ∧ ∃ compiled joined, CalledFirst a b body call compiled ∧
        Rule.joinAll [] compiled = .ok joined ∧ compileRules rules options sources = .ok joined) ∨
      (options.maxMixinDepth = 0 ∧ compileRules rules options sources =
        .error (.mixinRecursion call.selector.text options.maxMixinDepth call.span)) := by
  intro rules
  refine compileRules_of_finished fun root t hroot => ?_
  have hafter := Node.le_next_ofRules body 1
  -- The numbers are given out from left to right and from the outside in.
  have hn : Numbered a b body call { nextSerial := ((Node.ofRules rules).run 0).2 }
      ⟨0, none, a, ((Node.ofRules body).run 1).1⟩
      ⟨((Node.ofRules body).run 1).2, none, b, [.call call]⟩ :=
    { called_header := rfl
      called_rules := ⟨1, rfl⟩
      caller_header := rfl
      caller_rules := rfl
      called_lt := Nat.zero_lt_succ _
      caller_lt := Nat.lt_succ_self _
      serial_ne := Nat.ne_of_lt hafter
      blocks := rfl
      memo := rfl }
  exact hp.ensures_compile_called_first (hn.quiet hroot.quiet) rfl hroot.rules_eq hroot.header_eq
    hroot.serial_lt

theorem compileRules_caller_first (hp : CallPair a b body call) (options : Options)
    (sources : Option Sources) :
    let rules : List Rule := [.ruleset b [.call call], .ruleset a body]
    (options.maxMixinDepth ≠ 0 ∧ ∃ compiled joined, CallerFirst a b body call compiled ∧
        Rule.joinAll [] compiled = .ok joined ∧ compileRules rules options sources = .ok joined) ∨
      (options.maxMixinDepth = 0 ∧ compileRules rules options sources =
        .error (.mixinRecursion call.selector.text options.maxMixinDepth call.span)) := by
  intro rules
  refine compileRules_of_finished fun root t hroot => ?_
  have hafter : 2 ≤ ((Node.ofRules rules).run 0).2 := Node.le_next_ofRules body 2
  have hn : Numbered a b body call { nextSerial := ((Node.ofRules rules).run 0).2 }
      ⟨1, none, a, ((Node.ofRules body).run 2).1⟩ ⟨0, none, b, [.call call]⟩ :=
    { called_header := rfl
      called_rules := ⟨2, rfl⟩
      caller_header := rfl
      caller_rules := rfl
      called_lt := hafter
      caller_lt := Nat.lt_of_lt_of_le Nat.zero_lt_two hafter
      serial_ne := Nat.one_ne_zero
      blocks := rfl
      memo := rfl }
  exact hp.ensures_compile_caller_first (hn.quiet hroot.quiet) rfl hroot.rules_eq hroot.header_eq
    (Nat.lt_of_lt_of_le hafter hroot.le_serial)

end CallPair

/-- Two rulesets stand beside each other, one with a literal selector and literal rules, the other
with nothing but a call of it. The caller is compiled and joined to the same rule in both orders
exactly if the called ruleset has no media block, or else no mixin may be expanded at all, so that
both orders fail alike. -/
theorem compileRules_swap_iff {a b : Header} {σ : Selector} {body : List Rule} {call : MixinCall}
    (ha : a.selectors = [σ]) (hcalled : (Rule.ruleset a body).IsLiteral)
    (hb : b.selectors ≠ []) (hcaller : ∀ τ ∈ b.selectors, τ.IsLiteral ∧ τ.elements ≠ [])
    (hcall : call.selector.elements = σ.elements) (hargs : call.args = [])
    (options : Options) (sources : Option Sources) :
    let called : Rule := .ruleset a body
    let caller : Rule := .ruleset b [.call call]
    (compileRules [called, caller] options sources).map (fun rules => rules[1]?) =
        (compileRules [caller, called] options sources).map (fun rules => rules[0]?) ↔
      Rule.mediaCount body = 0 ∨ options.maxMixinDepth = 0 := by
  intro called caller
  have hp : CallPair a b body call := ⟨⟨σ, ha, hcall⟩, hcalled, hb, hcaller, hargs⟩
  rcases hp.compileRules_called_first options sources with
    ⟨hdepth, _, _, ⟨once, twice, honce, htwice, rfl⟩, hjoin, hrun⟩ | ⟨hdepth, hrun⟩
  · rcases hp.compileRules_caller_first options sources with
      ⟨-, _, _, ⟨_, direct, -, hdirect, rfl⟩, hjoin', hrun'⟩ | ⟨hzero, -⟩
    · obtain ⟨_, _, -, hrest, rfl⟩ := Rule.joinAll_cons_eq_ok_iff.1 hjoin
      obtain ⟨second, _, hsecond, -, rfl⟩ := Rule.joinAll_cons_eq_ok_iff.1 hrest
      obtain ⟨first, _, hfirst, -, rfl⟩ := Rule.joinAll_cons_eq_ok_iff.1 hjoin'
      have hiff := Rule.join_expanded_again_iff hcalled.2 honce htwice hdirect hsecond hfirst
      rw [hrun, hrun', or_iff_left hdepth, ← hiff]
      simp [Except.map]
    · exact absurd hzero hdepth
  · rcases hp.compileRules_caller_first options sources with ⟨hnonzero, -⟩ | ⟨-, hrun'⟩
    · exact absurd hdepth hnonzero
    · rw [hrun, hrun']
      exact ⟨fun _ => .inr hdepth, fun _ => rfl⟩

/-- Nested rulesets and an important call do not depend on the order, and a media block does. -/
theorem compileRules_swap_iff_media :
    let a : Header := { selectors := [{ elements := [⟨.compound, ".a"⟩] }] }
    let b : Header := { selectors := [{ elements := [⟨.compound, ".b"⟩] }] }
    let call : MixinCall := { selector := { elements := [⟨.compound, ".a"⟩] }, important := true }
    let plain : Rule := .ruleset { selectors := [{ elements := [⟨.compound, "&"⟩,
      ⟨.compound, ":hover"⟩] }] } [.declaration { name := "color", value := .read "red" }]
    let caller : Rule := .ruleset b [.call call]
    (compileRules [.ruleset a [plain], caller] {} none).map (fun rules => rules[1]?) =
        (compileRules [caller, .ruleset a [plain]] {} none).map (fun rules => rules[0]?) ∧
      (compileRules [.ruleset a [.media { features := "print" } [plain]], caller] {} none).map
          (fun rules => rules[1]?) ≠
        (compileRules [caller, .ruleset a [.media { features := "print" } [plain]]] {} none).map
          (fun rules => rules[0]?) := by
  intro a b call plain caller
  have hselector : ∀ σ ∈ a.selectors, σ.IsLiteral ∧ σ.elements ≠ [] := by decide
  have hcaller : ∀ σ ∈ b.selectors, σ.IsLiteral ∧ σ.elements ≠ [] := by decide
  have hvalue : (Value.read "red").isResolved = true := by decide +kernel
  have hplain : plain.IsLiteral := ⟨by decide, ⟨by decide, hvalue⟩, trivial⟩
  have hnested : (Rule.ruleset a [plain]).IsLiteral := ⟨hselector, hplain, trivial⟩
  have hmedia : (Rule.ruleset a [.media { features := "print" } [plain]]).IsLiteral :=
    ⟨hselector, ⟨hplain, trivial⟩, trivial⟩
  constructor
  · exact (compileRules_swap_iff rfl hnested (by decide) hcaller rfl rfl {} none).2 (.inl rfl)
  · intro hswap
    have hnone := (compileRules_swap_iff rfl hmedia (by decide) hcaller rfl rfl {} none).1 hswap
    revert hnone
    decide

/-- A media block under `.a` that is called from `.b` comes out under `.b .a` if the call is after
it, and under `.b` if the call is before it. -/
theorem compileToCss_call_after_media :
    let called : Rule := .ruleset { selectors := [{ elements := [⟨.compound, ".a"⟩] }] }
      [.media { features := "print" } [.declaration { name := "color", value := .read "red" }]]
    let caller : Rule := .ruleset { selectors := [{ elements := [⟨.compound, ".b"⟩] }] }
      [.call { selector := { elements := [⟨.compound, ".a"⟩] } }]
    compileToCss [called, caller] { compress := true } none =
        .ok "@media print\x7b.a\x7bcolor:red\x7d\x7d@media print\x7b.b .a\x7bcolor:red\x7d\x7d" ∧
      compileToCss [caller, called] { compress := true } none =
        .ok "@media print\x7b.b\x7bcolor:red\x7d\x7d@media print\x7b.a\x7bcolor:red\x7d\x7d" := by
  decide +kernel

end Stylesheet
