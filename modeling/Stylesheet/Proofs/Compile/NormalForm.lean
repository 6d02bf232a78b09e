import Stylesheet.Proofs.Compile.Tidy

/-!
# Compiled rulesets are in normal form

Whatever ruleset is compiled, in whatever scope and from whatever store: if this succeeds,
the result with its blocks written out is in normal form. Nodes get into the result by
several ways. They are compiled in place, they come compiled from the expansion of a
mixin, or they were definitions and took hold of their frames before. The slots of a
ruleset tell these ways apart, and what is known of each slot is what the last pass needs.
-/

namespace Stylesheet

variable {start : Start}

/-- The node was prepared: where imports are lenient, only those are left that stay, and a
definition has hold of its frames. -/
structure Node.Prepared (start : Start) (n : Node) : Prop where
  lenient : start.lenient → n.Lenient start.reach
  inclusion : ∀ i, n = .inclusion i → start.lenient → i.css = true
  definition : ∀ d, n = .definition d → d.closure.isSome = true

/-- The node in the slot was compiled, or it was prepared and is no call. -/
def Slot.Prepared (start : Start) : Slot → Prop
  | .expanded n => n.Done start
  | .own n => n.Prepared start ∧ ∀ c, n ≠ .call c

theorem Slot.Prepared.lenient {slot : Slot} (h : slot.Prepared start) (hl : start.lenient) :
    slot.node.Lenient start.reach := by
  cases slot with
  | expanded n => exact Node.Done.lenient h hl
  | own n => exact h.1.lenient hl

/-- The ruleset is within reach, and its rules are lenient. -/
def Ruleset.Open (start : Start) (r : Ruleset) : Prop :=
  start.lenient → start.reach.ruleset r.serial ∧ ∀ n ∈ r.rules, n.Lenient start.reach

/-- In lenient scopes, the compiler gives rulesets in normal form. -/
def Compiler.Tidies (start : Start) (compile : Compiler) : Prop :=
  ∀ sc r, (start.lenient → sc.Lenient start.reach) →
    (start.lenient → r.header.strictImports = false ∧ ∀ n ∈ r.rules, n.Lenient start.reach) →
    Stylesheet.Tidies start (compile sc r) fun r' => (Node.ruleset r').Done start

/-- In lenient scopes, the expander gives nodes in normal form. -/
def Expander.Tidies (start : Start) (expand : Expander) : Prop :=
  ∀ sc call args c, (start.lenient → sc.Lenient start.reach) →
    (start.lenient → c.Lenient start.reach) →
    Stylesheet.Tidies start (expand sc call args c) fun nodes => ∀ n ∈ nodes, n.Done start

theorem Scope.Lenient.enter {sc : Scope} {reach : Reach} (h : sc.Lenient reach) {frame : Ruleset}
    (hframe : reach.ruleset frame.serial ∧ ∀ n ∈ frame.rules, n.Lenient reach)
    (selectors : List Selector) : (sc.enter frame selectors).Lenient reach where
  installed := h.installed
  options := h.options
  frames := List.forall_mem_cons.2 ⟨hframe, h.frames⟩
  sources := h.sources

section Imports

/-- The nodes that an import is replaced by. -/
def Imported (start : Start) (nodes : List Node) : Prop :=
  ∀ n ∈ nodes, (start.lenient → n.Lenient start.reach) ∧
    ∀ i, n = .inclusion i → start.lenient → i.css = true

theorem tidies_replaceImports {replace : Import → CompileM (List Node)}
    (h : ∀ i, Tidies start (replace i) (Imported start)) {nodes : List Node}
    (hnodes : start.lenient → ∀ n ∈ nodes, n.Lenient start.reach) :
    Tidies start (replaceImports replace nodes) (Imported start) := by
  induction nodes with
  | nil => exact .pure fun n hn => by cases hn
  | cons node nodes ih =>
    have hrest := ih fun hl n hn => hnodes hl n (by simp [hn])
    cases node with
    | inclusion i =>
      refine (h i).bind fun replacement hreplacement => hrest.bind fun more hmore => .pure ?_
      exact List.forall_mem_append.2 ⟨hreplacement, hmore⟩
    | _ =>
      refine hrest.bind fun more hmore => .pure ?_
      refine List.forall_mem_cons.2 ⟨⟨fun hl => hnodes hl _ (by simp), ?_⟩, hmore⟩
      rintro i ⟨⟩

theorem tidies_load (path : String) {rules : List Rule}
    (h : start.lenient → ∀ rule ∈ rules, rule.Fits .lenient) :
    Tidies start (liftM (load path rules)) fun loaded =>
      ∀ nodes, loaded = some nodes → start.lenient → ∀ n ∈ nodes, n.Lenient start.reach := by
  refine .lift fun s hs => ?_
  by_cases hpath : path ∈ s.imported
  · rw [run_load_of_imported hpath]
    refine ⟨?_, hs.quiet (s.quiet_record _)⟩
    rintro nodes ⟨⟩
  · obtain ⟨next, t, hload, hblocks, -, hmemo, -, hnext, hserial⟩ := run_load_of_new hpath rules
    rw [hload]
    refine ⟨?_, hs.later hblocks hmemo hserial⟩
    rintro nodes ⟨⟩ hl
    exact Node.forall_ofRules
      (fun rule hrule => Node.lenient_ofRule (h hl rule hrule) (hs.lenient hl).rulesets) hnext

theorem tidies_importCompile {sc : Scope} (hsc : start.lenient → sc.Lenient start.reach)
    (i : Import) : Tidies start (i.compile sc) (Imported start) := by
  have hkept : ∀ {i : Import}, (start.lenient → i.css = true) →
      Tidies start (pure [.inclusion i]) (Imported start) := by
    intro i hcss
    refine .pure (List.forall_mem_singleton.2 ⟨fun _ => .inclusion i, ?_⟩)
    rintro _ ⟨⟩
    exact hcss
  induction sc, i using Import.compile.induct with
  | case1 sc i hcss =>
    rw [Import.compile_of_css hcss]
    exact hkept fun _ => hcss
  | case2 sc i hcss hi =>
    rw [Import.compile_of_importing hcss hi]
    exact .throw _
  | case3 sc i hcss hi hs =>
    rw [Import.compile_of_no_sources hcss hi hs]
    exact hkept fun hl => absurd hs (hsc hl).installed
  | case4 sc i hcss hi sources hs hlookup =>
    rw [Import.compile_of_not_found hcss hi hs hlookup]
    exact .throw _
  | case5 sc i hcss hi sources hs rules hlookup ih =>
    rw [Import.compile_of_found hcss hi hs hlookup]
    have hfits : start.lenient → ∀ rule ∈ rules, rule.Fits .lenient := by
      intro hl
      obtain ⟨before, after, htable, -⟩ := List.lookup_eq_some_iff.1 hlookup
      exact (hsc hl).sources sources hs (i.path, rules) (by rw [htable]; simp)
    refine (tidies_load i.path hfits).bind fun loaded hloaded => ?_
    cases loaded with
    | none => exact .pure fun n hn => by cases hn
    | some nodes =>
      refine tidies_replaceImports (fun j => ih j ?_) (hloaded nodes rfl)
      exact fun hl => ⟨(hsc hl).installed, (hsc hl).options, (hsc hl).frames, (hsc hl).sources⟩

end Imports

section Calls

variable {expand : Expander} {sc : Scope}

theorem tidies_expandAll {expand : Candidate → CompileM (List Node)} {candidates : List Candidate}
    (h : ∀ c ∈ candidates, Tidies start (expand c) fun nodes => ∀ n ∈ nodes, n.Done start) :
    Tidies start (expandAll expand candidates) fun nodes => ∀ n ∈ nodes, n.Done start := by
  induction candidates with
  | nil => exact .pure fun n hn => by cases hn
  | cons c candidates ih =>
    refine (h c (by simp)).bind fun nodes hnodes => ?_
    refine (ih fun c hc => h c (by simp [hc])).bind fun more hmore => .pure ?_
    exact List.forall_mem_append.2 ⟨hnodes, hmore⟩

theorem tidies_call (hexpand : expand.Tidies start)
    (hsc : start.lenient → sc.Lenient start.reach) (call : MixinCall) :
    Tidies start (call.compileWith expand sc) fun nodes => ∀ n ∈ nodes, n.Done start := by
  refine (Tidies.any_except _).bind fun args _ => ?_
  refine (tidies_mixin hsc call.selector).bind fun found hfound => ?_
  cases found with
  | none => exact .throw _
  | some candidates =>
    dsimp only
    split
    · exact .throw _
    · refine (tidies_expandAll fun c hc => ?_).bind fun nodes hnodes =>
        (Tidies.record _).bind fun _ _ => .pure hnodes
      exact hexpand sc call args c hsc (hfound candidates rfl c (List.mem_of_mem_filter hc))

/-- Marking what was compiled as important leaves it in normal form. -/
theorem tidies_markImportant (first : Nat) {nodes : List Node}
    (hnodes : ∀ n ∈ nodes, n.Done start) :
    Tidies start (liftM (markImportant first nodes)) fun nodes => ∀ n ∈ nodes, n.Done start := by
  refine .lift fun s hs => ⟨?_, hs.reworks (reworks_markImportant first nodes s) ?_ ?_⟩
  · rw [run_markImportant]
    have hnormal := Node.forall_markAllImportant fun m hm => Node.Normal.markImportant
      (Node.forall_renewAll (fun n hn => (hnodes n hn).normal.renew) s.nextSerial m hm)
    have hlenient := fun hl => Node.forall_markAllImportant fun m hm => Node.Lenient.markImportant
      (Node.forall_renewAll_of_le (fun n hn =>
        ((hnodes n hn).lenient hl).renew (hs.lenient hl).rulesets) (Nat.le_refl _) m hm)
    exact fun m hm => ⟨hnormal m hm, fun hl => hlenient hl m hm⟩
  · rintro b _ ⟨next, -, rfl⟩ hb
    exact Node.forall_markAllImportant fun m hm =>
      (Node.forall_renewAll (fun n hn => (hb n hn).renew) next m hm).markImportant
  · rintro hl b _ ⟨next, hnext, rfl⟩ hb
    exact Node.forall_markAllImportant fun m hm => (Node.forall_renewAll_of_le
      (fun n hn => (hb n hn).renew (hs.lenient hl).rulesets) hnext m hm).markImportant

/-- The scope in which the rules of a lenient candidate are expanded is lenient. -/
theorem Scope.Lenient.inBody {reach : Reach} (h : sc.Lenient reach) {c : Candidate}
    (hc : c.Lenient reach) {params : Ruleset}
    (hparams : reach.ruleset params.serial ∧ ∀ n ∈ params.rules, n.Lenient reach) :
    (sc.inBody params c).Lenient reach where
  installed := h.installed
  options := h.options
  frames := List.forall_mem_cons.2 ⟨hparams, List.forall_mem_append.2 ⟨hc.closure, h.frames⟩⟩
  sources := h.sources

theorem tidies_ofCompiler {compile : Compiler} (hcompile : compile.Tidies start) :
    (Expander.ofCompiler compile).Tidies start := by
  intro sc call args c hsc hc
  refine (Tidies.record _).bind fun _ _ => ?_
  refine (Tidies.any_except _).bind fun bindings _ => ?_
  refine (Tidies.build _ _ _).bind ?_
  rintro params ⟨-, hparams, hserial⟩
  refine (Tidies.build _ _ _).bind ?_
  rintro body ⟨hheader, hrules, -⟩
  refine .get fun s hs => ?_
  have hparams' : start.lenient →
      start.reach.ruleset params.serial ∧ ∀ n ∈ params.rules, n.Lenient start.reach := by
    intro hl
    refine ⟨hserial hl, ?_⟩
    rw [hparams]
    intro n hn
    obtain ⟨d, -, rfl⟩ := List.mem_map.1 hn
    exact .declaration d
  have hbody := hcompile (sc.inBody params c) body
    (fun hl => (hsc hl).inBody (hc hl) (hparams' hl)) (fun hl => by
      rw [hheader, hrules]
      exact ⟨rfl, (hc hl).rules⟩)
  refine hbody.bind (fun compiled hcompiled => ?_) s hs
  split
  · exact tidies_markImportant _ hcompiled.rules
  · exact .pure hcompiled.rules

/-- All calls are replaced. The frame goes along with the slots. -/
theorem tidies_expandCalls (hexpand : expand.Tidies start) {inside : Ruleset → Scope}
    (hinside : ∀ frame : Ruleset, frame.Open start →
      start.lenient → (inside frame).Lenient start.reach)
    {nodes : List Node} (hnodes : ∀ n ∈ nodes, n.Prepared start) {frame : Ruleset}
    (hframe : frame.Open start) {done : List Slot} (hdone : ∀ slot ∈ done, slot.Prepared start) :
    Tidies start (expandCalls expand inside frame done nodes) fun result =>
      result.1.header = frame.header ∧ result.1.Open start ∧
        ∀ slot ∈ result.2, slot.Prepared start := by
  induction nodes generalizing frame done with
  | nil => exact .pure ⟨rfl, hframe, hdone⟩
  | cons node nodes ih =>
    obtain ⟨hnode, hrest⟩ := List.forall_mem_cons.1 hnodes
    by_cases hcall : ∃ c, node = .call c
    · obtain ⟨c, rfl⟩ := hcall
      refine (tidies_call hexpand (hinside frame hframe) c).bind fun results hresults => ?_
      have hkept : ∀ n ∈ results.filter frame.admits, n.Done start :=
        fun n hn => hresults n (List.mem_of_mem_filter hn)
      refine (Tidies.build _ _ _).bind ?_
      rintro next ⟨hheader, hrules, hserial⟩
      have hnext : next.Open start := by
        intro hl
        refine ⟨hserial hl, ?_⟩
        rw [hrules]
        refine List.forall_mem_append.2 ⟨List.forall_mem_append.2 ⟨?_, ?_⟩, ?_⟩
        · intro n hn
          obtain ⟨slot, hslot, rfl⟩ := List.mem_map.1 hn
          exact Slot.Prepared.lenient (hdone slot hslot) hl
        · exact fun n hn => (hkept n hn).lenient hl
        · exact fun n hn => (hrest n hn).lenient hl
      refine (ih hrest hnext ?_).mono fun result hresult => ⟨hresult.1.trans hheader, hresult.2⟩
      refine List.forall_mem_append.2 ⟨hdone, ?_⟩
      intro slot hslot
      obtain ⟨n, hn, rfl⟩ := List.mem_map.1 hslot
      exact hkept n hn
    · have hown : ∀ slot ∈ done ++ [Slot.own node], slot.Prepared start :=
        List.forall_mem_append.2 ⟨hdone, List.forall_mem_singleton.2
          ⟨hnode, fun c hc => hcall ⟨c, hc⟩⟩⟩
      cases node with
      | call c => exact absurd ⟨c, rfl⟩ hcall
      | _ => exact ih hrest hframe hown

end Calls

section Nodes

variable {compile : Compiler} {sc : Scope}

theorem tidies_compileBody (hcompile : compile.Tidies start)
    (hsc : start.lenient → sc.Lenient start.reach) {rules : List Node}
    (hrules : start.lenient → ∀ n ∈ rules, n.Lenient start.reach) :
    Tidies start (compileBody compile sc rules) fun rules => ∀ n ∈ rules, n.Done start := by
  refine (Tidies.build _ _ _).bind ?_
  rintro body ⟨hheader, hbody, -⟩
  refine (hcompile sc body hsc fun hl => ?_).bind fun compiled hcompiled => .pure hcompiled.rules
  rw [hheader, hbody]
  exact ⟨rfl, hrules hl⟩

theorem tidies_compileMedia (hcompile : compile.Tidies start)
    (hsc : start.lenient → sc.Lenient start.reach) (head : MediaHead) {rules : List Node}
    (hrules : start.lenient → ∀ n ∈ rules, n.Lenient start.reach) :
    Tidies start (compileMedia compile sc head rules) fun n => n.Done start := by
  refine (tidies_compileBody hcompile hsc hrules).bind fun body hbody => ?_
  intro s hs
  obtain ⟨htidy, hblock⟩ := hs.addBlock head hbody
  exact ⟨hblock, htidy⟩

theorem Value.isResolved_literal (text : String) : (Value.literal text).isResolved = true := by
  unfold Value.literal
  split <;> rfl

theorem Value.isResolved_of_fill {lookup : String → Except Error String} {v w : Value}
    (h : v.fill lookup = .ok w) : w.isResolved = true := by
  unfold Value.fill at h
  split at h
  next hresolved =>
    cases h
    exact hresolved
  next =>
    obtain ⟨text, -, htext⟩ := bind_eq_ok_iff.1 h
    cases htext
    exact Value.isResolved_literal text

/-- A prepared node that is no call is compiled into normal form. -/
theorem tidies_node (hcompile : compile.Tidies start)
    (hsc : start.lenient → sc.Lenient start.reach) {n : Node} (hn : n.Prepared start) :
    Tidies start (n.compileWith compile sc) fun n => n.Done start := by
  cases n with
  | declaration d =>
    refine Tidies.bind
      (show Tidies start _ fun d : Declaration => d.value.isResolved = true from .of_except ?_)
      fun d hd => .pure ⟨.declaration hd, fun _ => .declaration d⟩
    intro d' hd'
    obtain ⟨value, hvalue, ⟨⟩⟩ := bind_eq_ok_iff.1 hd'
    exact Value.isResolved_of_fill hvalue
  | ruleset r =>
    refine (hcompile sc r hsc fun hl => ?_).bind fun compiled hcompiled => .pure hcompiled
    cases hn.lenient hl with
    | ruleset _ hheader hrules => exact ⟨hheader, hrules⟩
  | media head rules =>
    refine tidies_compileMedia hcompile hsc head fun hl => ?_
    cases hn.lenient hl with
    | media hrules => exact hrules
  | block index =>
    refine .get fun s hs => ?_
    cases hb : s.blocks[index]? with
    | none =>
      have hindex : start.first ≤ index :=
        Nat.le_trans hs.length (List.getElem?_eq_none_iff.1 hb)
      exact ⟨⟨.block hindex, hn.lenient⟩, hs⟩
    | some b =>
      refine tidies_compileMedia hcompile hsc b.head (fun hl => ?_) s hs
      cases hn.lenient hl with
      | block hindex => exact (hs.lenient hl).blocks index b hindex hb
  | directive head rules =>
    cases rules with
    | none =>
      refine .pure ⟨.directive ?_, hn.lenient⟩
      rintro body ⟨⟩
    | some rules =>
      refine (tidies_compileBody hcompile hsc fun hl => ?_).bind fun body hbody => .pure ⟨?_, ?_⟩
      · cases hn.lenient hl with
        | directive hrules => exact hrules rules rfl
      · refine .directive ?_
        rintro _ ⟨⟩ m hm
        exact (hbody m hm).normal
      · refine fun hl => .directive ?_
        rintro _ ⟨⟩ m hm
        exact (hbody m hm).lenient hl
  | call c => exact .throw _
  | definition d => exact .pure ⟨.definition (hn.definition d rfl), hn.lenient⟩
  | inclusion i => exact .pure ⟨.inclusion (hn.inclusion i rfl), hn.lenient⟩
  | comment c => exact .pure ⟨.comment c, hn.lenient⟩

end Nodes

section Rulesets

variable {compile : Compiler} {expand : Expander} {sc : Scope}

/-- Every slot ends up as a compiled node. -/
theorem tidies_compileSlots (hcompile : compile.Tidies start) {inside : Ruleset → Scope}
    (hinside : ∀ frame : Ruleset, frame.Open start →
      start.lenient → (inside frame).Lenient start.reach)
    {slots : List Slot} (hslots : ∀ slot ∈ slots, slot.Prepared start) {frame : Ruleset}
    (hframe : frame.Open start) {done : List Node} (hdone : ∀ n ∈ done, n.Done start) :
    Tidies start (compileSlots (Node.compileWith compile) inside frame done slots) fun result =>
      result.1.header = frame.header ∧ ∀ n ∈ result.2, n.Done start := by
  induction slots generalizing frame done with
  | nil => exact .pure ⟨rfl, hdone⟩
  | cons slot slots ih =>
    obtain ⟨hslot, hrest⟩ := List.forall_mem_cons.1 hslots
    have hmore : ∀ {n : Node}, n.Done start → ∀ m ∈ done ++ [n], m.Done start :=
      fun hn => List.forall_mem_append.2 ⟨hdone, List.forall_mem_singleton.2 hn⟩
    cases slot with
    | expanded n => exact ih hrest hframe (hmore hslot)
    | own n =>
      obtain ⟨hn, -⟩ := hslot
      by_cases hdefinition : ∃ d, n = .definition d
      · obtain ⟨d, rfl⟩ := hdefinition
        exact ih hrest hframe (hmore ⟨.definition (hn.definition d rfl), hn.lenient⟩)
      · rw [compileSlots_own fun d hd => hdefinition ⟨d, hd⟩]
        refine (tidies_node hcompile (hinside frame hframe) hn).bind fun compiled hcompiled => ?_
        cases compiled with
        | ruleset r =>
          refine (Tidies.build _ _ _).bind ?_
          rintro next ⟨hheader, hrules, hserial⟩
          have hnext : next.Open start := by
            intro hl
            refine ⟨hserial hl, ?_⟩
            rw [hrules]
            refine List.forall_mem_append.2 ⟨fun m hm => (hmore hcompiled m hm).lenient hl, ?_⟩
            intro m hm
            obtain ⟨slot, hslot, rfl⟩ := List.mem_map.1 hm
            exact Slot.Prepared.lenient (hrest slot hslot) hl
          exact (ih hrest hnext (hmore hcompiled)).mono fun result hresult =>
            ⟨hresult.1.trans hheader, hresult.2⟩
        | _ => exact ih hrest hframe (hmore hcompiled)

/-- Wrapping compiled blocks in filled selectors leaves them in normal form. -/
theorem tidies_bubble {selectors : List Selector}
    (hselectors : ∀ s ∈ selectors, s.evaluated = true) (first : Nat) :
    Tidies start (liftM (bubble selectors first)) fun _ => True := by
  refine .lift fun s hs => ⟨trivial, hs.reworks (reworks_bubble selectors first s) ?_ ?_⟩
  · rintro b _ (rfl | ⟨next, -, rfl⟩) hb
    · exact hb
    · exact List.forall_mem_singleton.2 (.ruleset hselectors hb)
  · rintro hl b _ (rfl | ⟨next, hnext, rfl⟩) hb
    · exact hb
    · exact List.forall_mem_singleton.2
        (.ruleset ((hs.lenient hl).rulesets next hnext) rfl hb)

/-- The home frame of a ruleset: where imports are lenient, they are replaced there. -/
theorem tidies_homeFrame (hsc : start.lenient → sc.Lenient start.reach) {r : Ruleset}
    (hr : start.lenient → r.header.strictImports = false ∧ ∀ n ∈ r.rules, n.Lenient start.reach)
    (selectors : List Selector) :
    Tidies start (r.homeFrame sc selectors) fun home =>
      home.header = { r.header with selectors, paths := [] } ∧ home.Open start ∧
        Imported start home.rules := by
  refine (Tidies.build _ _ _).bind ?_
  rintro frame ⟨hheader, hrules, hserial⟩
  have hframe : start.lenient → ∀ n ∈ frame.rules, n.Lenient start.reach := by
    rw [hrules]
    exact fun hl => (hr hl).2
  split
  · have hinside : start.lenient → (sc.enter frame selectors).Lenient start.reach :=
      fun hl => (hsc hl).enter ⟨hserial hl, hframe hl⟩ selectors
    refine (tidies_replaceImports (tidies_importCompile hinside) hframe).bind
      fun rules himported => ?_
    refine (Tidies.build _ _ _).mono ?_
    rintro home ⟨hhome, rfl, hserial⟩
    exact ⟨hhome.trans hheader, fun hl => ⟨hserial hl, fun n hn => (himported n hn).1 hl⟩,
      himported⟩
  next hstrict =>
    refine .pure ⟨hheader, fun hl => ⟨hserial hl, hframe hl⟩,
      fun n hn => ⟨fun hl => hframe hl n hn, ?_⟩⟩
    intro i _ hl
    exact absurd (by simp [Scope.replacesImports, (hr hl).1, (hsc hl).options]) hstrict

/-- Definitions take hold of the frames around them, and then all nodes are prepared. -/
theorem prepared_captureFrames {frames : List Ruleset} {nodes : List Node}
    (hframes : start.lenient → ∀ frame ∈ frames,
      start.reach.ruleset frame.serial ∧ ∀ n ∈ frame.rules, n.Lenient start.reach)
    (hnodes : Imported start nodes) : ∀ n ∈ captureFrames frames nodes, n.Prepared start := by
  intro m hm
  obtain ⟨n, hn, rfl⟩ := List.mem_map.1 hm
  obtain ⟨hlenient, hcss⟩ := hnodes n hn
  cases n with
  | definition d =>
    obtain ⟨signature, rules, closure⟩ := d
    cases closure with
    | some frames =>
      refine ⟨hlenient, ?_, ?_⟩
      · rintro i ⟨⟩
      · rintro _ ⟨⟩
        rfl
    | none =>
      refine ⟨fun hl => ?_, ?_, ?_⟩
      · cases hlenient hl with
        | definition hrules _ _ =>
          refine .definition hrules ?_ ?_
          · rintro _ ⟨⟩ frame hframe
            exact (hframes hl frame hframe).1
          · rintro _ ⟨⟩ frame hframe
            exact (hframes hl frame hframe).2
      · rintro i ⟨⟩
      · rintro _ ⟨⟩
        rfl
  | _ =>
    refine ⟨hlenient, hcss, ?_⟩
    rintro d ⟨⟩

theorem Scope.evaluated_of_selector {s t : Selector} (h : sc.selector s = .ok t) :
    t.evaluated = true := by
  obtain ⟨elements, -, ⟨⟩⟩ := bind_eq_ok_iff.1 h
  rfl

theorem tidies_compileWith (hexpand : expand.Tidies start) (hcompile : compile.Tidies start) :
    Compiler.Tidies start (Ruleset.compileWith expand compile) := by
  intro sc r hsc hr
  rw [Ruleset.compileWith_eq]
  refine Tidies.bind (show Tidies start _
      fun selectors => ∀ s ∈ selectors, Selector.evaluated s = true from .of_except ?_)
    fun selectors hselectors => (Tidies.record _).bind fun _ _ => ?_
  · intro selectors hselectors t ht
    obtain ⟨s, -, hst⟩ := exists_of_mem_right (mapM_eq_ok_iff.1 hselectors) ht
    exact Scope.evaluated_of_selector hst
  refine (tidies_homeFrame hsc hr selectors).bind ?_
  rintro home ⟨hheader, hhome, himported⟩
  have hprepared : ∀ n ∈ captureFrames (home :: sc.frames) home.rules, n.Prepared start :=
    prepared_captureFrames
      (fun hl => List.forall_mem_cons.2 ⟨hhome hl, (hsc hl).frames⟩) himported
  refine (Tidies.build _ _ _).bind ?_
  rintro frame ⟨hframeHeader, hframeRules, hserial⟩
  rw [← hframeRules] at hprepared
  have hframe : frame.Open start :=
    fun hl => ⟨hserial hl, fun n hn => (hprepared n hn).lenient hl⟩
  have hinside : ∀ frame : Ruleset, frame.Open start →
      start.lenient → (sc.enter frame selectors).Lenient start.reach :=
    fun frame hframe hl => (hsc hl).enter (hframe hl) selectors
  refine .get fun s hs => ?_
  refine (tidies_expandCalls hexpand hinside hprepared hframe (List.forall_mem_nil _)).bind ?_ s hs
  rintro ⟨filled, slots⟩ ⟨hfilled, hopen, hslots⟩
  refine (tidies_compileSlots hcompile hinside hslots hopen (List.forall_mem_nil _)).bind ?_
  rintro ⟨last, rules⟩ ⟨hlast, hrules⟩
  refine (tidies_bubble hselectors _).bind fun _ _ => (Tidies.build _ _ _).mono ?_
  rintro result ⟨hresult, rfl, hserial⟩
  have hresult' : result.header = { r.header with selectors, paths := [] } :=
    ((((hresult.trans hlast).trans hfilled).trans hframeHeader).trans hheader)
  refine ⟨.ruleset ?_ fun n hn => (hrules n hn).normal, fun hl => .ruleset (hserial hl) ?_
    fun n hn => (hrules n hn).lenient hl⟩
  · rw [hresult']
    exact hselectors
  · rw [hresult']
    exact (hr hl).1

theorem tidies_nested (hexpand : expand.Tidies start) (levels : Nat) :
    Compiler.Tidies start (expand.nested levels) := by
  induction levels with
  | zero => exact fun sc r _ _ => .throw _
  | succ levels ih => exact tidies_compileWith hexpand ih

theorem tidies_compiler (hexpand : expand.Tidies start) : expand.compiler.Tidies start :=
  fun sc r hsc hr => .get fun s hs => tidies_nested hexpand (sc.levels s r.rules) sc r hsc hr s hs

theorem tidies_upTo (budget : Nat) : (Expander.upTo budget).Tidies start := by
  induction budget with
  | zero => exact fun sc call args c _ _ => .throw _
  | succ budget ih => exact tidies_ofCompiler (tidies_compiler ih)

/-- The blocks of a tidy store that were added are in normal form when they are written out. -/
theorem Store.Tidy.contents {s : Store} (h : s.Tidy start) :
    ∀ index n, s.contents[index]? = some n → start.first ≤ index →
      n.Normal start.lenient (start.first ≤ ·) := by
  refine forall_foldl_concat fun nodes b hb hnodes hfirst => .media ?_
  intro m hm
  obtain ⟨n, hn, rfl⟩ := Node.mem_inlineAll_iff.1 hm
  exact (h.blocks nodes.length b hfirst hb n hn).inline fun index m hindex hm =>
    hnodes index m hm hindex

/-- A compiled ruleset, with its blocks written out, is in normal form. No assumption is made on the
scope, the store or the ruleset. Imports are left only for the reader of the output if neither the
ruleset nor anything within its reach is strict about them. -/
theorem compile_normal {sc : Scope} {r compiled : Ruleset} {s t : Store}
    (h : (r.compile sc).run.run s = (.ok compiled, t)) (reach : Reach) :
    (Node.inline t.contents (.ruleset compiled)).Normal
      (sc.Lenient reach ∧ s.Lenient reach ∧ (Node.ruleset r).Lenient reach)
      (s.blocks.length ≤ ·) := by
  let start : Start :=
    ⟨sc.Lenient reach ∧ s.Lenient reach ∧ (Node.ruleset r).Lenient reach, reach, s.blocks.length⟩
  have hs : s.Tidy start := by
    refine ⟨Nat.le_refl _, ?_, fun hl => hl.2.1⟩
    intro index b hindex hb
    rw [List.getElem?_eq_none hindex] at hb
    cases hb
  have hsc : start.lenient → sc.Lenient start.reach := fun hl => hl.1
  have hr : start.lenient →
      r.header.strictImports = false ∧ ∀ n ∈ r.rules, n.Lenient start.reach := by
    intro hl
    cases hl.2.2 with
    | ruleset _ hheader hrules => exact ⟨hheader, hrules⟩
  obtain ⟨hdone, ht⟩ := (tidies_compiler (tidies_upTo sc.budget) sc r hsc hr s hs).of_ok h
  exact hdone.normal.inline fun index n hindex hn => ht.contents index n hn hindex

/-- A mixin with a variable, used in a media block, and an import: all of it is gone. -/
theorem compile_normal_mixin_in_media :
    let call : Rule := .call { selector := { elements := [{ value := ".m" }] } }
    let rules : List Rule := [
      .definition { name := { elements := [{ value := ".m" }] } }
        [.declaration { name := "color", value := .read "@c" }],
      .media { features := "print" } [call, .inclusion { path := "a" }]]
    let sc : Scope :=
      { sources := some [("a", [.declaration { name := "@c", value := .read "red" }])] }
    let r : Ruleset := ⟨0, none, .document, ((Node.ofRules rules).run 1).1⟩
    ∃ compiled t, (r.compile sc).run.run { nextSerial := 1 } = (.ok compiled, t) ∧
      (Node.inline t.contents (.ruleset compiled)).Normal True (0 ≤ ·) := by
  intro call rules sc r
  have hok : ((r.compile sc).run.run { nextSerial := 1 }).1.toOption.isSome = true := by
    decide +kernel
  let reach : Reach := ⟨fun _ => True, fun _ => True⟩
  have hfits : ∀ rule ∈ rules, rule.Fits .lenient := by
    intro rule hrule
    simp only [rules, List.mem_cons, List.not_mem_nil, or_false] at hrule
    rcases hrule with rfl | rfl
    · exact .definition trivial (List.forall_mem_singleton.2 (.declaration _))
    · exact .media trivial
        (List.forall_mem_cons.2 ⟨.call _, List.forall_mem_singleton.2 (.inclusion _)⟩)
  have hnodes : ∀ n ∈ r.rules, n.Lenient reach :=
    Node.forall_ofRules
      (fun rule hrule => Node.lenient_ofRule (hfits rule hrule) fun _ _ => trivial) (Nat.le_refl 1)
  have hsc : sc.Lenient reach := by
    refine ⟨by simp [sc], rfl, by simp [sc], ?_⟩
    rintro table ⟨⟩
    exact List.forall_mem_singleton.2 (List.forall_mem_singleton.2 (.declaration _))
  have hs : Store.Lenient reach { nextSerial := 1 } :=
    ⟨fun _ _ => trivial, fun _ _ => trivial, by simp, by simp [Store.remembered?]⟩
  cases hrun : (r.compile sc).run.run { nextSerial := 1 } with
  | mk result t =>
    rw [hrun] at hok
    cases result with
    | error e => cases hok
    | ok compiled =>
      have hnormal := compile_normal hrun reach
      rw [eq_true (And.intro hsc (And.intro hs (.ruleset trivial rfl hnodes)))] at hnormal
      exact ⟨compiled, t, rfl, hnormal⟩

end Rulesets

end Stylesheet
