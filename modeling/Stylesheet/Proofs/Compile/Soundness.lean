import Stylesheet.Proofs.Compile.Safety

/-!
# Compiling keeps things sound and breaks no promise

Started with a sound store, a scope that is ready for it and sound rules, compiling
ends with sound rules and a sound store again, or with an error that the user can do
something about. In particular no mixin call is left when the other nodes are
compiled, and the levels of nesting do not run out.

Expanders that are safe together are compiled with alike: they need to agree only on
sound candidates in scopes that are ready. The frame in which the nodes of a ruleset
are compiled declares no more than the slots do that its rules became.
-/

namespace Stylesheet

variable {fit : Fit}

section Rulesets

variable {sc : Scope} {s : Store} {levels : Nat} {selectors : List Selector}
variable {expand expand' : Expander}

theorem allCaptured_captureFrames (frames : List Ruleset) (nodes : List Node) :
    Node.AllCaptured (captureFrames frames nodes) := by
  intro d hd
  obtain ⟨n, -, hn⟩ := List.mem_map.1 hd
  split at hn
  · cases hn
    rfl
  · rename_i hother
    obtain ⟨signature, rules, closure⟩ := d
    cases closure with
    | none => exact absurd hn (hother signature rules)
    | some frames => rfl

/-- Definitions take hold of frames where they stand. -/
theorem allSound_captureFrames {home : Ruleset} (hin : home.HomeIn fit sc.frames)
    (hhome : Node.AllSound fit s.blocks.length home.rules) (hsc : sc.Ready fit s) :
    Node.AllSound fit s.blocks.length (captureFrames (home :: sc.frames) home.rules) := by
  intro n hn
  obtain ⟨m, hm, rfl⟩ := List.mem_map.1 hn
  have hsound := hhome m hm
  split
  · cases hsound with
    | definition huntouched hrules _ _ _ =>
      refine .definition huntouched hrules ?_ ?_ ?_
      · rintro frames ⟨⟩
        exact ⟨home, sc.frames, rfl, hin, hm⟩
      · rintro frames ⟨⟩
        exact List.forall_mem_cons.2 ⟨.inr ⟨sc.frames, hin⟩, hsc.view⟩
      · rintro frames ⟨⟩
        exact List.forall_mem_cons.2 ⟨hhome, hsc.frames⟩
  · exact hsound

theorem heights_captureFrames (blocks : List Nat) (frames : List Ruleset) (nodes : List Node) :
    Node.heights blocks (captureFrames frames nodes) = Node.heights blocks nodes := by
  induction nodes with
  | nil => rfl
  | cons n nodes ih =>
    rw [captureFrames, List.map_cons, Node.heights, Node.heights]
    refine congr (congrArg max ?_) ih
    split <;> rfl

/-- What is known of the slots of a ruleset: they are sound, those that were expanded are compiled,
and those of its own come from `nodes` and hold no call. -/
structure SlotsFrom (fit : Fit) (bound : Nat) (nodes : List Node) (slots : List Slot) : Prop where
  sound : Node.AllSound fit bound (slots.map Slot.node)
  captured : Node.AllCaptured (slots.map Slot.node)
  expanded : ∀ n, Slot.expanded n ∈ slots → n.Compiled
  own : ∀ n, Slot.own n ∈ slots → n ∈ nodes ∧ ∀ c, n ≠ .call c

namespace SlotsFrom

variable {bound bound' : Nat} {all : List Node} {slots : List Slot}

theorem nil : SlotsFrom fit bound all [] :=
  ⟨Node.allSound_nil, Node.allCaptured_nil, (fun n hn => by cases hn), fun n hn => by cases hn⟩

theorem mono (h : SlotsFrom fit bound all slots) (hbound : bound ≤ bound') :
    SlotsFrom fit bound' all slots := ⟨h.sound.mono hbound, h.captured, h.expanded, h.own⟩

theorem tail {slot : Slot} (h : SlotsFrom fit bound all (slot :: slots)) :
    SlotsFrom fit bound all slots where
  sound := (Node.allSound_cons.1 h.sound).2
  captured := h.captured.of_subset (List.subset_cons_self _ _)
  expanded := fun n hn => h.expanded n (List.mem_cons_of_mem _ hn)
  own := fun n hn => h.own n (List.mem_cons_of_mem _ hn)

theorem concat_own (h : SlotsFrom fit bound all slots) {n : Node} (hn : n.Sound fit bound)
    (hcaptured : Node.AllCaptured [n]) (hmem : n ∈ all) (hcall : ∀ c, n ≠ .call c) :
    SlotsFrom fit bound all (slots ++ [.own n]) where
  sound := by
    rw [List.map_append]
    exact Node.allSound_append.2 ⟨h.sound, Node.allSound_cons.2 ⟨hn, Node.allSound_nil⟩⟩
  captured := by
    rw [List.map_append]
    exact Node.allCaptured_append.2 ⟨h.captured, hcaptured⟩
  expanded := by
    intro m hm
    rcases List.mem_append.1 hm with hm | hm
    · exact h.expanded m hm
    · cases List.mem_singleton.1 hm
  own := by
    intro m hm
    rcases List.mem_append.1 hm with hm | hm
    · exact h.own m hm
    · cases List.mem_singleton.1 hm
      exact ⟨hmem, hcall⟩

theorem append_expanded (h : SlotsFrom fit bound all slots) {nodes : List Node}
    (hnodes : Node.AllSound fit bound nodes) (hcompiled : Node.AllCompiled nodes) :
    SlotsFrom fit bound all (slots ++ nodes.map .expanded) where
  sound := by
    rw [map_node_append_expanded]
    exact Node.allSound_append.2 ⟨h.sound, hnodes⟩
  captured := by
    rw [map_node_append_expanded]
    exact Node.allCaptured_append.2 ⟨h.captured, hcompiled.captured⟩
  expanded := by
    intro m hm
    rcases List.mem_append.1 hm with hm | hm
    · exact h.expanded m hm
    · obtain ⟨n, hn, hnm⟩ := List.mem_map.1 hm
      cases hnm
      exact hcompiled.compiled m hn
  own := by
    intro m hm
    rcases List.mem_append.1 hm with hm | hm
    · exact h.own m hm
    · obtain ⟨n, -, hn⟩ := List.mem_map.1 hm
      cases hn

end SlotsFrom

/-- Expanding the calls leaves none among the nodes of the ruleset itself, and all along the frame
shows what is done and what is still to come. -/
theorem alike_expandCalls (hexpand : Expander.Safe fit expand expand') {all nodes : List Node}
    {frame : Ruleset} {done : List Slot}
    (hreached : fit.course.reaches (.calls expand levels sc selectors frame done nodes) s)
    (hsc : sc.Ready fit s)
    (hframe : frame.rules = done.map Slot.node ++ nodes)
    (hdone : SlotsFrom fit s.blocks.length all done)
    (hnodes : Node.AllSound fit s.blocks.length nodes) (hcaptured : Node.AllCaptured nodes)
    (hall : nodes ⊆ all) :
    Alike (expandCalls expand (sc.enter · selectors) frame done nodes)
      (expandCalls expand' (sc.enter · selectors) frame done nodes) s
      fun result t => t.Sound fit ∧ s.Grows t ∧ result.1.header = frame.header ∧
        result.1.rules = result.2.map Slot.node ∧ SlotsFrom fit t.blocks.length all result.2 ∧
        fit.course.reaches (.slots expand levels sc selectors result.1 [] result.2) t := by
  induction nodes generalizing frame done s with
  | nil =>
    exact Alike.pure ⟨hsc.store, .refl s, rfl, by simpa using hframe, hdone,
      fit.course.follows hreached .slots⟩
  | cons n nodes ih =>
    obtain ⟨hn, hrest⟩ := Node.allSound_cons.1 hnodes
    obtain ⟨hncaptured, hrestCaptured⟩ : Node.AllCaptured [n] ∧ Node.AllCaptured nodes :=
      Node.allCaptured_append.1 hcaptured
    have hsub : nodes ⊆ all := fun m hm => hall (by simp [hm])
    have hmem : n ∈ all := hall (by simp)
    have hready : (sc.enter frame selectors).Ready fit s := by
      refine hsc.enter selectors ?_ ?_
      · rw [hframe]
        exact Node.allSound_append.2 ⟨hdone.sound, hnodes⟩
      · rw [hframe]
        exact Node.allCaptured_append.2 ⟨hdone.captured, hcaptured⟩
    cases n with
    | call c =>
      have hinside := fit.course.follows hreached .call
      refine (alike_call hexpand hinside hready).run.bind ?_
      rintro results t ⟨hgives, hrun⟩
      have hlength := hgives.grows.length_le
      have hdone' := (hdone.mono hlength).append_expanded (hgives.nodes.filter frame.admits)
        (hgives.compiled.filter frame.admits)
      refine (Alike.build _ _ _ t).bind ?_
      rintro next u ⟨hnext, hheader, hrules, hu⟩
      have hsu : s.Grows u := hgives.grows.trans hu.grows
      refine (ih (fit.course.follows hreached (.called hrun hnext))
        (hsc.later hsu (hu.sound hgives.sound)) ?_ (hu.blocks ▸ hdone')
        (hu.blocks ▸ hrest.mono hlength) hrestCaptured hsub).mono ?_
      · rw [hrules, map_node_append_expanded]
      · rintro result v ⟨hsound, hgrows, hframe', hfinal⟩
        exact ⟨hsound, hsu.trans hgrows, hframe'.trans hheader, hfinal⟩
    | _ =>
      refine ih (fit.course.follows hreached (.skip fun c hc => by cases hc)) hsc ?_
        (hdone.concat_own hn hncaptured hmem fun c hc => by cases hc) hrest hrestCaptured hsub
      simpa [Slot.node] using hframe

/-- The nodes declare no more than the slots do. -/
def DeclaredIn (slots : List Slot) (nodes : List Node) : Prop :=
  ∀ n ∈ nodes, ∀ name, n.Declares name → ∃ slot ∈ slots, slot.node.Declares name

/-- Nodes that may be shown in the frame of a ruleset with the given slots. -/
structure ShownBy (fit : Fit) (bound : Nat) (slots : List Slot) (nodes : List Node) : Prop where
  sound : Node.AllSound fit bound nodes
  captured : Node.AllCaptured nodes
  declared : DeclaredIn slots nodes

namespace ShownBy

variable {bound bound' : Nat} {all nodes more : List Node} {slots shown : List Slot}

theorem nil : ShownBy fit bound shown [] :=
  ⟨Node.allSound_nil, Node.allCaptured_nil, fun n hn => by cases hn⟩

theorem mono (h : ShownBy fit bound shown nodes) (hbound : bound ≤ bound') :
    ShownBy fit bound' shown nodes := ⟨h.sound.mono hbound, h.captured, h.declared⟩

theorem append (h : ShownBy fit bound shown nodes) (h' : ShownBy fit bound shown more) :
    ShownBy fit bound shown (nodes ++ more) :=
  ⟨Node.allSound_append.2 ⟨h.sound, h'.sound⟩, Node.allCaptured_append.2 ⟨h.captured, h'.captured⟩,
    List.forall_mem_append.2 ⟨h.declared, h'.declared⟩⟩

theorem of_slots (h : SlotsFrom fit bound all slots) (hsub : slots ⊆ shown) :
    ShownBy fit bound shown (slots.map Slot.node) := by
  refine ⟨h.sound, h.captured, ?_⟩
  intro n hn name hname
  obtain ⟨slot, hslot, rfl⟩ := List.mem_map.1 hn
  exact ⟨slot, hsub hslot, hname⟩

end ShownBy

/-- The nodes of a ruleset with the given slots are compiled as with an expander, and to nothing
unsound. -/
def NodeCompiler.Safe (fit : Fit) (expand : Expander) (levels : Nat) (sc : Scope)
    (selectors : List Selector) (slots : List Slot) (compile : NodeCompiler) : Prop :=
  ∀ frame n s, fit.course.reaches (.node expand levels (sc.enter frame selectors) n) s →
    (sc.enter frame selectors).Ready fit s → DeclaredIn slots frame.rules →
    n.Sound fit s.blocks.length → (∀ c, n ≠ .call c) → (∀ d, n ≠ .definition d) →
    Node.height s.blockHeights n + sc.unread s ≤ levels →
    Alike (n.compileWith (expand.nested levels) (sc.enter frame selectors))
      (compile (sc.enter frame selectors) n) s
      fun m t => Gives fit s [m] t ∧ ∀ name, m.Declares name → n.Declares name

/-- There is room for every node of the ruleset itself, since none is higher than all together. -/
theorem alike_compileSlots {compile : NodeCompiler} {slots shown : List Slot}
    (hcompile : NodeCompiler.Safe fit expand levels sc selectors shown compile) {s₀ : Store}
    {all : List Node} (hall : Node.AllSound fit s₀.blocks.length all)
    (hroom : s₀.heights all + sc.unread s₀ ≤ levels) (hs₀ : s₀.Grows s) {frame : Ruleset}
    {done : List Node}
    (hreached : fit.course.reaches (.slots expand levels sc selectors frame done slots) s)
    (hsc : sc.Ready fit s) (hframe : ShownBy fit s.blocks.length shown frame.rules)
    (hdone : ShownBy fit s.blocks.length shown done) (hcompiled : ∀ n ∈ done, n.Compiled)
    (hslots : SlotsFrom fit s.blocks.length all slots) (hsub : slots ⊆ shown) :
    Alike (compileSlots (Node.compileWith (expand.nested levels)) (sc.enter · selectors) frame done
        slots)
      (compileSlots compile (sc.enter · selectors) frame done slots) s
      fun result t => Gives fit s result.2 t ∧ result.1.header = frame.header := by
  induction slots generalizing frame done s with
  | nil => exact Alike.pure ⟨⟨hsc.store, .refl s, hdone.sound, hdone.captured, hcompiled⟩, rfl⟩
  | cons slot slots ih =>
    have hfirst : ShownBy fit s.blocks.length shown [slot.node] :=
      ⟨fun m hm => hslots.sound m (by simp_all), hslots.captured.of_subset (by simp),
        fun m hm name hname => ⟨slot, hsub (by simp), by simp_all⟩⟩
    have hsub' : slots ⊆ shown := fun slot hslot => hsub (by simp [hslot])
    cases slot with
    | expanded n =>
      exact ih hs₀ (fit.course.follows hreached .pass) hsc hframe (hdone.append hfirst)
        (List.forall_mem_append.2
          ⟨hcompiled, List.forall_mem_singleton.2 (hslots.expanded n (by simp))⟩) hslots.tail hsub'
    | own n =>
      by_cases hdefinition : ∃ d, n = .definition d
      · obtain ⟨d, rfl⟩ := hdefinition
        exact ih hs₀ (fit.course.follows hreached .definition) hsc hframe (hdone.append hfirst)
          (List.forall_mem_append.2
            ⟨hcompiled, List.forall_mem_singleton.2 (.definition d)⟩) hslots.tail hsub'
      · have hother : ∀ d, n ≠ .definition d := fun d hd => hdefinition ⟨d, hd⟩
        rw [compileSlots_own hother, compileSlots_own hother]
        obtain ⟨hmem, hcall⟩ := hslots.own n (by simp)
        have hheight : Node.height s.blockHeights n + sc.unread s ≤ levels := by
          have hle : Node.height s.blockHeights n ≤ s.heights all := Node.height_le_heights hmem
          have hsame := hs₀.heights_eq hall
          have hless := sc.unread_le_of_grows hs₀
          omega
        refine (hcompile frame n s (fit.course.follows hreached (.node hother))
          (hsc.enter selectors hframe.sound hframe.captured) hframe.declared
          (hslots.sound n (by simp [Slot.node])) hcall hother hheight).run.bind ?_
        rintro compiled t ⟨⟨hgives, hnames⟩, hrun⟩
        have hlength := hgives.grows.length_le
        have hdone' : ShownBy fit t.blocks.length shown (done ++ [compiled]) := by
          refine (hdone.mono hlength).append ⟨hgives.nodes, hgives.compiled.captured, ?_⟩
          refine List.forall_mem_singleton.2 fun name hname => ?_
          exact hfirst.declared n (by simp [Slot.node]) name (hnames name hname)
        have hcompiled' : ∀ m ∈ done ++ [compiled], m.Compiled :=
          List.forall_mem_append.2 ⟨hcompiled, hgives.compiled.compiled⟩
        have hrest := hslots.tail.mono hlength
        cases compiled with
        | ruleset r =>
          refine (Alike.build _ _ _ t).bind ?_
          rintro next u ⟨hnext, hheader, hrules, hu⟩
          have hgrows : s.Grows u := hgives.grows.trans hu.grows
          refine (ih (hs₀.trans hgrows) (fit.course.follows hreached (.shown hrun hnext))
            (hsc.later hgrows (hu.sound hgives.sound)) ?_ (hu.blocks ▸ hdone') hcompiled'
            (hu.blocks ▸ hrest) hsub').mono ?_
          · rw [hrules, hu.blocks]
            exact hdone'.append (.of_slots hrest hsub')
          · exact fun result v hv => ⟨hv.1.after hgrows, hv.2.trans hheader⟩
        | _ =>
          have hafter := fit.course.follows hreached (.compiled hother hrun fun r hr => by cases hr)
          refine (ih (hs₀.trans hgives.grows) hafter (hsc.later hgives.grows hgives.sound)
            (hframe.mono hlength) hdone' hcompiled' hrest hsub').mono ?_
          exact fun result v hv => ⟨hv.1.after hgives.grows, hv.2⟩

/-- Wrapping the blocks that were added keeps them sound. -/
theorem Gives.bubble {t : Store} {nodes : List Node} (h : Gives fit s nodes t)
    (hselectors : fit.header { selectors }) {first : Nat} (hfirst : s.blocks.length ≤ first) :
    Gives fit s nodes ((bubble selectors first).run t).2 := by
  have hreworks := reworks_bubble selectors first t
  obtain ⟨hsound, hlength⟩ := hreworks.sound h.sound (by
    rintro index b _ (rfl | ⟨next, -, rfl⟩) hb
    · exact hb
    · have hwrapped : Node.Sound fit index (.ruleset ⟨next, none, { selectors }, b.rules⟩) :=
        .ruleset hselectors ⟨hb.copied, .inl hb.compiled.captured⟩ hb.rules
      exact ⟨Node.allSound_cons.2 ⟨hwrapped, Node.allSound_nil⟩,
        ⟨Node.allCaptured_singleton (fun d hd => by cases hd),
          List.forall_mem_singleton.2 (.ruleset hb.compiled.captured hb.compiled.compiled)⟩,
        .wrapped hb.copied⟩)
  exact ⟨hsound, h.grows.reworks hfirst hreworks, hlength ▸ h.nodes, h.compiled⟩

theorem alike_fillFrame {compile : List Slot → NodeCompiler}
    (hkept : Header.Kept fit.header) (hexpand : Expander.Safe fit expand expand')
    (hcompile : ∀ slots, NodeCompiler.Safe fit expand levels sc selectors slots (compile slots))
    {frame : Ruleset}
    (hreached : fit.course.reaches (.calls expand levels sc selectors frame [] frame.rules) s)
    (hsc : sc.Ready fit s)
    (hframe : Node.AllSound fit s.blocks.length frame.rules)
    (hcaptured : Node.AllCaptured frame.rules)
    (hheader : fit.header frame.header) (hselectors : frame.header.selectors = selectors)
    (hroom : s.heights frame.rules + sc.unread s ≤ levels) :
    Alike (frame.fillFrame expand (fun _ => Node.compileWith (expand.nested levels)) sc selectors)
      (frame.fillFrame expand' compile sc selectors) s
      fun result t => Gives fit s result.rules t ∧ fit.header result.header := by
  refine Alike.get ((alike_expandCalls hexpand hreached hsc rfl .nil hframe hcaptured
    (List.Subset.refl _)).bind ?_)
  rintro ⟨next, slots⟩ t ⟨hsound, hgrows, hnext, hrules, hslots, hreached'⟩
  have hshown : ShownBy fit t.blocks.length slots next.rules := by
    rw [hrules]
    exact .of_slots hslots (List.Subset.refl _)
  refine (alike_compileSlots (hcompile slots) hframe hroom hgrows hreached'
    (hsc.later hgrows hsound) hshown .nil (fun n hn => by cases hn) hslots
    (List.Subset.refl _)).bind ?_
  rintro ⟨last, rules⟩ u ⟨hgives, hlast⟩
  have hwrapped : fit.header { selectors } := hselectors ▸ hkept.wrapped _ hheader
  have hbubbled : Alike (liftM (bubble selectors s.blocks.length))
      (liftM (bubble selectors s.blocks.length)) u fun _ v => Gives fit s rules v :=
    Alike.lift ((hgives.after hgrows).bubble hwrapped (Nat.le_refl _))
  refine hbubbled.bind fun _ v hv => (Alike.build _ _ _ v).mono ?_
  rintro result w ⟨-, hresult, rfl, hw⟩
  rw [hresult, hlast, hnext]
  exact ⟨hv.quiet hw, hheader⟩

/-- Imports and the nodes of all sources are sound in a scope that is ready. -/
theorem Scope.Ready.imports (hsc : sc.Ready fit s) (bound : Nat) :
    sc.Imports (Node.Sound fit bound) where
  inclusion := .inclusion
  sources table htable entry hentry next :=
    Node.allSound_ofRules (hsc.sources table htable entry hentry) next

theorem alike_homeFrame {r : Ruleset} (hsc : sc.Ready fit s)
    (hr : Node.AllSound fit s.blocks.length r.rules) :
    Alike (r.homeFrame sc selectors) (r.homeFrame sc selectors) s fun home t =>
      home.header = { r.header with selectors, paths := [] } ∧
        PutsIn (Node.Sound fit s.blocks.length) (s.heights r.rules) sc s home.rules t :=
  Alike.of_ensures (ensures_homeFrame (hsc.imports s.blocks.length) hr selectors s)

/-- One level of nesting is used up by the ruleset itself. -/
theorem safeAt_compileBy {compile : List Slot → NodeCompiler}
    (hkept : Header.Kept fit.header) (hexpand : Expander.Safe fit expand expand') {r : Ruleset}
    (hcompile : ∀ selectors slots, r.header.selectors.mapM sc.selector = .ok selectors →
      NodeCompiler.Safe fit expand levels sc selectors slots (compile slots))
    (hreached : fit.course.reaches (.ruleset expand (levels + 1) sc r) s)
    (hroom : RoomFor (levels + 1) sc s r.rules) :
    Compiler.SafeAt fit (expand.nested (levels + 1)) (Ruleset.compileBy expand' compile) sc r
      s := by
  intro hsc hheader hr hsettled
  rw [Expander.nested, Ruleset.compileWith_eq]
  refine (Alike.of_except s ?_).bind ?_
  · intro e he
    obtain ⟨selector, -, hselector⟩ := exists_of_mapM_eq_error he
    exact isReported_of_selector_eq_error hselector
  rintro selectors s ⟨hselectors, rfl⟩
  refine (Alike.record _ s).bind ?_
  rintro _ s₁ hs₁
  have hquiet : s.Quiet s₁ := hs₁ ▸ s.quiet_record _
  have hsc₁ := hsc.later hquiet.grows (hquiet.sound hsc.store)
  refine (alike_homeFrame hsc₁ (hquiet.blocks ▸ hr)).run.bind ?_
  rintro home t ⟨⟨hhomeHeader, hput⟩, hrun⟩
  have hhome : (r.homeFrame sc selectors).run.run
      (s.record (.compiling selectors r.rules.length)) = (.ok home, t) := hs₁ ▸ hrun
  have hsc₂ := hsc₁.later hput.loads.grows (hput.loads.sound hsc₁.store)
  have hsound : Node.AllSound fit t.blocks.length home.rules := hput.loads.blocks ▸ hput.good
  have hcaptured := allSound_captureFrames (.enter hreached hsettled hselectors hhome) hsound hsc₂
  refine (Alike.build _ _ _ t).bind ?_
  rintro frame u ⟨hframeRun, hframe, hrules, hu⟩
  have hinside := fit.course.follows hreached (.enter hselectors hhome hframeRun)
  have hframeHeader : frame.header = { r.header with selectors, paths := [] } :=
    hframe.trans hhomeHeader
  have hframeRules : Node.AllSound fit u.blocks.length frame.rules := by
    rw [hrules, hu.blocks]
    exact hcaptured
  have hroom' : u.heights frame.rules + sc.unread u ≤ levels := by
    have hheight : u.heights frame.rules = t.heights home.rules := by
      rw [hu.loads.heights_eq, hrules]
      exact heights_captureFrames _ _ _
    have hstart := hquiet.loads.heights_eq r.rules
    have hless := sc.unread_le_of_grows hquiet.grows
    have hless' := sc.unread_le_of_grows hu.grows
    have hputRoom := hput.room
    have hgiven : s.heights r.rules + 1 + sc.unread s ≤ levels + 1 := hroom
    omega
  refine (alike_fillFrame hkept hexpand (fun slots => hcompile selectors slots hselectors) hinside
    (hsc₂.later hu.grows (hu.sound hsc₂.store)) hframeRules
    (hrules ▸ allCaptured_captureFrames _ _)
    (hframeHeader ▸ hkept.evaluated sc r.header selectors hheader hselectors)
    (by rw [hframeHeader]) hroom').mono ?_
  exact fun result v hv =>
    ⟨hv.1.after ((hquiet.grows.trans hput.loads.grows).trans hu.grows), hv.2⟩

/-- The nodes of a ruleset are compiled alike if nested rulesets are. -/
theorem safe_nodeCompileWith (hkept : Header.Kept fit.header) {compile : Compiler}
    (hcompile : Compiler.Safe fit expand levels compile) (slots : List Slot) :
    NodeCompiler.Safe fit expand levels sc selectors slots (Node.compileWith compile) :=
  fun frame n s hreached hsc _ hn hcall hdefinition hroom =>
    (alike_node hkept hcompile hsc hreached hn hcall hdefinition hroom).and
      (ensures_declares_of_compile (expand.nested levels) (sc.enter frame selectors) n s)

end Rulesets

section Knot

variable {expand expand' : Expander}

theorem safe_nested (hkept : Header.Kept fit.header) (hexpand : Expander.Safe fit expand expand')
    (levels : Nat) : Compiler.Safe fit expand levels (expand'.nested levels) := by
  induction levels with
  | zero =>
    intro sc r s _ hroom
    exact absurd hroom (by rw [RoomFor]; omega)
  | succ levels ih =>
    intro sc r s hreached hroom
    have hnested : expand'.nested (levels + 1) =
        Ruleset.compileBy expand' fun _ => Node.compileWith (expand'.nested levels) :=
      Ruleset.compileWith_eq expand' (expand'.nested levels)
    rw [hnested]
    exact safeAt_compileBy hkept hexpand (fun _ slots _ => safe_nodeCompileWith hkept ih slots)
      hreached hroom

/-- The levels are counted where a compilation starts, so there is always room. -/
theorem safeAt_compiler (hkept : Header.Kept fit.header)
    (hexpand : Expander.Safe fit expand expand') {sc : Scope} {r : Ruleset} {s : Store}
    (hreached : fit.course.reaches (.ruleset expand (sc.levels s r.rules) sc r) s) :
    Compiler.SafeAt fit expand.compiler expand'.compiler sc r s := by
  intro hsc hheader hr hsettled
  exact Alike.get (safe_nested hkept hexpand _ sc r s hreached
    (sc.heights_add_unread_le_levels s r.rules) hsc hheader hr hsettled)

theorem safe_refuse : Expander.Safe fit Expander.refuse Expander.refuse :=
  fun _ _ _ _ _ _ _ _ => Alike.throw rfl

theorem safe_upTo (hkept : Header.Kept fit.header) (budget : Nat) :
    Expander.Safe fit (Expander.upTo budget) (Expander.upTo budget) := by
  induction budget with
  | zero => exact safe_refuse
  | succ budget ih =>
    intro sc call args c s hreached hsc hc
    exact alike_ofCompiler hkept hreached hsc hc fun _ _ _ _ _ _ hinside =>
      safeAt_compiler hkept ih hinside

end Knot

end Stylesheet
