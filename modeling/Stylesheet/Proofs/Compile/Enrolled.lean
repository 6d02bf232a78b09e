import Stylesheet.Proofs.Compile.Extent
import Stylesheet.Proofs.Compile.Loading
import Stylesheet.Proofs.Node.Occurrences

/-!
# Every media block that is compiled occurs once

Media blocks come from the rules of a ruleset, from the mixins that are expanded in it, from blocks
that were compiled before and are compiled again, and from blocks inside blocks. Each of them
becomes a block of the store, and its node refers to it.

Whatever a compilation does, it enrolls the blocks that it adds: what it gives is a tree in which
each of these blocks occurs once, and no other block does. Blocks that were there before are not
taken over, since a node that refers to one is compiled to a new one. For that, references must lead
somewhere, so the contract is about scopes and stores that lead only to numbers that were given out.
-/

namespace Stylesheet

variable {start : Extent} {s t : Store}

section Contracts

variable {α β : Type}

/-- The computation fails, or it enrolls the blocks that it adds for the nodes that it gives, and
the store leads to numbers that were given out, with `post` for the extent at the end. -/
def EnrollsSince (start : Extent) (s : Store) (x : CompileM α) (nodes : α → List Node)
    (post : Extent → α → Prop) : Prop :=
  Ensures x s
    (fun a t => s.Enrolls (nodes a) t ∧ t.Since start ∧ s.extent ≤ t.extent ∧ post t.extent a)
    fun _ _ => True

variable {x : CompileM α} {nodes : α → List Node} {post : Extent → α → Prop}

theorem RunsSince.enrolls (h : RunsSince start s.extent x post) (hs : s.Since start)
    (henrolls : Ensures x s (fun a t => s.Enrolls (nodes a) t) fun _ _ => True) :
    EnrollsSince start s x nodes post := by
  refine (henrolls.and (h s hs (le_refl _))).mono ?_ fun _ _ _ => trivial
  exact fun a t hboth => hboth

theorem StepsSince.enrolls {x : StateM Store α} (h : StepsSince start s.extent x post)
    (hs : s.Since start) (hbooks : KeepsBooks x) :
    EnrollsSince start s (liftM x) (fun _ => []) post :=
  (RunsSince.lift h).enrolls hs (ensures_lift.2 (.nothing (hbooks s).blocks))

/-- After a computation that enrolls blocks comes another one. -/
theorem EnrollsSince.bind {f : α → CompileM β} {post' : β → Store → Prop}
    (hx : EnrollsSince start s x nodes post)
    (hf : ∀ a t, s.Enrolls (nodes a) t → t.Since start → s.extent ≤ t.extent → post t.extent a →
      Ensures (f a) t post' fun _ _ => True) :
    Ensures (x >>= f) s post' fun _ _ => True := by
  rw [ensures_bind]
  refine Ensures.mono hx ?_ fun _ _ _ => trivial
  rintro a t ⟨henrolls, ht, hle, ha⟩
  exact hf a t henrolls ht hle ha

end Contracts

/-- In scopes and with rulesets that lead only to numbers that were given out, the compiler enrolls
the blocks that it adds. -/
structure Compiler.EnrollsSince (start : Extent) (compile : Compiler) : Prop where
  since : compile.RunsSince start
  enrolls : ∀ sc r s, s.Since start → sc.Since start s.extent →
    (Node.ruleset r).Since start s.extent →
      Ensures (compile sc r) s (fun r' t => s.Enrolls r'.rules t) fun _ _ => True

/-- In scopes and with candidates that lead only to numbers that were given out, the expander
enrolls the blocks that it adds. -/
structure Expander.EnrollsSince (start : Extent) (expand : Expander) : Prop where
  since : expand.RunsSince start
  enrolls : ∀ sc call args c s, s.Since start → sc.Since start s.extent →
    c.node.Since start s.extent →
      Ensures (expand sc call args c) s (fun nodes t => s.Enrolls nodes t) fun _ _ => True

section Nodes

variable {compile : Compiler} {sc : Scope}

theorem enrolls_compileBody (hcompile : compile.EnrollsSince start) (hs : s.Since start)
    (hsc : sc.Since start s.extent) {rules : List Node}
    (hrules : ∀ n ∈ rules, n.Since start s.extent) :
    Ensures (compileBody compile sc rules) s (fun nodes t => s.Enrolls nodes t)
      fun _ _ => True := by
  refine ((StepsSince.build {} hrules (by simp)).enrolls hs (.build _ _ _)).bind ?_
  intro body t hbuilt ht hle hbody
  refine ensures_bind.2 ((hcompile.enrolls sc body t ht (hsc.mono hle) hbody.1).mono ?_
    fun _ _ _ => trivial)
  exact fun compiled u hcompiled => hbuilt.trans hcompiled

theorem enrolls_compileMedia (hcompile : compile.EnrollsSince start) (hs : s.Since start)
    (hsc : sc.Since start s.extent) (head : MediaHead) {rules : List Node}
    (hrules : ∀ n ∈ rules, n.Since start s.extent) :
    Ensures (compileMedia compile sc head rules) s (fun n t => s.Enrolls [n] t)
      fun _ _ => True := by
  refine ensures_bind.2 ((enrolls_compileBody hcompile hs hsc hrules).mono ?_
    fun _ _ _ => trivial)
  exact fun nodes t hbody => hbody.concat head

/-- A node is compiled to one node, and a block to a new block. -/
theorem enrolls_node (hcompile : compile.EnrollsSince start) (hs : s.Since start)
    (hsc : sc.Since start s.extent) {n : Node} (hn : n.Since start s.extent) :
    Ensures (n.compileWith compile sc) s (fun n t => s.Enrolls [n] t) fun _ _ => True := by
  have hnothing : s.Enrolls [] s := .nothing rfl
  cases n with
  | declaration d =>
    refine ensures_bind.2 (ensures_ofExcept.2 ⟨fun d' _ => ?_, fun _ _ => trivial⟩)
    exact hnothing.single rfl trivial
  | ruleset r =>
    refine ensures_bind.2 ((hcompile.enrolls sc r s hs hsc hn).mono ?_ fun _ _ _ => trivial)
    rintro ⟨serial, source, header, rules⟩ t henrolls
    exact henrolls.single rfl henrolls.hoisted
  | media head rules =>
    cases hn with
    | media hrules => exact enrolls_compileMedia hcompile hs hsc head hrules
  | block index =>
    cases hn with
    | block hindex =>
      have hb := List.getElem?_eq_getElem (hindex : index < s.blocks.length)
      refine ensures_bind.2 (ensures_get.2 ?_)
      rw [hb]
      exact enrolls_compileMedia hcompile hs hsc _ (hs.blocks _ (List.mem_of_getElem? hb))
  | directive head rules =>
    cases rules with
    | none => exact hnothing.single rfl trivial
    | some rules =>
      cases hn with
      | directive hrules =>
        refine ensures_bind.2 ((enrolls_compileBody hcompile hs hsc (hrules rules rfl)).mono ?_
          fun _ _ _ => trivial)
        exact fun nodes t henrolls => henrolls.single rfl henrolls.hoisted
  | call c => exact trivial
  | definition d => exact hnothing.single rfl trivial
  | inclusion i => exact hnothing.single rfl trivial
  | comment c => exact hnothing.single rfl trivial

end Nodes

/-- The nodes that came from mixin calls. -/
def Slot.expandedNodes : List Slot → List Node
  | [] => []
  | .expanded n :: slots => n :: expandedNodes slots
  | .own _ :: slots => expandedNodes slots

theorem Slot.expandedNodes_append (slots more : List Slot) :
    expandedNodes (slots ++ more) = expandedNodes slots ++ expandedNodes more := by
  induction slots with
  | nil => rfl
  | cons slot slots ih =>
    cases slot with
    | expanded n => exact congrArg (n :: ·) ih
    | own n => exact ih

theorem Slot.expandedNodes_map_expanded (nodes : List Node) :
    expandedNodes (nodes.map .expanded) = nodes := by
  induction nodes with
  | nil => rfl
  | cons n nodes ih => exact congrArg (n :: ·) ih

section Calls

variable {compile : Compiler} {expand : Expander} {sc : Scope} {base : Store}

theorem enrolls_expandAll {expand : Candidate → CompileM (List Node)} {candidates : List Candidate}
    (hs : s.Since start)
    (h : ∀ c ∈ candidates, ∀ t : Store, t.Since start → s.extent ≤ t.extent →
      EnrollsSince start t (expand c) id fun _ _ => True) :
    Ensures (expandAll expand candidates) s (fun nodes t => s.Enrolls nodes t)
      fun _ _ => True := by
  induction candidates generalizing s with
  | nil => exact .nothing rfl
  | cons c candidates ih =>
    refine (h c (by simp) s hs (le_refl _)).bind fun nodes t hnodes ht hle _ => ?_
    refine ensures_bind.2 ((ih ht fun c hc u hu hle' => ?_).mono ?_ fun _ _ _ => trivial)
    · exact h c (by simp [hc]) u hu (hle.trans hle')
    · exact fun more u hmore => hnodes.trans hmore

theorem enrolls_call (hexpand : expand.EnrollsSince start) (hs : s.Since start)
    (hsc : sc.Since start s.extent) (call : MixinCall) :
    Ensures (call.compileWith expand sc) s (fun nodes t => s.Enrolls nodes t)
      fun _ _ => True := by
  refine ensures_bind.2 (ensures_ofExcept.2 ⟨fun args _ => ?_, fun _ _ => trivial⟩)
  have hlookup : EnrollsSince start s (liftM (sc.mixin call.selector)) (fun _ => []) _ :=
    (RunsSince.lift (steps_mixin_since hsc call.selector)).enrolls hs
      (ensures_lift.2 (.nothing (learns_mixin sc call.selector s).blocks))
  refine hlookup.bind fun found t hquiet ht hle hfound => ?_
  cases found with
  | none => exact trivial
  | some candidates =>
    dsimp only
    split
    · exact trivial
    · refine ensures_bind.2 ((enrolls_expandAll ht fun c hc u hu hle' => ?_).mono ?_
        fun _ _ _ => trivial)
      · have hc := (hfound candidates rfl c (List.mem_of_mem_filter hc)).mono hle'
        have hsc' := hsc.mono (hle.trans hle')
        exact ((hexpand.since u.extent sc call args c hsc' hc).mono fun _ _ _ => trivial).enrolls hu
          (hexpand.enrolls sc call args c u hu hsc' hc)
      · intro nodes u hnodes
        exact ensures_bind.2 (ensures_lift.2 (hquiet.trans (hnodes.then_nothing (.nothing rfl))))

/-- The body of a mixin is compiled as a ruleset, and its blocks may be marked important. -/
theorem enrolls_ofCompiler (hcompile : compile.EnrollsSince start) :
    (Expander.ofCompiler compile).EnrollsSince start := by
  refine ⟨runs_ofCompiler_since hcompile.since, fun sc call args c s hs hsc hc => ?_⟩
  refine ((StepsSince.record _).enrolls hs fun s => s.quiet_record _).bind
    fun _ t₁ h₁ ht₁ hle₁ _ => ?_
  refine ensures_bind.2 (ensures_ofExcept.2 ⟨fun bindings _ => ?_, fun _ _ => trivial⟩)
  have hdeclarations : ∀ n ∈ bindings.map Node.declaration, n.Since start t₁.extent := by
    intro n hn
    obtain ⟨d, -, rfl⟩ := List.mem_map.1 hn
    exact .declaration d
  refine ((StepsSince.build {} hdeclarations (by simp)).enrolls ht₁ (.build _ _ _)).bind
    fun params t₂ h₂ ht₂ hle₂ hparams => ?_
  have hrules := Node.Since.all_mono (Candidate.rules_since hc) (hle₁.trans hle₂)
  refine ((StepsSince.build {} hrules (by simp)).enrolls ht₂ (.build _ _ _)).bind
    fun body t h₃ ht hle₃ hbody => ensures_bind.2 (ensures_get.2 ?_)
  have hle := (hle₁.trans hle₂).trans hle₃
  have hbodySc : (sc.inBody params c).Since start t.extent := by
    refine List.forall_mem_cons.2 ⟨hparams.1.mono hle₃, List.forall_mem_append.2 ⟨?_, ?_⟩⟩
    · exact fun frame hframe => (Candidate.closure_since hc frame hframe).mono hle
    · exact hsc.mono hle
  refine ensures_bind.2 ((hcompile.enrolls (sc.inBody params c) body t ht hbodySc hbody.1).mono ?_
    fun _ _ _ => trivial)
  intro compiled u hcompiled
  have hbefore : s.Enrolls [] t := h₁.trans (h₂.trans h₃)
  split
  · exact ensures_lift.2 (hbefore.trans hcompiled.markImportant)
  · exact hbefore.trans hcompiled

/-- Only declarations are kept out of a frame. -/
theorem Ruleset.blockIndices_of_admits {frame : Ruleset} (n : Node)
    (h : frame.admits n = false) : n.blockIndices = [] := by
  cases n with
  | declaration d => rfl
  | _ => exact absurd h (by simp [Ruleset.admits])

theorem enrolls_expandCalls (hexpand : expand.EnrollsSince start) (hs : s.Since start)
    (hsc : sc.Since start s.extent) (selectors : List Selector) {nodes : List Node}
    (hnodes : ∀ n ∈ nodes, n.Since start s.extent) {frame : Ruleset}
    (hframe : (Node.ruleset frame).Since start s.extent) {done : List Slot}
    (hdone : ∀ n ∈ done.map Slot.node, n.Since start s.extent)
    (henrolled : base.Enrolls (Slot.expandedNodes done) s) :
    Ensures (expandCalls expand (sc.enter · selectors) frame done nodes) s
      (fun result t => base.Enrolls (Slot.expandedNodes result.2) t) fun _ _ => True := by
  induction nodes generalizing s frame done with
  | nil => exact henrolled
  | cons node nodes ih =>
    obtain ⟨hnode, hrest⟩ := List.forall_mem_cons.1 hnodes
    have hown : Ensures
        (expandCalls expand (sc.enter · selectors) frame (done ++ [.own node]) nodes) s
        (fun result t => base.Enrolls (Slot.expandedNodes result.2) t) fun _ _ => True := by
      refine ih hs hsc hrest hframe ?_ ?_
      · rw [List.map_append]
        exact List.forall_mem_append.2 ⟨hdone, List.forall_mem_singleton.2 hnode⟩
      · rw [Slot.expandedNodes_append]
        exact List.append_nil _ ▸ henrolled
    cases node with
    | call c =>
      have hsc' := hsc.enter hframe selectors
      refine ((runs_call_since hexpand.since hsc' c).enrolls hs
        (enrolls_call hexpand hs hsc' c)).bind fun results t hresults ht hle hsince => ?_
      have hkept : ∀ n ∈ results.filter frame.admits, n.Since start t.extent :=
        fun n hn => hsince n (List.mem_of_mem_filter hn)
      have hdone' := Node.Since.all_mono hdone hle
      have hrest' := Node.Since.all_mono hrest hle
      refine ((StepsSince.rebuild (hframe.mono hle) (List.forall_mem_append.2
        ⟨List.forall_mem_append.2 ⟨hdone', hkept⟩, hrest'⟩)).enrolls ht (.build _ _ _)).bind
          fun next u hquiet hu hle' hnext => ?_
      refine ih hu (hsc.mono (hle.trans hle')) (Node.Since.all_mono hrest' hle') hnext.1 ?_ ?_
      · rw [map_node_append_expanded]
        exact List.forall_mem_append.2
          ⟨Node.Since.all_mono hdone' hle', Node.Since.all_mono hkept hle'⟩
      · rw [Slot.expandedNodes_append, Slot.expandedNodes_map_expanded]
        exact (henrolled.trans (hresults.filter Ruleset.blockIndices_of_admits)).then_nothing hquiet
    | _ => exact hown

end Calls

section Slots

variable {compile : Compiler} {sc : Scope} {base : Store}

/-- The nodes that were expanded stand between those that are compiled. From a store `base` on, both
kinds enroll the blocks that were added. -/
theorem enrolls_compileSlots (hcompile : compile.EnrollsSince start) (hs : s.Since start)
    (hsc : sc.Since start s.extent) (selectors : List Selector) {slots : List Slot}
    (hslots : ∀ n ∈ slots.map Slot.node, n.Since start s.extent) {frame : Ruleset}
    (hframe : (Node.ruleset frame).Since start s.extent) {done : List Node}
    (hdone : ∀ n ∈ done, n.Since start s.extent)
    (henrolled : base.Enrolls (done ++ Slot.expandedNodes slots) s) :
    Ensures (compileSlots (Node.compileWith compile) (sc.enter · selectors) frame done slots) s
      (fun result t => base.Enrolls result.2 t) fun _ _ => True := by
  induction slots generalizing s frame done with
  | nil => exact List.append_nil done ▸ henrolled
  | cons slot slots ih =>
    obtain ⟨hslot, hrest⟩ := List.forall_mem_cons.1 hslots
    -- A compiled node comes before the expanded ones that are still to be passed.
    have hmore {t : Store} {m : Node}
        (henrolled : base.Enrolls (done ++ Slot.expandedNodes slots) s)
        (hm : s.Enrolls [m] t) : base.Enrolls (done ++ [m] ++ Slot.expandedNodes slots) t := by
      refine (henrolled.trans hm).perm_nodes ?_
      rw [List.append_assoc, List.append_assoc]
      exact List.perm_append_comm.append_left done
    have hsince {t : Store} {m : Node} (hle : s.extent ≤ t.extent) (hm : m.Since start t.extent) :
        ∀ n ∈ done ++ [m], n.Since start t.extent :=
      List.forall_mem_append.2 ⟨Node.Since.all_mono hdone hle, List.forall_mem_singleton.2 hm⟩
    cases slot with
    | expanded n =>
      exact ih hs hsc hrest hframe (hsince (le_refl _) hslot)
        (List.append_cons done n _ ▸ henrolled)
    | own n =>
      by_cases hdefinition : ∃ d, n = .definition d
      · obtain ⟨d, rfl⟩ := hdefinition
        have hd : s.Enrolls [.definition d] s :=
          (Store.Enrolls.nothing rfl).single rfl trivial
        exact ih hs hsc hrest hframe (hsince (le_refl _) hslot) (hmore henrolled hd)
      · rw [compileSlots_own fun d hd => hdefinition ⟨d, hd⟩]
        have hsc' := hsc.enter hframe selectors
        refine ((runs_node_since hcompile.since hsc' hslot).enrolls hs
          (enrolls_node hcompile hs hsc' hslot)).bind fun m t hm ht hle hmSince => ?_
        have henrolled' := hmore henrolled hm
        have hdone' := hsince hle hmSince
        have hrest' := Node.Since.all_mono hrest hle
        cases m with
        | ruleset r =>
          refine ((StepsSince.rebuild (hframe.mono hle)
            (List.forall_mem_append.2 ⟨hdone', hrest'⟩)).enrolls ht (.build _ _ _)).bind
              fun next u hquiet hu hle' hnext => ?_
          exact ih hu (hsc.mono (hle.trans hle')) (Node.Since.all_mono hrest' hle') hnext.1
            (Node.Since.all_mono hdone' hle') (henrolled'.then_nothing hquiet)
        | _ => exact ih ht (hsc.mono hle) hrest' (hframe.mono hle) hdone' henrolled'

end Slots

section Rulesets

variable {compile : Compiler} {expand : Expander}

/-- Imports bring rules, but no blocks. -/
theorem enrolls_homeFrame (sc : Scope) (r : Ruleset) (selectors : List Selector) (s : Store) :
    Ensures (r.homeFrame sc selectors) s (fun _ t => s.Enrolls [] t) fun _ _ => True := by
  have hany : sc.Imports fun _ => True := ⟨fun _ => trivial, fun _ _ _ _ _ _ _ => trivial⟩
  refine (ensures_homeFrame hany (fun _ _ => trivial) selectors s).mono ?_ fun _ _ _ => trivial
  exact fun home t hput => .nothing hput.2.loads.blocks

theorem enrolls_compileWith (hexpand : expand.EnrollsSince start)
    (hcompile : compile.EnrollsSince start) :
    Compiler.EnrollsSince start (Ruleset.compileWith expand compile) := by
  refine ⟨runs_compileWith_since hexpand.since hcompile.since, fun sc r s hs hsc hr => ?_⟩
  rw [Ruleset.compileWith_eq]
  refine ensures_bind.2 (ensures_ofExcept.2 ⟨fun selectors _ => ?_, fun _ _ => trivial⟩)
  refine ((StepsSince.record _).enrolls hs fun s => s.quiet_record _).bind
    fun _ t₁ h₁ ht₁ hle₁ _ => ?_
  refine ((runs_homeFrame_since sc (hr.mono hle₁) selectors).enrolls ht₁
    (enrolls_homeFrame sc r selectors t₁)).bind fun home t₂ h₂ ht₂ hle₂ hhome => ?_
  have hsc₂ := hsc.mono (hle₁.trans hle₂)
  have hcaptured := Node.Since.captureFrames (List.forall_mem_cons.2 ⟨hhome, hsc₂⟩) hhome.rules
  refine ((StepsSince.rebuild hhome hcaptured).enrolls ht₂ (.build _ _ _)).bind
    fun frame t h₃ ht hle₃ hframe => ensures_bind.2 (ensures_get.2 ?_)
  have hbefore : s.Enrolls [] t := h₁.trans (h₂.trans h₃)
  have hsc₃ := hsc₂.mono hle₃
  have hnone : ∀ n ∈ ([] : List Slot).map Slot.node, n.Since start t.extent := List.forall_mem_nil _
  have hcalls :=
    (runs_expandCalls_since hexpand.since hsc₃ selectors hframe.1.rules hframe.1 hnone).enrolls ht
      (enrolls_expandCalls hexpand ht hsc₃ selectors hframe.1.rules hframe.1 hnone (.nothing rfl))
  refine hcalls.bind ?_
  rintro ⟨filled, slots⟩ u hslots hu hle₄ ⟨hfilled, hslotsSince⟩
  refine ensures_bind.2 ((enrolls_compileSlots hcompile hu (hsc₃.mono hle₄) selectors hslotsSince
    hfilled (List.forall_mem_nil _) hslots).mono ?_ fun _ _ _ => trivial)
  rintro ⟨last, rules⟩ v hrules
  refine ensures_bind.2 (ensures_lift.2 (ensures_rebuild fun r' w _ hr' hquiet => ?_))
  rw [hr']
  exact hbefore.trans ((hrules.bubble selectors).then_nothing (.nothing hquiet.blocks))

theorem enrolls_compiler (hexpand : expand.EnrollsSince start) :
    expand.compiler.EnrollsSince start := by
  have hnested (levels : Nat) : Compiler.EnrollsSince start (expand.nested levels) := by
    induction levels with
    | zero => exact ⟨fun e sc r _ _ => .throw _, fun sc r s _ _ _ => trivial⟩
    | succ levels ih => exact enrolls_compileWith hexpand ih
  refine ⟨runs_compiler_since hexpand.since, fun sc r s hs hsc hr => ?_⟩
  exact ensures_bind.2 (ensures_get.2 ((hnested _).enrolls sc r s hs hsc hr))

theorem enrolls_upTo (start : Extent) (budget : Nat) :
    (Expander.upTo budget).EnrollsSince start := by
  induction budget with
  | zero => exact ⟨fun e sc call args c _ _ => .throw _, fun sc call args c s _ _ _ => trivial⟩
  | succ budget ih => exact enrolls_ofCompiler (enrolls_compiler ih)

/-- A compilation adds media blocks and leaves those that were there. Each of the new blocks occurs
once in the tree of the compiled ruleset, outside of mixin definitions, and this tree has no other
media block. The rules of a new block lead to new blocks that came before it, so there is no way
from a block back to itself. -/
theorem Ruleset.compile_blocks_occur_once {sc : Scope} {r r' : Ruleset} (h : sc.LivesIn s)
    (hr : (Node.ruleset r).Within s.extent) (hrun : (r.compile sc).run.run s = (.ok r', t)) :
    s.blocks <+: t.blocks ∧
    Node.AllHoisted s.blocks.length t.blocks.length r'.rules ∧
    (t.mediaIn r'.rules).Nodup ∧
    (∀ i, i ∈ t.mediaIn r'.rules ↔ s.blocks.length ≤ i ∧ i < t.blocks.length) ∧
    ∀ index b, s.blocks.length ≤ index → t.blocks[index]? = some b →
      Node.AllHoisted s.blocks.length index b.rules ∧
        ∀ i ∈ t.mediaIn b.rules, s.blocks.length ≤ i ∧ i < index := by
  have henrolls : s.Enrolls r'.rules t :=
    ((enrolls_compiler (enrolls_upTo s.extent sc.budget)).enrolls sc r s h.since h.scope_since
      (hr.since (le_refl _))).of_ok hrun
  have hperm := henrolls.mediaIn_perm
  refine ⟨henrolls.grows, henrolls.hoisted, ?_, fun i => ?_, fun index b hindex hb => ?_⟩
  · exact hperm.nodup_iff.2 List.nodup_range'
  · have hle := henrolls.grows.length_le
    rw [hperm.mem_iff, List.mem_range'_1]
    omega
  · have hhoisted := henrolls.layered index b hindex hb
    exact ⟨hhoisted, Store.bounds_of_mem_mediaIn henrolls.layered hhoisted.referWithin
      (Nat.le_of_lt (List.getElem?_eq_some_iff.1 hb).1)⟩

/-- A style sheet with a media block inside of another one, a call of the ruleset that has them, and
a directive with a call of a mixin that is imported. -/
theorem Ruleset.compile_blocks_occur_once_nested :
    let name (text : String) : Selector := { elements := [{ value := text }] }
    let print (rules : List Rule) : Rule := .media { features := "print" } rules
    let wide : Rule := .media { features := "(min-width: 1px)" }
      [.declaration { name := "color", value := .read "red" }]
    let sc : Scope := { sources := some [("lib", [.definition { name := name ".m" } [wide]])] }
    let rules : List Rule := [
      .inclusion { path := "lib" },
      .ruleset { selectors := [name ".a"] } [print [wide]],
      .ruleset { selectors := [name ".b"] } [.call { selector := name ".a" },
        .directive { name := "supports" } (some [.call { selector := name ".m" }])]]
    ∃ root s r' t, (numberRules rules >>= Ruleset.document).run {} = (root, s) ∧
      sc.LivesIn s ∧ (Node.ruleset root).Within s.extent ∧
      (root.compile sc).run.run s = (.ok r', t) ∧ t.blocks.length = 5 ∧
      (t.mediaIn r'.rules).Nodup ∧ ∀ i, i ∈ t.mediaIn r'.rules ↔ i < 5 := by
  intro name print wide sc rules
  let built := (numberRules rules >>= Ruleset.document).run {}
  have hroot : (sc.enter built.1 []).LivesIn built.2 :=
    Scope.livesIn_document rfl (rfl : (numberRules rules >>= Ruleset.document).run {} = _) []
  have hlives : sc.LivesIn built.2 :=
    ⟨List.forall_mem_nil _, hroot.blocks, hroot.serial, hroot.memo⟩
  have hwithin : (Node.ruleset built.1).Within built.2.extent :=
    hroot.frames built.1 List.mem_cons_self
  have hok : ((built.1.compile sc).run.run built.2).1.toOption.isSome = true := by
    decide +kernel
  have hblocks : ((built.1.compile sc).run.run built.2).2.blocks.length = 5 := by
    decide +kernel
  cases hrun : (built.1.compile sc).run.run built.2 with
  | mk result t =>
    rw [hrun] at hok hblocks
    cases result with
    | error e => cases hok
    | ok r' =>
      obtain ⟨-, -, hnodup, hmem, -⟩ := Ruleset.compile_blocks_occur_once hlives hwithin hrun
      rw [hblocks] at hmem
      refine ⟨built.1, built.2, r', t, rfl, hlives, hwithin, hrun, hblocks, hnodup, fun i => ?_⟩
      exact (hmem i).trans ⟨And.right, fun hi => ⟨Nat.zero_le i, hi⟩⟩

end Rulesets

end Stylesheet
