import Stylesheet.Proofs.Compile.Alike
import Stylesheet.Proofs.Compile.Loading

/-!
# Compiling nodes and expanding mixins

Two compilers are safe together if they do the same to every sound ruleset that the
compilation comes to and for which there is room, and give a sound result, and likewise
for expanders. The nodes of a ruleset are compiled alike by compilers that are safe
together, the rules of a mixin are expanded alike, and so is what a call finds.
-/

namespace Stylesheet

variable {fit : Fit}

/-- What headers keep while rulesets are compiled and blocks are wrapped. -/
structure Header.Kept (fit : Header → Prop) : Prop where
  plain : fit {}
  evaluated : ∀ (sc : Scope) (header : Header) (selectors : List Selector), fit header →
    header.selectors.mapM sc.selector = .ok selectors → fit { header with selectors, paths := [] }
  wrapped : ∀ header, fit header → fit { selectors := header.selectors }

/-- From `s` to `t`, the store grew and stayed sound, and `result` was compiled and is sound in
it. -/
structure Gives (fit : Fit) (s : Store) (result : List Node) (t : Store) : Prop where
  sound : t.Sound fit
  grows : s.Grows t
  nodes : Node.AllSound fit t.blocks.length result
  compiled : Node.AllCompiled result

theorem Gives.after {s t u : Store} {nodes : List Node} (h : Gives fit t nodes u)
    (hgrows : s.Grows t) : Gives fit s nodes u :=
  ⟨h.sound, hgrows.trans h.grows, h.nodes, h.compiled⟩

theorem Gives.quiet {s t u : Store} {nodes : List Node} (h : Gives fit s nodes t)
    (hquiet : t.Quiet u) : Gives fit s nodes u :=
  ⟨hquiet.sound h.sound, h.grows.trans hquiet.grows, hquiet.blocks ▸ h.nodes, h.compiled⟩

theorem Gives.append {s t u : Store} {nodes more : List Node} (h : Gives fit s nodes t)
    (h' : Gives fit t more u) : Gives fit s (nodes ++ more) u :=
  ⟨h'.sound, h.grows.trans h'.grows,
    Node.allSound_append.2 ⟨h.nodes.mono h'.grows.length_le, h'.nodes⟩,
    Node.allCompiled_append.2 ⟨h.compiled, h'.compiled⟩⟩

/-- A single sound node that is neither a definition nor has any rules was compiled. -/
theorem Gives.single {s t : Store} {n : Node} (hs : t.Sound fit) (hgrows : s.Grows t)
    (hn : n.Sound fit t.blocks.length) (hdefinition : ∀ d, n ≠ .definition d)
    (hcompiled : n.Compiled) : Gives fit s [n] t :=
  ⟨hs, hgrows, Node.allSound_cons.2 ⟨hn, Node.allSound_nil⟩,
    Node.allCaptured_singleton hdefinition, List.forall_mem_singleton.2 hcompiled⟩

/-- Both compilers do the same to the ruleset if it is sound, and nothing unsound. -/
def Compiler.SafeAt (fit : Fit) (compile compile' : Compiler) (sc : Scope) (r : Ruleset)
    (s : Store) : Prop :=
  sc.Ready fit s → fit.header r.header → Node.AllSound fit s.blocks.length r.rules →
    Node.Settled fit r.rules → Alike (compile sc r) (compile' sc r) s
      fun result t => Gives fit s result.rules t ∧ fit.header result.header

/-- That many levels are enough for some rules and all sources that are left. -/
def RoomFor (levels : Nat) (sc : Scope) (s : Store) (rules : List Node) : Prop :=
  s.heights rules + 1 + sc.unread s ≤ levels

/-- The compiler does as the one with an expander does to all sound rulesets that the compilation
comes to and for which there is room, and nothing unsound. -/
def Compiler.Safe (fit : Fit) (expand : Expander) (levels : Nat) (compile : Compiler) : Prop :=
  ∀ sc r s, fit.course.reaches (.ruleset expand levels sc r) s → RoomFor levels sc s r.rules →
    Compiler.SafeAt fit (expand.nested levels) compile sc r s

/-- Both expanders do the same to sound candidates that the compilation comes to, and nothing
unsound. -/
def Expander.Safe (fit : Fit) (expand expand' : Expander) : Prop :=
  ∀ sc call args c s, fit.course.reaches (.candidate expand sc call args c) s → sc.Ready fit s →
    c.Sound fit s.blocks.length →
    Alike (expand sc call args c) (expand' sc call args c) s (Gives fit s)

section Nodes

variable {sc : Scope} {s : Store} {levels : Nat} {expand : Expander} {compile : Compiler}

/-- What a ruleset is compiled to is a copy of its rules. -/
theorem Compiler.SafeAt.copied {r : Ruleset}
    (h : Compiler.SafeAt fit (expand.nested levels) compile sc r s)
    (hreached : fit.course.reaches (.ruleset expand levels sc r) s) (hsc : sc.Ready fit s)
    (hheader : fit.header r.header) (hr : Node.AllSound fit s.blocks.length r.rules)
    (hsettled : Node.Settled fit r.rules) :
    Alike (expand.nested levels sc r) (compile sc r) s fun result t =>
      (Gives fit s result.rules t ∧ fit.header result.header) ∧ Node.Copied fit result.rules :=
  (h hsc hheader hr hsettled).run.mono fun _ _ hrun =>
    ⟨hrun.1, .compiled hsettled.copied hreached hrun.2⟩

/-- Compiling rules as a body needs as much room as they have levels. -/
theorem alike_compileBody (hkept : Header.Kept fit.header)
    (hcompile : Compiler.Safe fit expand levels compile) (hsc : sc.Ready fit s)
    {rules : List Node} (hreached : ∀ body t, (Ruleset.build {} rules none).run s = (body, t) →
      fit.course.reaches (.ruleset expand levels sc body) t)
    (hrules : Node.AllSound fit s.blocks.length rules)
    (hsettled : Node.Settled fit rules) (hroom : RoomFor levels sc s rules) :
    Alike (compileBody (expand.nested levels) sc rules) (compileBody compile sc rules) s
      fun nodes t => Gives fit s nodes t ∧ Node.Copied fit nodes := by
  refine Alike.bind (Alike.build _ _ _ s) ?_
  rintro body t ⟨hbuild, hheader, rfl, hquiet⟩
  have hbody : fit.course.reaches (.ruleset expand levels sc body) t := hreached body t hbuild
  have hroom' : RoomFor levels sc t body.rules := by
    have hless := sc.unread_le_of_grows hquiet.grows
    rw [RoomFor, hquiet.loads.heights_eq]
    exact Nat.le_trans (by omega) hroom
  refine ((hcompile sc body t hbody hroom').copied hbody
    (hsc.later hquiet.grows (hquiet.sound hsc.store)) (hheader ▸ hkept.plain)
    (hquiet.blocks ▸ hrules) hsettled).bind ?_
  rintro compiled u ⟨⟨hgives, -⟩, hcopied⟩
  exact Alike.pure ⟨hgives.after hquiet.grows, hcopied⟩

/-- A media block joins the blocks, after those that its rules refer to. -/
theorem alike_compileMedia (hkept : Header.Kept fit.header)
    (hcompile : Compiler.Safe fit expand levels compile) (hsc : sc.Ready fit s)
    (head : MediaHead) {rules : List Node}
    (hreached : ∀ body t, (Ruleset.build {} rules none).run s = (body, t) →
      fit.course.reaches (.ruleset expand levels sc body) t)
    (hrules : Node.AllSound fit s.blocks.length rules)
    (hsettled : Node.Settled fit rules) (hroom : RoomFor levels sc s rules) :
    Alike (compileMedia (expand.nested levels) sc head rules) (compileMedia compile sc head rules) s
      fun n t => Gives fit s [n] t := by
  refine (alike_compileBody hkept hcompile hsc hreached hrules hsettled hroom).bind ?_
  rintro rules t ⟨hgives, hcopied⟩
  refine Alike.of_ensures (Gives.single ⟨?_, ?_⟩ ?_ (.block (by simp)) (fun d hd => by cases hd)
    (.block _))
  · intro index b hb
    by_cases hindex : index < t.blocks.length
    · rw [List.getElem?_append_left hindex] at hb
      exact hgives.sound.blocks index b hb
    · have hlast : index = t.blocks.length := by
        have hlt := (List.getElem?_eq_some_iff.1 hb).1
        simp only [List.length_append, List.length_singleton] at hlt
        omega
      subst hlast
      obtain rfl : (⟨head, rules⟩ : Block) = b := by simpa using hb
      exact ⟨hgives.nodes, hgives.compiled, hcopied⟩
  · exact fun entry hentry c hc =>
      (hgives.sound.memo entry hentry c hc).mono (by simp)
  · exact hgives.grows.trans ⟨List.prefix_append _ _, rfl, List.suffix_rfl⟩

/-- A node that is neither a call nor a definition is compiled to a sound node. -/
theorem alike_node (hkept : Header.Kept fit.header)
    (hcompile : Compiler.Safe fit expand levels compile) (hsc : sc.Ready fit s)
    {n : Node} (hreached : fit.course.reaches (.node expand levels sc n) s)
    (hn : n.Sound fit s.blocks.length) (hcall : ∀ c, n ≠ .call c)
    (hdefinition : ∀ d, n ≠ .definition d)
    (hroom : Node.height s.blockHeights n + sc.unread s ≤ levels) :
    Alike (n.compileWith (expand.nested levels) sc) (n.compileWith compile sc) s
      fun m t => Gives fit s [m] t := by
  cases hn with
  | declaration d =>
    refine (Alike.of_except s fun _ => isReported_of_declaration_eq_error).bind ?_
    rintro d' _ ⟨-, rfl⟩
    exact Alike.pure (.single hsc.store (.refl _) (.declaration d') (fun d hd => by cases hd)
      (.declaration d'))
  | @ruleset r hheader hsettled hrules =>
    have hinside : fit.course.reaches (.ruleset expand levels sc r) s :=
      fit.course.follows hreached .nested
    have hr := hcompile sc r s hinside (by
      obtain ⟨serial, source, header, rules⟩ := r
      exact hroom)
    refine (hr.copied hinside hsc hheader hrules hsettled).bind ?_
    rintro r' t ⟨⟨hgives, hheader'⟩, hcopied⟩
    exact Alike.pure (.single hgives.sound hgives.grows
      (.ruleset hheader' ⟨hcopied, .inl hgives.compiled.captured⟩ hgives.nodes)
      (fun d hd => by cases hd) (.ruleset hgives.compiled.captured hgives.compiled.compiled))
  | media hsettled hrules =>
    exact alike_compileMedia hkept hcompile hsc _
      (fun body t hbody => fit.course.follows hreached (.media hbody)) hrules hsettled hroom
  | @block index hindex =>
    obtain ⟨b, hb⟩ : ∃ b, s.blocks[index]? = some b := ⟨_, List.getElem?_eq_getElem hindex⟩
    have hheight : Node.height s.blockHeights (.block index) = s.heights b.rules + 1 := by
      rw [Node.height, hsc.store.blockHeight hb, Option.getD_some]
    have hblock := hsc.store.blocks index b hb
    refine Alike.get ?_
    simp only [hb]
    exact alike_compileMedia hkept hcompile hsc b.head
      (fun body t hbody => fit.course.follows hreached (.block hb hbody))
      (hblock.rules.mono (Nat.le_of_lt hindex))
      ⟨hblock.copied, .inl hblock.compiled.captured⟩ (by rwa [RoomFor, ← hheight])
  | @directive head rules hsettled hrules =>
    cases rules with
    | none =>
      exact Alike.pure (.single hsc.store (.refl s) (.directive hsettled hrules)
        (fun d hd => by cases hd) (.directive (fun _ hbody => by cases hbody)
          fun _ hbody => by cases hbody))
    | some rules =>
      refine (alike_compileBody hkept hcompile hsc
        (fun body t hbody => fit.course.follows hreached (.directive hbody)) (hrules rules rfl)
        (hsettled rules rfl) hroom).bind ?_
      rintro compiled t ⟨hgives, hcopied⟩
      refine Alike.pure (.single hgives.sound hgives.grows (.directive ?_ ?_)
        (fun d hd => by cases hd) (.directive ?_ ?_))
      · rintro body ⟨⟩
        exact ⟨hcopied, .inl hgives.compiled.captured⟩
      · rintro body ⟨⟩
        exact hgives.nodes
      · rintro body ⟨⟩
        exact hgives.compiled.captured
      · rintro body ⟨⟩
        exact hgives.compiled.compiled
  | call c => exact absurd rfl (hcall c)
  | definition => exact absurd rfl (hdefinition _)
  | inclusion i =>
    exact Alike.pure (.single hsc.store (.refl s) (.inclusion i) (fun d hd => by cases hd)
      (.inclusion i))
  | comment c =>
    exact Alike.pure (.single hsc.store (.refl s) (.comment c) (fun d hd => by cases hd)
      (.comment c))

end Nodes

section Mixins

variable {sc : Scope} {s : Store} {expand expand' : Expander}

/-- Marking nodes and the blocks that were added with them as important keeps them sound. -/
theorem Gives.markImportant {t : Store} {nodes : List Node} {first : Nat}
    (h : Gives fit s nodes t) (hfirst : s.blocks.length ≤ first) :
    Gives fit s ((markImportant first nodes).run t).1 ((markImportant first nodes).run t).2 := by
  have hreworks := reworks_markImportant first nodes t
  obtain ⟨hsound, hlength⟩ := hreworks.sound h.sound (by
    rintro index b _ ⟨next, -, rfl⟩ hb
    have hrenewed := hb.compiled.renewAll next
    exact ⟨(hb.rules.renewAll hb.compiled next).markAllImportant hrenewed,
      hrenewed.markAllImportant, (hb.copied.renewed next).marked⟩)
  have hrenewed := h.compiled.renewAll t.nextSerial
  refine ⟨hsound, h.grows.reworks hfirst hreworks, ?_, ?_⟩
  · rw [hlength, run_markImportant]
    exact (h.nodes.renewAll h.compiled _).markAllImportant hrenewed
  · rw [run_markImportant]
    exact hrenewed.markAllImportant

/-- The scope in which the rules of a sound candidate are compiled is ready. -/
theorem Scope.Ready.inBody (hsc : sc.Ready fit s) {c : Candidate}
    (hc : c.Sound fit s.blocks.length) {params : Ruleset} {bindings : List Declaration}
    (hparams : params.rules = bindings.map Node.declaration) :
    (sc.inBody params c).Ready fit s := by
  have hdeclarations : ∀ n ∈ params.rules, ∃ d, n = .declaration d := by
    rw [hparams]
    intro n hn
    obtain ⟨d, -, rfl⟩ := List.mem_map.1 hn
    exact ⟨d, rfl⟩
  refine ⟨?_, (fun hdepth => by cases hdepth), ?_, hsc.sources, hsc.store⟩
  · refine List.forall_mem_cons.2 ⟨?_, List.forall_mem_append.2 ⟨?_, hsc.frames⟩⟩
    · intro n hn
      obtain ⟨d, rfl⟩ := hdeclarations n hn
      exact .declaration d
    · exact fun frame hframe => (hc.closure frame hframe).1
  · refine List.forall_mem_cons.2 ⟨.inl ?_, List.forall_mem_append.2 ⟨?_, hsc.view⟩⟩
    · intro d hd
      obtain ⟨b, hb⟩ := hdeclarations _ hd
      cases hb
    · exact fun frame hframe => (hc.closure frame hframe).2

/-- The rules of a sound candidate are compiled among sound frames. -/
theorem alike_ofCompiler {compile : Compiler} {call : MixinCall} {args : List Value} {c : Candidate}
    (hkept : Header.Kept fit.header)
    (hreached : fit.course.reaches (.candidate (.ofCompiler expand.compiler) sc call args c) s)
    (hsc : sc.Ready fit s) (hc : c.Sound fit s.blocks.length)
    (hbody : ∀ bindings params body t, c.bindings sc call.span args = .ok bindings →
      params.rules = bindings.map Node.declaration →
      fit.course.reaches
        (.ruleset expand ((sc.inBody params c).levels t body.rules) (sc.inBody params c) body) t →
      Compiler.SafeAt fit expand.compiler compile (sc.inBody params c) body t) :
    Alike (Expander.ofCompiler expand.compiler sc call args c)
      (Expander.ofCompiler compile sc call args c) s (Gives fit s) := by
  refine (Alike.record _ s).bind ?_
  rintro _ _ rfl
  refine (Alike.of_except _ fun _ => isReported_of_bindings_eq_error).bind ?_
  rintro bindings _ ⟨hbindings, rfl⟩
  refine (Alike.build _ _ _ _).bind ?_
  rintro params t ⟨hparamsRun, -, hparams, ht⟩
  refine (Alike.build _ _ _ t).bind ?_
  rintro body u ⟨hbodyRun, hheader, hrules, hu⟩
  have hquiet : s.Quiet u := ((s.quiet_record _).trans ht).trans hu
  have hinside := fit.course.follows hreached (.body hbindings hparamsRun hbodyRun)
  have hready := (hsc.inBody hc hparams).later hquiet.grows (hquiet.sound hsc.store)
  have hcompiled := hbody bindings params body u hbindings hparams hinside hready
    (hheader ▸ hkept.plain) (by rw [hrules, hquiet.blocks]; exact hc.rules)
    (hrules ▸ hc.settled)
  refine Alike.get (hcompiled.bind ?_)
  rintro compiled t ⟨hgives, -⟩
  split
  · exact Alike.lift ((hgives.markImportant (Nat.le_refl _)).after hquiet.grows)
  · exact Alike.pure (hgives.after hquiet.grows)

theorem alike_expandAll (hexpand : Expander.Safe fit expand expand') {call : MixinCall}
    {args : List Value} {candidates : List Candidate}
    (hreached : fit.course.reaches (.candidates expand sc call args candidates) s)
    (hsc : sc.Ready fit s) (hall : ∀ c ∈ candidates, c.Sound fit s.blocks.length) :
    Alike (expandAll (expand sc call args) candidates) (expandAll (expand' sc call args) candidates)
      s (Gives fit s) := by
  induction candidates generalizing s with
  | nil => exact Alike.pure ⟨hsc.store, .refl s, Node.allSound_nil, Node.allCompiled_nil⟩
  | cons c candidates ih =>
    have hfirst := fit.course.follows hreached .candidate
    refine (hexpand sc call args c s hfirst hsc (hall c (by simp))).run.bind ?_
    rintro nodes t ⟨hgives, hrun⟩
    have hrest := ih (fit.course.follows hreached (.expanded hrun))
      (hsc.later hgives.grows hgives.sound) fun d hd =>
        (hall d (by simp [hd])).mono hgives.grows.length_le
    exact hrest.bind fun more u hmore => Alike.pure (hgives.append hmore)

/-- A call expands sound candidates only. -/
theorem alike_call (hexpand : Expander.Safe fit expand expand') {call : MixinCall}
    (hreached : fit.course.reaches (.call expand sc call) s) (hsc : sc.Ready fit s) :
    Alike (call.compileWith expand sc) (call.compileWith expand' sc) s (Gives fit s) := by
  refine (Alike.of_except s ?_).bind ?_
  · intro e he
    obtain ⟨arg, -, harg⟩ := exists_of_mapM_eq_error he
    exact isReported_of_value_eq_error harg
  rintro args s ⟨hargs, rfl⟩
  obtain ⟨hsound, hfound⟩ := sound_mixin hsc call.selector
  have hlearns := learns_mixin sc call.selector s
  refine (Alike.lift ⟨rfl, rfl⟩ : Alike _ _ s fun found t =>
    found = ((sc.mixin call.selector).run s).1 ∧ t = ((sc.mixin call.selector).run s).2).bind ?_
  rintro found t ⟨hf, rfl⟩
  cases found with
  | none => exact Alike.throw rfl
  | some candidates =>
    dsimp only
    split
    · exact Alike.throw rfl
    · rename_i hsome
      have hinside := fit.course.follows hreached
        (.candidates hargs (Prod.ext hf.symm rfl) (by simpa using hsome))
      refine (alike_expandAll hexpand hinside (hsc.later hlearns.grows hsound) ?_).bind ?_
      · intro c hc
        rw [hlearns.blocks]
        exact hfound candidates hf.symm c (List.mem_of_mem_filter hc)
      · intro nodes u hgives
        refine (Alike.record _ u).bind ?_
        rintro _ _ rfl
        exact Alike.pure ((hgives.after hlearns.grows).quiet (u.quiet_record _))

end Mixins

end Stylesheet
