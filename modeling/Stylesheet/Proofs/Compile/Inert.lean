import Stylesheet.Proofs.Compile.Empty
import Stylesheet.Proofs.Compile.Finish
import Stylesheet.Proofs.Compile.Freshness

/-!
# An empty ruleset more

A document is compiled twice, the first time with one ruleset more, which has no rules and
which no call can find. Before and after that ruleset the two compilations correspond. The
ruleset itself is compiled in the first one only, which then replaces its frame. Where the
frame was fresh it shows the same afterwards, so that the text of the document is the same.
-/

namespace Stylesheet

variable {queries : Queries} {p q : Pairing} {sc sc' : Scope} {f g e : Ruleset}

/-- The lists correspond, but for one node more in the first. -/
inductive Node.TwinBut (queries : Queries) (p : Pairing) (n : Node) : List Node → List Node → Prop
  | intro {before after before' after' : List Node}
      (hbefore : Node.TwinAll queries p before before')
      (hafter : Node.TwinAll queries p after after') :
      TwinBut queries p n (before ++ n :: after) (before' ++ after')

theorem Node.TwinBut.grow {n : Node} {l m : List Node} (h : n.TwinBut queries p l m) (hle : p ≤ q) :
    n.TwinBut queries q l m := by
  obtain ⟨hbefore, hafter⟩ := h
  exact ⟨hbefore.grow hle, hafter.grow hle⟩

theorem Node.TwinBut.seen {n : Node} {l m : List Node} (h : n.TwinBut queries p l m)
    (hn : n.Unseen queries p.left) : Seen queries p l m := by
  obtain ⟨hbefore, hafter⟩ := h
  exact hbefore.seen.append (hafter.seen.cons_unseen hn)

section Steps

variable {α : Type} {y : CompileM α} {post : Pairing → α → α → Prop}

/-- The first compilation alone replaces its frame by one that shows the same. -/
theorem Parallel.rebuildLeft {rules : List Node} (hframe : f.TwinFrames queries p g)
    (hrules : Seen queries p rules g.rules) {w : Ruleset → CompileM α}
    (hw : ∀ q f', p ≤ q → f'.TwinFrames queries q g → f'.header = f.header →
      Parallel queries q (w f') y post) :
    Parallel queries p (liftM (f.rebuild rules) >>= w) y post := by
  refine .ahead fun s t hst => ?_
  have hle := p.le_add [rules] []
  refine ⟨_, _, rfl, p.add [rules] [], hle, ?_, hw _ _ hle ⟨?_, ?_, ?_, ?_, ?_, ?_⟩ rfl⟩
  · refine hst.later hle (KeepsBooks.build f.header rules f.source s) (.refl t) ?_ ?_
    · change s.nextSerial + 1 = _
      simp [Pairing.add, hst.left]
    · simp [Pairing.add, hst.right]
  · exact hframe.header
  · exact hframe.source
  · change (p.left ++ [rules])[s.nextSerial]? = some rules
    simp [hst.left]
  · exact hframe.right.mono hle.right
  · intro u hu
    have hlt := p.lt_length u hu
    refine ⟨?_, (hframe.single u hu).2⟩
    change u.1 ≠ s.nextSerial
    rw [hst.left]
    omega
  · exact hrules.grow hle

/-- The first compilation alone compiles an empty ruleset. -/
theorem Parallel.compileEmpty {z : CompileM Ruleset}
    (hz : ∀ s, Ensures z s (e.Emptied s) fun _ _ => False) {w : Ruleset → CompileM α}
    (hw : ∀ q e', p ≤ q → e'.Filed (q.left[·]?) → e'.rules = [] →
      e'.header.selectors = e.header.selectors.map Selector.evaluate →
        Parallel queries q (w e') y post) :
    Parallel queries p (z >>= w) y post := by
  refine .ahead fun s t hst => ?_
  cases hrun : z.run.run s with
  | mk result s' =>
    cases result with
    | error err => exact ((hz s).of_error hrun).elim
    | ok e' =>
      have hemptied := (hz s).of_ok hrun
      obtain ⟨q, hle, hst', hfiled⟩ := hemptied.exists_twin hst
      exact ⟨e', s', rfl, q, hle, hst', hw q e' hle hfiled hemptied.rules hemptied.selectors⟩

end Steps

section Documents

variable {expand expand' : Expander} {compile compile' : Compiler}
  {before after before' after' : List Node}

theorem replaceImports_append (replace : Import → CompileM (List Node)) (l m : List Node) :
    replaceImports replace (l ++ m) = (do
      let replaced ← replaceImports replace l
      return replaced ++ (← replaceImports replace m)) := by
  induction l with
  | nil => simp only [List.nil_append, replaceImports, pure_bind, bind_pure]
  | cons n l ih =>
    cases n with
    | inclusion i =>
      simp only [List.cons_append, replaceImports, ih, bind_assoc, pure_bind, List.append_assoc]
    | _ => simp only [List.cons_append, replaceImports, ih, bind_assoc, pure_bind]

/-- After the calls were replaced, the frame shows the nodes in the slots. -/
theorem ensures_expandCalls_rules {inside : Ruleset → Scope} {nodes : List Node} {done : List Slot}
    (hframe : f.rules = done.map Slot.node ++ nodes) (s : Store) :
    Ensures (expandCalls expand inside f done nodes) s
      (fun result _ => result.1.rules = result.2.map Slot.node) fun _ _ => True := by
  induction nodes generalizing f done s with
  | nil => exact hframe.trans (List.append_nil _)
  | cons n nodes ih =>
    have hkept : ∀ {n : Node}, f.rules = done.map Slot.node ++ n :: nodes →
        Ensures (expandCalls expand inside f (done ++ [.own n]) nodes) s
          (fun result _ => result.1.rules = result.2.map Slot.node) fun _ _ => True := by
      intro n hframe
      refine ih ?_ s
      rw [hframe, List.map_append, List.append_assoc]
      rfl
    cases n with
    | call c =>
      refine ensures_bind.2 (ensures_of_forall (fun results t => ?_) fun _ _ => trivial)
      rw [ensures_bind, ensures_lift]
      refine ih ?_ _
      rw [map_node_append_expanded]
      rfl
    | _ => exact hkept hframe

/-- The frames of two documents of which the first has a ruleset more, once their imports are
replaced. What comes before that ruleset still leaves a frame fresh. -/
theorem parallel_homeFrame_insert (hsc : sc.Twin queries p sc') {r r' : Ruleset}
    (hserial : (r.serial, r'.serial) ∈ p.twins) (hheader : r.header = Header.document)
    (hheader' : r'.header = Header.document) {rules : List Rule} {next : Nat}
    (hrules : r.rules = ((Node.ofRules rules).run next).1 ++ .ruleset e :: after)
    (hrules' : r'.rules = before' ++ after')
    (hbefore : Node.TwinAll queries p ((Node.ofRules rules).run next).1 before')
    (hafter : Node.TwinAll queries p after after')
    (he : (Node.ruleset e).Unseen queries p.left) (hstack : sc.importing = [])
    (hfresh : Rule.EndFresh sc.sources rules) :
    ParallelFirst queries p (r.homeFrame sc []) (r'.homeFrame sc' []) fun q home home' =>
      home.TwinFrames queries q home' ∧ home.header = Header.document ∧
        ∃ before after before' after', home.rules = before ++ .ruleset e :: after ∧
          home'.rules = before' ++ after' ∧ Node.TwinAll queries q before before' ∧
            Node.TwinAll queries q after after' ∧ Node.refreshAll true before = true := by
  have hseen : Seen queries p r.rules r'.rules := by
    rw [hrules, hrules']
    exact Node.TwinBut.seen ⟨hbefore, hafter⟩ he
  have hreplaces : ∀ sc : Scope, sc.replacesImports Header.document = true := fun sc => rfl
  rw [Ruleset.homeFrame, Ruleset.homeFrame, hheader, hheader']
  refine .lift_bind (.frame hseen (.some hserial)) (.build _ _ _) ?_
  rintro q frame frame' hle ⟨hframe, hframeHeader, hframeRules, hframeRules'⟩
  have hinside := (hsc.grow hle).enter hframe []
  rw [if_pos (hreplaces sc), if_pos (hreplaces sc'), hframeRules, hframeRules', hrules, hrules',
    replaceImports_append, replaceImports_append, bind_assoc, bind_assoc]
  have himport : ∀ r i, q ≤ r → Parallel queries r (Import.compile (sc.enter frame []) i)
      (Import.compile (sc'.enter frame' []) i) (Node.TwinAll queries) :=
    fun r i hr => parallel_importCompile (hinside.grow hr) i
  have hreplaced : ParallelFirst queries q
      (replaceImports (Import.compile (sc.enter frame [])) ((Node.ofRules rules).run next).1)
      (replaceImports (Import.compile (sc'.enter frame' [])) before') fun q l m =>
        Node.TwinAll queries q l m ∧ Node.refreshAll true l = true := by
    intro s t hst hnone
    have hinner : Rule.EndFresh (sc.enter frame []).sources rules := hfresh
    exact (parallel_replaceImports himport (hbefore.grow hle) s t hst).and_left
      (hinner.ensures_replaceImports hstack hnone next)
  refine hreplaced.bind ?_
  rintro t l m ht ⟨hl, hlfresh⟩
  have hrest : Parallel queries t
      (replaceImports (Import.compile (sc.enter frame [])) (.ruleset e :: after))
      (replaceImports (Import.compile (sc'.enter frame' [])) after') fun u l m =>
        ∃ k, l = .ruleset e :: k ∧ Node.TwinAll queries u k m :=
    (parallel_replaceImports (fun r i hr => himport r i (ht.trans hr))
      (hafter.grow (hle.trans ht))).mapLeft fun u k m _ hk => ⟨k, rfl, hk⟩
  rw [bind_assoc, bind_assoc]
  refine hrest.bind ?_
  rintro u _ m' hu ⟨k, rfl, hk⟩
  rw [pure_bind, pure_bind]
  have hle' := hle.trans (ht.trans hu)
  have hrules : Node.TwinBut queries u (.ruleset e) (l ++ .ruleset e :: k) (m ++ m') :=
    ⟨hl.grow hu, hk⟩
  refine (Parallel.lift (.rebuild (hframe.grow (ht.trans hu))
    (hrules.seen (he.grow hle'.left)))).mono ?_
  rintro v home home' hv ⟨hhome, hhomeHeader, hhomeRules, hhomeRules'⟩
  exact ⟨hhome, hhomeHeader.trans hframeHeader, l, k, m, m', hhomeRules, hhomeRules',
    hl.grow (hu.trans hv), hk.grow hv, hlfresh⟩

/-- The calls of two documents of which the first has a ruleset more. -/
theorem parallel_expandCalls_insert (hexpand : expand.Parallel queries expand')
    {inside inside' : Ruleset → Scope}
    (hinside : ∀ q f g, p ≤ q → f.TwinFrames queries q g → (inside f).Twin queries q (inside' g))
    (hframe : f.TwinFrames queries p g) (hbefore : Node.TwinAll queries p before before')
    (hafter : Node.TwinAll queries p after after')
    (he : (Node.ruleset e).Unseen queries p.left) (hfresh : Node.refreshAll true before = true) :
    Parallel queries p (expandCalls expand inside f [] (before ++ .ruleset e :: after))
      (expandCalls expand' inside' g [] (before' ++ after')) fun q a b =>
        (a.1.TwinFrames queries q b.1 ∧ a.1.header = f.header) ∧
          ∃ first rest first' rest', a.2 = first ++ .own (.ruleset e) :: rest ∧
            b.2 = first' ++ rest' ∧ Slot.TwinAll queries q first first' ∧
              Slot.TwinAll queries q rest rest' ∧ first.foldl Slot.refresh true = true := by
  refine parallel_expandCalls hexpand hinside hbefore (hafter.seen.cons_unseen he) hframe
    (Slot.seen_nil p) ?_
  intro q f' g' first first' hle hf' hheader hfirst hrefresh
  have hone : Seen queries q [.ruleset e] [] :=
    (Node.TwinAll.seen .nil).cons_unseen (he.grow hle.left)
  have hdone : Seen queries q ((first ++ [Slot.own (.ruleset e)]).map Slot.node)
      (first'.map Slot.node) := by
    rw [List.map_append, ← List.append_nil (first'.map Slot.node)]
    exact hfirst.map_node.seen.append hone
  have hstep : expandCalls expand inside f' ([] ++ first) (.ruleset e :: after) =
      expandCalls expand inside f' (first ++ [.own (.ruleset e)]) after := rfl
  rw [hstep, List.nil_append, ← List.append_nil after, ← List.append_nil after']
  refine parallel_expandCalls hexpand (fun r f g hr => hinside r f g (hle.trans hr))
    (hafter.grow hle) (Node.TwinAll.seen .nil) hf' hdone ?_
  intro r f'' g'' rest rest' hr hf'' hheader' hrest _
  refine .pure ⟨⟨hf'', hheader'.trans hheader⟩, first, rest, first', rest', ?_, rfl, hfirst.grow hr,
    hrest, (hrefresh true).trans hfresh⟩
  rw [List.append_assoc]
  rfl

/-- The slots of two documents of which the first has a ruleset more. -/
theorem parallel_compileSlots_insert (hcompile : compile.Parallel queries compile')
    {inside inside' : Ruleset → Scope}
    (hinside : ∀ q f g, p ≤ q → f.TwinFrames queries q g → (inside f).Twin queries q (inside' g))
    (hframe : f.TwinFrames queries p g) {first rest first' rest' : List Slot}
    (hfirst : Slot.TwinAll queries p first first') (hrest : Slot.TwinAll queries p rest rest')
    (hshown : Seen queries p ((first ++ .own (.ruleset e) :: rest).map Slot.node) g.rules)
    (hfresh : first.foldl Slot.refresh true = true)
    (he : (Node.ruleset e).Unseen queries p.left)
    (hmatch : ∀ q, queries.Has q → ∀ s ∈ e.header.selectors, q.matchLength s = 0)
    (hempty : ∀ sc s, Ensures (compile sc e) s (e.Emptied s) fun _ _ => False) :
    Parallel queries p
      (compileSlots (Node.compileWith compile) inside f [] (first ++ .own (.ruleset e) :: rest))
      (compileSlots (Node.compileWith compile') inside' g [] (first' ++ rest')) fun q a b =>
        (a.1.TwinFrames queries q b.1 ∧ a.1.header = f.header) ∧ ∃ e', e'.rules = [] ∧
          e'.header.selectors = e.header.selectors.map Selector.evaluate ∧
            (Node.ruleset e').Unseen queries q.left ∧
              Node.TwinBut queries q (.ruleset e') a.2 b.2 := by
  have htail : Seen queries p ((Slot.own (.ruleset e) :: rest).map Slot.node)
      (rest'.map Slot.node) := hrest.map_node.seen.cons_unseen he
  refine parallel_compileSlots hcompile hinside hfirst htail hframe (Node.TwinAll.seen .nil) true
    (fun _ => hshown) ?_
  intro q f' g' nodes nodes' hle hf' hheader hnodes hseen
  rw [List.nil_append, List.nil_append, compileSlots_ruleset]
  refine .compileEmpty (hempty _) fun r e' hr hfiled hrules hselectors => ?_
  have he' : (Node.ruleset e').Unseen queries r.left := by
    refine unseen_of_empty hrules hfiled fun query hquery s hs => ?_
    rw [hselectors] at hs
    obtain ⟨s, hs', rfl⟩ := List.mem_map.1 hs
    exact hmatch query hquery s hs'
  have hone : Seen queries r [.ruleset e'] [] := (Node.TwinAll.seen .nil).cons_unseen he'
  have hshown' : Seen queries r (nodes ++ [.ruleset e'] ++ rest.map Slot.node) g'.rules := by
    rw [List.append_assoc]
    refine ((hseen hfresh).grow hr).replace rfl (fun query hquery => ?_) he'.each
    exact (he'.search query hquery).trans (he.search query hquery).symm
  have hdone : Seen queries r (nodes ++ [.ruleset e']) nodes' := by
    rw [← List.append_nil nodes']
    exact (hnodes.grow hr).seen.append hone
  refine .rebuildLeft (hf'.grow hr) hshown' fun u f'' hu hf'' hheader' => ?_
  have hle' := hle.trans (hr.trans hu)
  rw [← List.append_nil rest, ← List.append_nil rest']
  refine parallel_compileSlots hcompile (fun v f g hv => hinside v f g (hle'.trans hv))
    (hrest.grow hle') (Slot.seen_nil u) hf'' (hdone.grow hu) false (fun h => by cases h) ?_
  intro v f₁ g₁ more more' hv hf₁ hheader₁ hmore _
  refine .pure ⟨⟨hf₁, hheader₁.trans (hheader'.trans hheader)⟩, e', hrules, hselectors,
    he'.grow (hu.trans hv).left, ?_⟩
  dsimp only
  rw [List.append_assoc]
  exact ⟨hnodes.grow (hr.trans (hu.trans hv)), hmore⟩

/-- The rest of compiling two documents from their frames on. -/
theorem parallel_fillFrame_insert (hexpand : expand.Parallel queries expand')
    (hcompile : compile.Parallel queries compile') (hsc : sc.Twin queries p sc')
    (hframe : f.TwinFrames queries p g) (hf : f.rules = before ++ .ruleset e :: after)
    (hg : g.rules = before' ++ after') (hbefore : Node.TwinAll queries p before before')
    (hafter : Node.TwinAll queries p after after') (hfresh : Node.refreshAll true before = true)
    (he : (Node.ruleset e).Unseen queries p.left)
    (hmatch : ∀ q, queries.Has q → ∀ s ∈ e.header.selectors, q.matchLength s = 0)
    (hempty : ∀ sc s, Ensures (compile sc e) s (e.Emptied s) fun _ _ => False)
    (selectors : List Selector) :
    Parallel queries p (f.fillFrame expand (fun _ => Node.compileWith compile) sc selectors)
      (g.fillFrame expand' (fun _ => Node.compileWith compile') sc' selectors) fun q a b =>
        a.header = f.header ∧ b.header = f.header ∧ ∃ e', e'.rules = [] ∧
          e'.header.selectors = e.header.selectors.map Selector.evaluate ∧
            Node.TwinBut queries q (.ruleset e') a.rules b.rules := by
  have hinside : ∀ q f g, p ≤ q → f.TwinFrames queries q g →
      (sc.enter f selectors).Twin queries q (sc'.enter g selectors) :=
    fun q f g hle h => (hsc.grow hle).enter h selectors
  refine .get fun s t hst => ?_
  rw [hst.length_eq, hg]
  have hcalls := parallel_expandCalls_insert hexpand hinside hframe hbefore hafter he hfresh
  rw [← hf] at hcalls
  refine (hcalls.and_left (ensures_expandCalls_rules rfl)).bind ?_
  rintro q ⟨f', slots⟩ ⟨g', slots'⟩ hle
    ⟨⟨⟨hf', hheader⟩, first, rest, first', rest', rfl, rfl, hfirst, hrest, hrefresh⟩, hrules⟩
  have hshown : Seen queries q ((first ++ .own (.ruleset e) :: rest).map Slot.node) g'.rules :=
    hrules ▸ hf'.seen
  refine (parallel_compileSlots_insert hcompile (fun r f g hr => hinside r f g (hle.trans hr)) hf'
    hfirst hrest hshown hrefresh (he.grow hle.left) hmatch hempty).bind ?_
  rintro r ⟨last, rules⟩ ⟨last', rules'⟩ hr ⟨⟨hlast, hheader'⟩, e', hempty', hselectors, he', hbut⟩
  refine (Parallel.lift (inStep_bubble selectors s.blocks.length)).bind fun u _ _ hu _ => ?_
  refine (Parallel.lift (.rebuild (hlast.grow hu)
    ((hbut.grow hu).seen (he'.grow hu.left)))).mono ?_
  rintro v a b hv ⟨hab, hlastHeader, ha, hb⟩
  have haHeader := hlastHeader.trans (hheader'.trans hheader)
  refine ⟨haHeader, hab.header.trans haHeader, e', hempty', hselectors, ?_⟩
  rw [ha, hb]
  exact (hbut.grow hu).grow hv

/-- Two documents of which the first has a ruleset more compile to two of which the first has an
empty ruleset more, or fail with one error. -/
theorem parallel_compileWith_insert (hexpand : expand.Parallel queries expand')
    (hcompile : compile.Parallel queries compile') (hsc : sc.Twin queries p sc') {r r' : Ruleset}
    (hserial : (r.serial, r'.serial) ∈ p.twins) (hheader : r.header = Header.document)
    (hheader' : r'.header = Header.document) {rules : List Rule} {next : Nat}
    (hrules : r.rules = ((Node.ofRules rules).run next).1 ++ .ruleset e :: after)
    (hrules' : r'.rules = before' ++ after')
    (hbefore : Node.TwinAll queries p ((Node.ofRules rules).run next).1 before')
    (hafter : Node.TwinAll queries p after after') (hstack : sc.importing = [])
    (hfresh : Rule.EndFresh sc.sources rules)
    (he : (Node.ruleset e).Unseen queries p.left)
    (hmatch : ∀ q, queries.Has q → ∀ s ∈ e.header.selectors, q.matchLength s = 0)
    (hempty : ∀ sc s, Ensures (compile sc e) s (e.Emptied s) fun _ _ => False) :
    ParallelFirst queries p (Ruleset.compileWith expand compile sc r)
      (Ruleset.compileWith expand' compile' sc' r') fun q a b =>
        a.header = Header.document ∧ b.header = Header.document ∧ ∃ e', e'.rules = [] ∧
          e'.header.selectors = e.header.selectors.map Selector.evaluate ∧
            Node.TwinBut queries q (.ruleset e') a.rules b.rules := by
  have hnone : ∀ sc : Scope, (ofExcept (Header.document.selectors.mapM sc.selector) :
      CompileM (List Selector)) = pure [] := fun sc => rfl
  rw [Ruleset.compileWith_eq, Ruleset.compileWith_eq, Ruleset.compileBy, Ruleset.compileBy, hheader,
    hheader', hnone, hnone, pure_bind, pure_bind]
  refine .lift_bind (.record _ _) (fun s => s.quiet_record _) fun q _ _ hq _ => ?_
  refine (parallel_homeFrame_insert (hsc.grow hq) (hq.twins _ hserial) hheader hheader' hrules
    hrules' (hbefore.grow hq) (hafter.grow hq) (he.grow hq.left) hstack hfresh).bind ?_
  rintro t home home' ht
    ⟨hhome, hhomeHeader, l, k, l', k', hhomeRules, hhomeRules', hl, hk, hlfresh⟩
  have hle := hq.trans ht
  have hframes : List.Forall₂ (Ruleset.TwinFrames queries t) (home :: sc.frames)
      (home' :: sc'.frames) := .cons hhome (hsc.grow hle).frames
  have hl' := twinAll_captureFrames hframes hl
  have hk' := twinAll_captureFrames hframes hk
  have hcaptured : captureFrames (home :: sc.frames) home.rules =
      captureFrames (home :: sc.frames) l ++ .ruleset e :: captureFrames (home :: sc.frames) k := by
    rw [hhomeRules, captureFrames, List.map_append]
    rfl
  have hcaptured' : captureFrames (home' :: sc'.frames) home'.rules =
      captureFrames (home' :: sc'.frames) l' ++ captureFrames (home' :: sc'.frames) k' := by
    rw [hhomeRules', captureFrames, List.map_append]
    rfl
  have hbut : Node.TwinBut queries t (.ruleset e) (captureFrames (home :: sc.frames) home.rules)
      (captureFrames (home' :: sc'.frames) home'.rules) := by
    rw [hcaptured, hcaptured']
    exact ⟨hl', hk'⟩
  refine (Parallel.lift (.rebuild hhome (hbut.seen (he.grow hle.left)))).bind ?_
  rintro u frame frame' hu ⟨hframe, hframeHeader, hframeRules, hframeRules'⟩
  have hdocument := hframeHeader.trans hhomeHeader
  rw [← hdocument]
  refine parallel_fillFrame_insert hexpand hcompile (hsc.grow (hle.trans hu)) hframe
    (hframeRules.trans hcaptured) (hframeRules'.trans hcaptured') (hl'.grow hu) (hk'.grow hu) ?_
    (he.grow (hle.trans hu).left) hmatch hempty []
  rw [Node.refreshAll_captureFrames]
  exact hlfresh

end Documents

section Numbering

theorem run_ofRules_append (l m : List Rule) (next : Nat) :
    (Node.ofRules (l ++ m)).run next =
      (((Node.ofRules l).run next).1 ++ ((Node.ofRules m).run ((Node.ofRules l).run next).2).1,
        ((Node.ofRules m).run ((Node.ofRules l).run next).2).2) := by
  induction l generalizing next with
  | nil => rfl
  | cons rule l ih =>
    have hcons : ∀ rules, (Node.ofRules (rule :: rules)).run next =
        (((Node.ofRule rule).run next).1 ::
            ((Node.ofRules rules).run ((Node.ofRule rule).run next).2).1,
          ((Node.ofRules rules).run ((Node.ofRule rule).run next).2).2) := fun rules => rfl
    rw [List.cons_append, hcons, hcons, ih]
    rfl

/-- The rules of two documents, of which the first has an empty ruleset more, with their numbers. -/
theorem numbers_insert {before after : List Rule}
    (hbefore : ∀ c ∈ Rule.allCalls before, queries.Has c.selector)
    (hafter : ∀ c ∈ Rule.allCalls after, queries.Has c.selector) (header : Header) (p : Pairing) :
    Numbers p (Node.ofRules (before ++ .ruleset header [] :: after))
      (Node.ofRules (before ++ after)) fun q l m => ∃ e : Ruleset,
        (e.rules = [] ∧ e.header = header ∧ e.Filed (q.left[·]?)) ∧ ∃ nodes before' after',
          l = ((Node.ofRules before).run p.left.length).1 ++ .ruleset e :: nodes ∧
            m = before' ++ after' ∧
              Node.TwinAll queries q ((Node.ofRules before).run p.left.length).1 before' ∧
                Node.TwinAll queries q nodes after' := by
  obtain ⟨q, hle, hleft, hright, hnodes⟩ := Node.twin_ofRules before hbefore p
  obtain ⟨r, hle', hleft', hright', hnodes'⟩ :=
    Node.twin_ofRules after hafter (q.add [[]] [])
  have hlength : (q.add [[]] []).left.length = q.left.length + 1 := by simp [Pairing.add]
  have hlength' : (q.add [[]] []).right.length = q.right.length := by simp [Pairing.add]
  rw [hlength] at hleft' hnodes'
  rw [hlength'] at hright' hnodes'
  have hq := (q.le_add [[]] []).trans hle'
  have hruleset : (Node.ofRules (.ruleset header [] :: after)).run q.left.length =
      (.ruleset ⟨q.left.length, none, header, []⟩ ::
          ((Node.ofRules after).run (q.left.length + 1)).1,
        ((Node.ofRules after).run (q.left.length + 1)).2) := rfl
  refine ⟨r, hle.trans hq, ?_, ?_, ⟨q.left.length, none, header, []⟩, ⟨rfl, rfl, ?_⟩,
    ((Node.ofRules after).run (q.left.length + 1)).1, ((Node.ofRules before).run p.right.length).1,
    ((Node.ofRules after).run q.right.length).1, ?_, ?_, hnodes.grow hq, hnodes'⟩
  · rw [run_ofRules_append, hleft, hruleset]
    exact hleft'
  · rw [run_ofRules_append, hright]
    exact hright'
  · refine Ruleset.Filed.mono hle'.left ?_
    simp [Ruleset.Filed, Pairing.add]
  · rw [run_ofRules_append, hleft, hruleset]
  · rw [run_ofRules_append, hright]

end Numbering

section Texts

variable {before after : List Rule} {header : Header} {sources : Option Sources}

theorem Store.twin_empty (queries : Queries) : Store.Twin queries .empty {} {} where
  left := rfl
  right := rfl
  blocks := .nil
  imported := rfl
  remembersLeft := fun _ _ _ h => by cases h
  remembersRight := fun _ _ _ h => by cases h

/-- The first compilation of a document, up to joining its selectors. -/
theorem parallel_compileRounds_insert
    (hcalls : ∀ c ∈ Rule.callsWith sources (before ++ after), queries.Has c.selector)
    (hmatch : ∀ q, queries.Has q → ∀ s ∈ header.selectors, q.matchLength s = 0)
    (hliteral : ∀ s ∈ header.selectors, s.IsLiteral)
    (hfresh : Rule.EndFresh sources before) (options : Options) (rounds : Nat) :
    ParallelFirst queries .empty (do
        let root ← Ruleset.document (← numberRules (before ++ .ruleset header [] :: after))
        Ruleset.compileRounds (rounds + 2) { options, sources } root)
      (do
        let root ← Ruleset.document (← numberRules (before ++ after))
        Ruleset.compileRounds (rounds + 2) { options, sources } root) fun q a b =>
          a.header = Header.document ∧ b.header = Header.document ∧ ∃ e', e'.rules = [] ∧
            e'.header.selectors = header.selectors.map Selector.evaluate ∧
              Node.TwinBut queries q (.ruleset e') a.rules b.rules := by
  have hbefore : ∀ c ∈ Rule.allCalls before, queries.Has c.selector := by
    intro c hc
    obtain ⟨rule, hrule, hc⟩ := Rule.mem_allCalls.1 hc
    exact hcalls c (List.mem_append_left _
      (Rule.mem_allCalls.2 ⟨rule, List.mem_append_left _ hrule, hc⟩))
  have hafter : ∀ c ∈ Rule.allCalls after, queries.Has c.selector := by
    intro c hc
    obtain ⟨rule, hrule, hc⟩ := Rule.mem_allCalls.1 hc
    exact hcalls c (List.mem_append_left _
      (Rule.mem_allCalls.2 ⟨rule, List.mem_append_right _ hrule, hc⟩))
  have hsources : ∀ table, sources = some table → ∀ entry ∈ table,
      ∀ c ∈ Rule.allCalls entry.2, queries.Has c.selector := by
    rintro table rfl entry hentry c hc
    exact hcalls c (List.mem_append_right _ (List.mem_flatMap.2 ⟨entry, hentry, hc⟩))
  refine .lift_bind (.numbering (numbers_insert hbefore hafter header .empty)
    (Node.le_next_ofRules _) (Node.le_next_ofRules _)) (.numbering (Node.le_next_ofRules _)) ?_
  rintro q _ _ - ⟨e, ⟨herules, rfl, hfiled⟩, nodes, before', after', rfl, rfl, hnodes, hnodes'⟩
  refine .lift_bind (.partners Header.document _ _ none none) (.build _ _ _) ?_
  rintro r root root' hr ⟨hserial, ⟨-, hheader, hrules⟩, -, hheader', hrules'⟩
  have hsc : Scope.Twin queries r { options, sources } { options, sources } :=
    ⟨.nil, rfl, rfl, rfl, rfl, rfl, hsources⟩
  have hcompile := parallel_compileRounds queries (rounds + 1)
  exact parallel_compileWith_insert (parallel_guarded hcompile) hcompile hsc hserial hheader
    hheader' hrules hrules' (hnodes.grow hr) (hnodes'.grow hr) rfl hfresh
    (unseen_of_empty herules (hfiled.mono hr.left) hmatch) hmatch fun sc s =>
      ensures_compileWith_empty _ _ herules hliteral s

/-- In any number of rounds, an empty ruleset makes no difference to the text of a document. -/
theorem compileToCssWith_insert
    (hcalls : ∀ c ∈ Rule.callsWith sources (before ++ after), queries.Has c.selector)
    (hmatch : ∀ q, queries.Has q → ∀ s ∈ header.selectors, q.matchLength s = 0)
    (hliteral : ∀ s ∈ header.selectors, s.IsLiteral) (hheader : header.HasElements)
    (hfresh : Rule.EndFresh sources before) (options : Options) (rounds : Nat) :
    compileToCssWith (Ruleset.compileRounds (rounds + 2)) (before ++ .ruleset header [] :: after)
        options sources =
      compileToCssWith (Ruleset.compileRounds (rounds + 2)) (before ++ after) options sources := by
  have hsplit : ∀ rules, compileDocumentWith (Ruleset.compileRounds (rounds + 2))
      { options, sources } rules = (do
        let root ← Ruleset.document (← numberRules rules)
        Ruleset.compileRounds (rounds + 2) { options, sources } root) >>= fun compiled => (do
          record .joining
          let joined ← compiled.join
          return (← get).css options.compress joined) := by
    intro rules
    simp only [compileDocumentWith, bind_assoc]
  rw [compileToCssWith_eq, compileToCssWith_eq, hsplit, hsplit]
  rcases parallel_compileRounds_insert hcalls hmatch hliteral hfresh options rounds {} {}
    (Store.twin_empty queries) rfl with
    ⟨a, s, b, t, hx, hy, q, -, hst, ha, hb, e, hrules, hselectors, hbut⟩ | ⟨err, s, t, hx, hy⟩
  · have helements : e.header.HasElements := by
      intro s hs
      rw [hselectors] at hs
      obtain ⟨s, hs', rfl⟩ := List.mem_map.1 hs
      exact hheader s hs'
    rw [run_bind_ok hx, run_bind_ok hy, run_join_css ha, run_join_css hb]
    generalize a.rules = l at hbut ⊢
    generalize b.rules = m at hbut ⊢
    obtain ⟨hbefore, hafter⟩ := hbut
    rw [finish_insert_empty hrules helements]
    exact (finish_eq_of_twin (hbefore.append hafter) hst.blocks).symm
  · rw [run_bind_error hx, run_bind_error hy]

/-- An empty ruleset is inert where the frame of the document is fresh. Put between any rules of a
style sheet that was read, a ruleset without rules and without holes in its selectors changes
neither the text nor the error, provided that its selectors match no call and nothing that is left
of one, and that the rules before it leave the frame fresh. -/
theorem compileToCss_insert_empty
    (hrules : ∃ json, Rule.readList json = .ok (before ++ .ruleset header [] :: after))
    (hsources : ∀ table, sources = some table →
      ∀ entry ∈ table, ∃ json, Rule.readList json = .ok entry.2)
    (hliteral : ∀ s ∈ header.selectors, s.IsLiteral)
    (hmatch : ∀ c ∈ Rule.callsWith sources (before ++ after), ∀ s ∈ header.selectors,
      ∀ count, (c.selector.rest count).matchLength s = 0)
    (hfresh : Rule.EndFresh sources before) (options : Options) :
    compileToCss (before ++ .ruleset header [] :: after) options sources =
      compileToCss (before ++ after) options sources := by
  obtain ⟨json, hjson⟩ := hrules
  have hfits := Rule.fits_readList hjson
  have hfits' : ∀ table, sources = some table →
      ∀ entry ∈ table, ∀ rule ∈ entry.2, rule.Fits .hasElements := by
    intro table htable entry hentry
    obtain ⟨json, hjson⟩ := hsources table htable entry hentry
    exact Rule.fits_readList hjson
  have hread' : ∀ table, sources = some table →
      ∀ entry ∈ table, ∀ rule ∈ entry.2, rule.CallsRead := by
    intro table htable entry hentry
    obtain ⟨json, hjson⟩ := hsources table htable entry hentry
    exact Rule.callsRead_readList hjson
  have hsub : ∀ rule ∈ before ++ after, rule ∈ before ++ .ruleset header [] :: after :=
    fun rule hrule => List.Sublist.mem hrule (by simp)
  have hread : ∀ c ∈ Rule.callsWith sources (before ++ after),
      ∃ text, Selector.read text = .ok c.selector := fun c =>
    Rule.exists_read_of_mem_callsWith
      (fun rule hrule => Rule.callsRead_readList hjson rule (hsub rule hrule)) hread'
  have hheader : header.HasElements := by
    cases hfits (.ruleset header []) (by simp) with
    | ruleset hheader _ _ => exact hheader
  obtain ⟨least, hleast⟩ := exists_rounds hfits hfits' options
  obtain ⟨least', hleast'⟩ :=
    exists_rounds (fun rule hrule => hfits rule (hsub rule hrule)) hfits' options
  rw [← hleast (max least least' + 2) (by omega), ← hleast' (max least least' + 2) (by omega)]
  have hcalls : ∀ c ∈ Rule.callsWith sources (before ++ after),
      (Queries.ofCalls _ hread).Has c.selector := fun c hc => ⟨c, hc, 0, rfl⟩
  refine compileToCssWith_insert hcalls ?_ hliteral hheader hfresh options _
  rintro _ ⟨c, hc, count, rfl⟩ s hs
  exact hmatch c hc s hs count

/-- Before a ruleset that uses a variable and one that shadows what the variable refers to, after a
source is imported whose last rule is a ruleset, with a call that takes its mixin from there. There
is another source, which is not imported. -/
theorem compileToCss_insert_empty_import :
    let table : Sources := [
      ("lib", [
        .declaration { name := "@c", value := .read "3" },
        .ruleset { selectors := [{ elements := [{ value := "#ns" }] }] }
          [.definition { name := { elements := [{ value := ".m" }] } }
            [.declaration { name := "v", value := .read "@c" }]]]),
      ("other", [.declaration { name := "@b", value := .read "@c" }])]
    let before : List Rule := [.declaration { name := "@a", value := .read "@c" },
      .inclusion { path := "lib" }]
    let after : List Rule := [
      .ruleset { selectors := [{ elements := [{ value := ".y" }] }] }
        [.declaration { name := "u", value := .read "@a" }],
      .ruleset { selectors := [{ elements := [{ value := ".x" }] }] }
        [.declaration { name := "@c", value := .read "2" },
          .declaration { name := "w", value := .read "@a" },
          .call { selector :=
            { elements := [{ value := "#ns" }, { combinator := .child, value := ".m" }] } }]]
    let empty : Rule := .ruleset { selectors := [{ elements := [{ value := ".e" }] }] } []
    Rule.EndFresh (some table) before ∧
      compileToCss (before ++ after) {} (some table) =
        .ok ".y \x7b\n  u: 3;\n\x7d\n.x \x7b\n  w: 3;\n  v: 3;\n\x7d" ∧
      compileToCss (before ++ empty :: after) {} (some table) =
        .ok ".y \x7b\n  u: 3;\n\x7d\n.x \x7b\n  w: 3;\n  v: 3;\n\x7d" := by
  intro table before after empty
  have hfresh : Rule.EndFresh (some table) before := by
    refine ⟨(fun hnone => by cases hnone), ?_⟩
    rintro _ ⟨⟩ tree htree
    dsimp only [before, table] at htree
    -- The tree has the declaration, and the source with its two rules.
    cases htree with
    | source hrule => cases hrule
    | plain _ hrest =>
      cases hrest with
      | plain hrule => cases hrule
      | source hrule hfile hinside hnil =>
        cases hrule
        cases hfile
        cases hnil
        cases hinside with
        | source hrule => cases hrule
        | plain _ hlast =>
          cases hlast with
          | source hrule => cases hrule
          | plain _ hnil =>
            cases hnil
            rfl
  have hcss : compileToCss (before ++ after) {} (some table) =
      .ok ".y \x7b\n  u: 3;\n\x7d\n.x \x7b\n  w: 3;\n  v: 3;\n\x7d" := by decide +kernel
  refine ⟨hfresh, hcss, (compileToCss_insert_empty ?_ ?_ ?_ ?_ hfresh {}).trans hcss⟩
  · exact ⟨.array [
      .object [("type", .string "declaration"), ("name", .string "@a"), ("value", .string "@c")],
      .object [("type", .string "import"), ("path", .string "lib")],
      .object [("type", .string "ruleset"), ("selectors", .array [.string ".e"])],
      .object [("type", .string "ruleset"), ("selectors", .array [.string ".y"]),
        ("rules", .array [
          .object [("type", .string "declaration"), ("name", .string "u"),
            ("value", .string "@a")]])],
      .object [("type", .string "ruleset"), ("selectors", .array [.string ".x"]),
        ("rules", .array [
          .object [("type", .string "declaration"), ("name", .string "@c"),
            ("value", .string "2")],
          .object [("type", .string "declaration"), ("name", .string "w"),
            ("value", .string "@a")],
          .object [("type", .string "mixin_call"), ("selector", .string "#ns > .m")]])]], rfl⟩
  · rintro _ ⟨⟩ entry hentry
    rcases List.mem_cons.1 hentry with rfl | hentry
    · exact ⟨.array [
        .object [("type", .string "declaration"), ("name", .string "@c"), ("value", .string "3")],
        .object [("type", .string "ruleset"), ("selectors", .array [.string "#ns"]),
          ("rules", .array [
            .object [("type", .string "mixin_definition"), ("name", .string ".m"),
              ("rules", .array [
                .object [("type", .string "declaration"), ("name", .string "v"),
                  ("value", .string "@c")]])]])]], rfl⟩
    · obtain rfl := List.mem_singleton.1 hentry
      exact ⟨.array [
        .object [("type", .string "declaration"), ("name", .string "@b"),
          ("value", .string "@c")]], rfl⟩
  · decide
  · intro c hc s hs count
    obtain rfl := List.mem_singleton.1 hc
    obtain rfl := List.mem_singleton.1 hs
    rcases count with _ | _ | count
    · decide
    · decide
    · simp [Selector.rest, Selector.matchLength]

/-- Without a ruleset before it, an empty ruleset gives a variable its value too early: the value of
`@a` is the one of `@b` in the document, although the last ruleset declares `@b` again. -/
theorem compileToCss_insert_empty_stale :
    let before : List Rule := [.declaration { name := "@b", value := .read "1" },
      .declaration { name := "@a", value := .read "@b" }]
    let after : List Rule := [.ruleset { selectors := [{ elements := [{ value := ".x" }] }] }
      [.declaration { name := "@b", value := .read "2" },
        .declaration { name := "w", value := .read "@a" }]]
    let header : Header := { selectors := [{ elements := [{ value := ".e" }] }] }
    (∃ json, Rule.readList json = .ok (before ++ .ruleset header [] :: after)) ∧
      (∀ s ∈ header.selectors, s.IsLiteral) ∧ Rule.callsWith none (before ++ after) = [] ∧
        compileToCss (before ++ after) {} none = .ok ".x \x7b\n  w: 2;\n\x7d" ∧
          compileToCss (before ++ .ruleset header [] :: after) {} none =
            .ok ".x \x7b\n  w: 1;\n\x7d" := by
  intro before after header
  refine ⟨⟨.array [
    .object [("type", .string "declaration"), ("name", .string "@b"), ("value", .string "1")],
    .object [("type", .string "declaration"), ("name", .string "@a"), ("value", .string "@b")],
    .object [("type", .string "ruleset"), ("selectors", .array [.string ".e"])],
    .object [("type", .string "ruleset"), ("selectors", .array [.string ".x"]),
      ("rules", .array [
        .object [("type", .string "declaration"), ("name", .string "@b"), ("value", .string "2")],
        .object [("type", .string "declaration"), ("name", .string "w"),
          ("value", .string "@a")]])]], rfl⟩, by decide, rfl, by decide +kernel, by decide +kernel⟩

end Texts

end Stylesheet
