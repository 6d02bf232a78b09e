import Stylesheet.Proofs.Compile.Trimmed

/-!
# Two compilations in lockstep

Two compilations are run side by side, where the tree of the second one is without some
mixin definitions that no query finds. They take the same steps, and remember the same
answers to lookups, so they end with results that are alike or with one error. Only if
the second one may expand mixins more deeply can the first one stop before it, with the
error that says so.

From this follow two facts about style sheets. The limit for expansions is only a
threshold, and unused mixins make no difference.
-/

namespace Stylesheet

variable {cmp : Comparison} {sc sc' : Scope} {f g : Ruleset} {l l' : List Node}

/-- The second block is the first without unused definitions. -/
structure Block.TrimsTo (cmp : Comparison) (b c : Block) : Prop where
  head : c.head = b.head
  rules : Node.TrimsAll cmp b.rules c.rules

/-- The blocks are equally high, whatever the blocks are that they refer to. -/
def Block.Levels (b c : Block) : Prop :=
  ∀ tops, Node.heights tops c.rules = Node.heights tops b.rules

/-- The stores are alike: their free numbers go together, and blocks, paths and answers are the same
up to unused definitions. Blocks that are hidden have their heights in common, at least. -/
structure Store.TrimsTo (cmp : Comparison) (s t : Store) : Prop where
  next : cmp.Next s.nextSerial t.nextSerial
  meets : cmp.MeetsFrom t.nextSerial
  shows : ∀ index, s.blocks.length ≤ index → ¬cmp.hides index
  levels : List.Forall₂ Block.Levels s.blocks t.blocks
  blocks : ∀ index, ¬cmp.hides index →
    Option.Rel (Block.TrimsTo cmp) s.blocks[index]? t.blocks[index]?
  imported : t.imported = s.imported
  memo : ∀ serial key, cmp.meets serial → Option.Rel (List.Forall₂ (Candidate.TrimsTo cmp))
    (s.remembered? (cmp.number serial) key) (t.remembered? serial key)

/-- The scopes are alike, except that the second one has the limit of the second compilation. The
calls in the sources are among the queries. -/
structure Scope.TrimsTo (cmp : Comparison) (sc sc' : Scope) : Prop where
  frames : List.Forall₂ (Ruleset.TrimsTo cmp) sc.frames sc'.frames
  pending : sc'.pending = sc.pending
  importing : sc'.importing = sc.importing
  depth : sc'.depth = sc.depth
  strictImports : sc'.options.strictImports = sc.options.strictImports
  limit : sc.options.maxMixinDepth = cmp.limit
  limit' : sc'.options.maxMixinDepth = cmp.limit'
  sources : sc'.sources = sc.sources
  calls : ∀ table, sc.sources = some table → ∀ entry ∈ table,
    ∀ c ∈ Rule.allCalls entry.2, cmp.asks c.selector

section Rules

variable {α β : Type}

namespace Comparison

/-- From stores that are alike, the two steps lead to stores that are alike and to results with
`post`. -/
def Steps (cmp : Comparison) (x y : StateM Store α) (post : α → α → Prop) : Prop :=
  ∀ s t : Store, s.TrimsTo cmp t →
    (x.run s).2.TrimsTo cmp (y.run t).2 ∧ post (x.run s).1 (y.run t).1

/-- From stores that are alike, the two computations lead to stores that are alike and to results
with `post`, or fail with one error. Or else the second one may expand mixins more deeply, and
the first one fails since it may not. -/
def Runs (cmp : Comparison) (x y : CompileM α) (post : α → α → Prop) : Prop :=
  ∀ s t : Store, s.TrimsTo cmp t →
    (∃ a s' b t', x.run.run s = (.ok a, s') ∧ y.run.run t = (.ok b, t') ∧
      s'.TrimsTo cmp t' ∧ post a b) ∨
    (∃ e s' t', x.run.run s = (.error e, s') ∧ y.run.run t = (.error e, t')) ∨
    cmp.limit < cmp.limit' ∧
      ∃ selector span s', x.run.run s = (.error (.mixinRecursion selector cmp.limit span), s')

namespace Steps

variable {x y : StateM Store α} {post : α → α → Prop}

theorem pure {a b : α} (h : post a b) : cmp.Steps (Pure.pure a) (Pure.pure b) post :=
  fun _ _ hst => ⟨hst, h⟩

theorem bind {z w : α → StateM Store β} {post' : β → β → Prop} (hx : cmp.Steps x y post)
    (hz : ∀ a b, post a b → cmp.Steps (z a) (w b) post') :
    cmp.Steps (x >>= z) (y >>= w) post' := by
  intro s t hst
  obtain ⟨hst', hpost⟩ := hx s t hst
  exact hz _ _ hpost _ _ hst'

theorem get {z w : Store → StateM Store β} {post : β → β → Prop}
    (h : ∀ s t : Store, s.TrimsTo cmp t → cmp.Steps (z s) (w t) post) :
    cmp.Steps (MonadState.get >>= z) (MonadState.get >>= w) post :=
  fun s t hst => h s t hst s t hst

theorem modifyStore {f g : Store → Store}
    (h : ∀ s t : Store, s.TrimsTo cmp t → (f s).TrimsTo cmp (g t)) :
    cmp.Steps (modify f) (modify g) fun _ _ => True :=
  fun s t hst => ⟨h s t hst, trivial⟩

theorem record (e e' : Event) :
    cmp.Steps (Stylesheet.record e) (Stylesheet.record e') fun _ _ => True :=
  fun _ _ hst => ⟨{ hst with }, trivial⟩

theorem numbering {number number' : StateM Nat α} (h : cmp.Numbers number number' post) :
    cmp.Steps (Stylesheet.numbering number) (Stylesheet.numbering number') post := by
  intro s t hst
  obtain ⟨hnext, hmeets, hpost⟩ := h _ _ hst.next hst.meets
  exact ⟨{ hst with next := hnext, meets := hmeets }, hpost⟩

theorem build {header : Header} (source : Option Nat) {rules rules' : List Node}
    (hrules : Node.TrimsAll cmp rules rules') :
    cmp.Steps (Ruleset.build header rules (source.map cmp.number))
      (Ruleset.build header rules' source) (Ruleset.TrimsTo cmp) :=
  (numbering .fresh).bind fun _ _ hserial => .pure ⟨rfl, hserial.1, hserial.2, rfl, hrules⟩

theorem rebuild {rules rules' : List Node} (hframe : f.TrimsTo cmp g)
    (hrules : Node.TrimsAll cmp rules rules') :
    cmp.Steps (f.rebuild rules) (g.rebuild rules') (Ruleset.TrimsTo cmp) := by
  rw [Ruleset.rebuild, Ruleset.rebuild, hframe.header, hframe.source]
  exact build g.source hrules

theorem mapBlocks {f g : Block → StateM Store Block} {blocks blocks' : List Block}
    (hblocks : List.Forall₂ (Block.TrimsTo cmp) blocks blocks')
    (hf : ∀ b c, b.TrimsTo cmp c → cmp.Steps (f b) (g c) (Block.TrimsTo cmp)) :
    cmp.Steps (blocks.mapM f) (blocks'.mapM g) (List.Forall₂ (Block.TrimsTo cmp)) := by
  induction hblocks with
  | nil => exact .pure .nil
  | cons hb _ ih =>
    rw [List.mapM_cons, List.mapM_cons]
    exact (hf _ _ hb).bind fun _ _ hb' => ih.bind fun _ _ hbs => .pure (.cons hb' hbs)

end Steps

namespace Runs

variable {x y : CompileM α} {post : α → α → Prop}

theorem pure {a b : α} (h : post a b) : cmp.Runs (Pure.pure a) (Pure.pure b) post :=
  fun s t hst => .inl ⟨a, s, b, t, rfl, rfl, hst, h⟩

theorem throw (e : Error) :
    cmp.Runs (MonadExcept.throw e : CompileM α) (MonadExcept.throw e) post :=
  fun s t _ => .inr (.inl ⟨e, s, t, rfl, rfl⟩)

theorem bind {z w : α → CompileM β} {post' : β → β → Prop} (hx : cmp.Runs x y post)
    (hz : ∀ a b, post a b → cmp.Runs (z a) (w b) post') :
    cmp.Runs (x >>= z) (y >>= w) post' := by
  intro s t hst
  rcases hx s t hst with ⟨a, s', b, t', hx, hy, hst', hpost⟩ | ⟨e, s', t', hx, hy⟩ |
    ⟨hlt, selector, span, s', hx⟩
  · rw [run_bind_ok hx, run_bind_ok hy]
    exact hz a b hpost s' t' hst'
  · exact .inr (.inl ⟨e, s', t', run_bind_error hx, run_bind_error hy⟩)
  · exact .inr (.inr ⟨hlt, selector, span, s', run_bind_error hx⟩)

theorem get {z w : Store → CompileM β} {post : β → β → Prop}
    (h : ∀ s t : Store, s.TrimsTo cmp t → cmp.Runs (z s) (w t) post) :
    cmp.Runs (MonadState.get >>= z) (MonadState.get >>= w) post :=
  fun s t hst => h s t hst s t hst

theorem lift {x y : StateM Store α} (h : cmp.Steps x y post) :
    cmp.Runs (liftM x) (liftM y) post := by
  intro s t hst
  obtain ⟨hst', hpost⟩ := h s t hst
  exact .inl ⟨_, _, _, _, rfl, rfl, hst', hpost⟩

/-- A computation that does not use the store, and is the same on both sides. -/
theorem of_except {z w : Except Error α} (h : w = z) :
    cmp.Runs (ofExcept z) (ofExcept w) fun a b => b = a := by
  subst h
  cases w with
  | ok a => exact .pure rfl
  | error e => exact .throw e

end Runs

end Comparison

end Rules

section Lookups

theorem Store.TrimsTo.length_eq {s t : Store} (h : s.TrimsTo cmp t) :
    t.blocks.length = s.blocks.length := h.levels.length_eq.symm

/-- Answers that are alike are kept under numbers that go together. -/
theorem Store.TrimsTo.remember {s t : Store} (h : s.TrimsTo cmp t) (serial : Nat) (key : String)
    {found found' : List Candidate} (hfound : List.Forall₂ (Candidate.TrimsTo cmp) found found') :
    (s.remember (cmp.number serial) key found).TrimsTo cmp (t.remember serial key found') where
  next := h.next
  meets := h.meets
  shows := h.shows
  levels := h.levels
  blocks := h.blocks
  imported := h.imported
  memo := by
    intro serial' key' hmet
    unfold Store.remembered? Store.remember
    rw [List.lookup_cons, List.lookup_cons]
    have hkey : ((cmp.number serial', key') == (cmp.number serial, key)) =
        ((serial', key') == (serial, key)) := by
      rw [Bool.eq_iff_iff, beq_iff_eq, beq_iff_eq, Prod.mk.injEq, Prod.mk.injEq,
        cmp.injective.eq_iff]
    rw [hkey]
    cases (serial', key') == (serial, key) with
    | true => exact .some hfound
    | false => exact h.memo serial' key' hmet

theorem optionRel_getElem? {α : Type} {R : α → α → Prop} {l m : List α} (h : List.Forall₂ R l m)
    (index : Nat) : Option.Rel R l[index]? m[index]? := by
  induction h generalizing index with
  | nil => exact .none
  | cons h _ ih =>
    cases index with
    | zero => exact .some h
    | succ index => exact ih index

/-- Where no block is hidden from one on, the blocks from there on are alike. -/
theorem Store.TrimsTo.drop_blocks {s t : Store} (h : s.TrimsTo cmp t) {first : Nat}
    (hfirst : ∀ index, first ≤ index → ¬cmp.hides index) :
    List.Forall₂ (Block.TrimsTo cmp) (s.blocks.drop first) (t.blocks.drop first) := by
  refine List.forall₂_iff_get.2 ⟨by simp [h.length_eq], fun index hs ht => ?_⟩
  have hrel := h.blocks (first + index) (hfirst _ (Nat.le_add_right _ _))
  rw [List.length_drop] at hs ht
  rw [List.getElem?_eq_getElem (by omega), List.getElem?_eq_getElem (by omega)] at hrel
  cases hrel with
  | some hrel => simpa using hrel

theorem Block.TrimsTo.levels {b c : Block} (h : b.TrimsTo cmp c) : b.Levels c :=
  h.rules.heights_eq

/-- The stores are still alike after the blocks from a given one on were exchanged for blocks that
are alike. -/
theorem Store.TrimsTo.withBlocks {s t s' t' : Store} (h : s.TrimsTo cmp t)
    (h' : s'.TrimsTo cmp t') {first : Nat} (hfirst : ∀ index, first ≤ index → ¬cmp.hides index)
    {new new' : List Block} (hnew : List.Forall₂ (Block.TrimsTo cmp) new new') :
    Store.TrimsTo cmp { s' with blocks := s.blocks.take first ++ new }
      { t' with blocks := t.blocks.take first ++ new' } := by
  have hlevels : List.Forall₂ Block.Levels (s.blocks.take first) (t.blocks.take first) :=
    List.forall₂_take first h.levels
  have hlength := hlevels.length_eq
  refine { h' with shows := ?_, levels := ?_, blocks := ?_ }
  · intro index hindex
    by_cases hle : first ≤ index
    · exact hfirst index hle
    · refine h.shows index ?_
      simp only [List.length_append, List.length_take] at hindex
      omega
  · exact List.rel_append hlevels (hnew.imp fun _ _ hb => hb.levels)
  · intro index hindex
    by_cases hlt : index < (s.blocks.take first).length
    · have hindex' : index < first := by
        rw [List.length_take] at hlt
        omega
      rw [List.getElem?_append_left hlt, List.getElem?_append_left (hlength ▸ hlt),
        List.getElem?_take_of_lt hindex', List.getElem?_take_of_lt hindex']
      exact h.blocks index hindex
    · rw [List.getElem?_append_right (Nat.not_lt.1 hlt),
        List.getElem?_append_right (hlength ▸ Nat.not_lt.1 hlt), hlength]
      exact optionRel_getElem? hnew _

/-- A lookup in rulesets that are alike, which may have been answered before. -/
theorem steps_find {r r' : Ruleset} {query : Selector} (hserial : r.serial = cmp.number r'.serial)
    (hmet : cmp.meets r'.serial)
    (h : cmp.Steps (Node.findAll none query r.rules) (Node.findAll none query r'.rules)
      (List.Forall₂ (Candidate.TrimsTo cmp))) :
    cmp.Steps (r.find none query) (r'.find none query)
      (List.Forall₂ (Candidate.TrimsTo cmp)) := by
  obtain ⟨serial, source, header, rules⟩ := r
  obtain ⟨serial', source', header', rules'⟩ := r'
  obtain rfl : serial = cmp.number serial' := hserial
  rw [Ruleset.find, Ruleset.find]
  refine .get fun s t hst => ?_
  have hmemo := hst.memo serial' query.text hmet
  generalize s.remembered? (cmp.number serial') query.text = known at hmemo ⊢
  generalize t.remembered? serial' query.text = known' at hmemo ⊢
  cases hmemo with
  | some hfound => exact (Comparison.Steps.record _ _).bind fun _ _ _ => .pure hfound
  | none =>
    refine (Comparison.Steps.record _ _).bind fun _ _ _ => h.bind fun found found' hfound => ?_
    exact (Comparison.Steps.modifyStore fun s t hst => hst.remember serial' query.text hfound).bind
      fun _ _ _ => .pure hfound

theorem Aligned.findAll {R : Node → Node → Prop} {query : Selector} (hquery : cmp.asks query)
    (h : Aligned R (Node.Unused cmp) l l')
    (hR : ∀ a b, R a b → cmp.Steps (a.find none query) (b.find none query)
      (List.Forall₂ (Candidate.TrimsTo cmp))) :
    cmp.Steps (Node.findAll none query l) (Node.findAll none query l')
      (List.Forall₂ (Candidate.TrimsTo cmp)) := by
  induction h with
  | nil => exact .pure .nil
  | both h _ ih =>
    rw [Node.findAll, Node.findAll]
    exact (hR _ _ h).bind fun _ _ hfound => ih.bind fun _ _ hrest =>
      .pure (List.rel_append hfound hrest)
  | @spare n l l' h _ ih =>
    obtain ⟨-, d, rfl, hunused⟩ := h
    have hnone : Node.findAll none query (.definition d :: l) = Node.findAll none query l := by
      rw [Node.findAll, Node.find, hunused query hquery]
      rfl
    rw [hnone]
    exact ih

/-- Lookups in nodes that are alike find candidates that are alike. -/
theorem Node.TrimsTo.find {n m : Node} (h : n.TrimsTo cmp m) {query : Selector}
    (hquery : cmp.asks query) :
    cmp.Steps (n.find none query) (m.find none query) (List.Forall₂ (Candidate.TrimsTo cmp)) := by
  induction h generalizing query with
  | @ruleset r s R hR h ih =>
    have hnode : Node.TrimsTo cmp (.ruleset r) (.ruleset s) := .ruleset hR h
    rw [Node.find, Node.find, h.header, if_neg (by simp), if_neg (by simp)]
    split
    · exact .pure .nil
    next count _ =>
      split
      · have hrest := cmp.asks_rest count hquery
        exact steps_find h.serial h.met (h.rules.findAll hrest fun a b hab => ih a b hab hrest)
      · exact .pure (.cons hnode .nil)
  | @definition d e R hR hsignature hrules hclosure ih =>
    have hnode : Node.TrimsTo cmp (.definition d) (.definition e) :=
      .definition hR hsignature hrules hclosure
    rw [Node.find, Node.find, hsignature]
    split
    · exact .pure .nil
    next count _ =>
      split
      · have hrest := cmp.asks_rest count hquery
        obtain ⟨signature, rules, closure⟩ := d
        obtain ⟨signature', rules', closure'⟩ := e
        exact hrules.findAll hrest fun a b hab => ih a b hab hrest
      · exact .pure (.cons hnode .nil)
  | _ => exact .pure .nil

/-- Lookups in scopes that are alike. -/
theorem steps_mixin (hsc : sc.TrimsTo cmp sc') {query : Selector} (hquery : cmp.asks query) :
    cmp.Steps (sc.mixin query) (sc'.mixin query)
      (Option.Rel (List.Forall₂ (Candidate.TrimsTo cmp))) := by
  have hframes := hsc.frames
  unfold Scope.mixin
  generalize sc.frames = frames at hframes ⊢
  generalize sc'.frames = frames' at hframes ⊢
  induction hframes with
  | nil => exact .pure .none
  | cons hframe _ ih =>
    rw [findInFrames, findInFrames]
    refine (steps_find hframe.serial hframe.met
      (hframe.rules.findAll hquery fun a b hab => hab.find hquery)).bind
        fun found found' hfound => ?_
    rw [isEmpty_eq_of_forall₂ hfound]
    split
    · exact ih
    · exact .pure (.some hfound)

end Lookups

namespace Scope.TrimsTo

theorem enter (h : sc.TrimsTo cmp sc') (hframe : f.TrimsTo cmp g) (selectors : List Selector) :
    (sc.enter f selectors).TrimsTo cmp (sc'.enter g selectors) :=
  { h with frames := .cons hframe h.frames }

theorem importingPath (h : sc.TrimsTo cmp sc') (path : String) :
    Scope.TrimsTo cmp { sc with importing := path :: sc.importing }
      { sc' with importing := path :: sc'.importing } :=
  { h with importing := congrArg (path :: ·) h.importing }

theorem binding?_eq (h : sc.TrimsTo cmp sc') (name : String) :
    sc'.binding? name = sc.binding? name := by
  have hframes := h.frames
  unfold Scope.binding?
  generalize sc.frames = frames at hframes ⊢
  generalize sc'.frames = frames' at hframes ⊢
  induction hframes with
  | nil => rfl
  | cons hframe _ ih => rw [List.findSome?_cons, List.findSome?_cons, hframe.binding? name, ih]

theorem value_eq (h : sc.TrimsTo cmp sc') (v : Value) (span : Span) :
    sc'.value v span = sc.value v span :=
  Scope.value_congr h.binding?_eq h.pending v span

theorem selector_eq (h : sc.TrimsTo cmp sc') : sc'.selector = sc.selector := by
  have helement : sc'.element = sc.element := by
    funext e
    rw [Scope.element, Scope.element, Scope.interpolate, Scope.interpolate,
      Scope.lookup_congr h.binding?_eq h.pending]
  funext s
  rw [Scope.selector, Scope.selector, helement]

theorem declaration_eq (h : sc.TrimsTo cmp sc') (d : Declaration) :
    sc'.declaration d = sc.declaration d := by
  rw [Scope.declaration, Scope.declaration, h.value_eq]

theorem replacesImports_eq (h : sc.TrimsTo cmp sc') (header : Header) :
    sc'.replacesImports header = sc.replacesImports header := by
  rw [Scope.replacesImports, Scope.replacesImports, h.strictImports]

/-- A ruleset is being compiled on both sides or on none, since numbers tell rulesets apart. -/
theorem isCompiling_eq (h : sc.TrimsTo cmp sc') {r r' : Ruleset} (hr : r.TrimsTo cmp r') :
    sc'.isCompiling r' = sc.isCompiling r := by
  have hframes := h.frames
  unfold Scope.isCompiling
  generalize sc.frames = frames at hframes ⊢
  generalize sc'.frames = frames' at hframes ⊢
  induction hframes with
  | nil => rfl
  | @cons f g _ _ hframe _ ih =>
    have hserial : (f.serial == r.serial) = (g.serial == r'.serial) := by
      rw [hframe.serial, hr.serial, Bool.eq_iff_iff, beq_iff_eq, beq_iff_eq, cmp.injective.eq_iff]
    have hsource : (f.source == some r.serial) = (g.source == some r'.serial) := by
      rw [hframe.source, hr.serial, Bool.eq_iff_iff, beq_iff_eq, beq_iff_eq]
      exact (Option.map_injective cmp.injective).eq_iff (b := some r'.serial)
    rw [List.any_cons, List.any_cons, ih, hserial, hsource]

/-- With the same blocks around them, rules that are alike are nested equally deep. -/
theorem levels_eq (h : sc.TrimsTo cmp sc') {s t : Store} (hst : s.TrimsTo cmp t)
    (hrules : Node.TrimsAll cmp l l') : sc'.levels t l' = sc.levels s l := by
  have hblocks : t.blockHeights = s.blockHeights := by
    refine List.rel_foldl (R := fun b c => Block.Levels c b) (P := Eq) ?_ rfl hst.levels.flip
    rintro heights _ rfl b c hb
    dsimp only
    rw [hb]
  rw [Scope.levels, Scope.levels, Store.heights, Store.heights, hblocks, hrules.heights_eq,
    h.sources]

end Scope.TrimsTo

namespace Candidate.TrimsTo

variable {c c' : Candidate}

theorem selectors_eq (h : c.TrimsTo cmp c') : c'.selectors = c.selectors := by
  rcases h.cases with ⟨r, s, rfl, rfl, hr⟩ | ⟨d, e, rfl, rfl, hd⟩
  · exact congrArg Header.selectors hr.header
  · exact congrArg (fun s : Signature => [s.name]) hd.signature

theorem params_eq (h : c.TrimsTo cmp c') : c'.params = c.params := by
  rcases h.cases with ⟨r, s, rfl, rfl, hr⟩ | ⟨d, e, rfl, rfl, hd⟩
  · rfl
  · exact congrArg Signature.params hd.signature

theorem rules (h : c.TrimsTo cmp c') : Node.TrimsAll cmp c.rules c'.rules := by
  rcases h.cases with ⟨r, s, rfl, rfl, hr⟩ | ⟨d, e, rfl, rfl, hd⟩
  · exact hr.rules
  · exact hd.rules

theorem closure (h : c.TrimsTo cmp c') :
    List.Forall₂ (Ruleset.TrimsTo cmp) c.closure c'.closure := by
  rcases h.cases with ⟨r, s, rfl, rfl, -⟩ | ⟨⟨_, _, closure⟩, ⟨_, _, closure'⟩, rfl, rfl, hd⟩
  · exact .nil
  · have hclosure : Option.Rel (List.Forall₂ (Ruleset.TrimsTo cmp)) closure closure' := hd.closure
    cases hclosure with
    | none => exact .nil
    | some hframes => exact hframes

theorem bindings_eq (h : c.TrimsTo cmp c') (hsc : sc.TrimsTo cmp sc') (span : Span)
    (args : List Value) : c'.bindings sc' span args = c.bindings sc span args := by
  have hparams : ∀ params rest, c'.bindParams sc' span args params rest =
      c.bindParams sc span args params rest := by
    intro params
    induction params with
    | nil => exact fun _ => rfl
    | cons param params ih =>
      rintro (_ | ⟨arg, rest⟩)
      · rw [Candidate.bindParams, Candidate.bindParams, Candidate.name, Candidate.name,
          h.selectors_eq]
        simp only [hsc.value_eq, ih]
      · rw [Candidate.bindParams, Candidate.bindParams, ih]
  rw [Candidate.bindings, Candidate.bindings, hparams, h.params_eq]

theorem isEligible_eq (h : c.TrimsTo cmp c') (hsc : sc.TrimsTo cmp sc') (arity : Nat) :
    sc.isEligible arity c = sc'.isEligible arity c' := by
  have haccepts : c'.accepts arity = c.accepts arity := by
    rw [Candidate.accepts, Candidate.accepts, h.params_eq]
  unfold Scope.isEligible
  rw [haccepts]
  congr 1
  rcases h.cases with ⟨r, s, rfl, rfl, hr⟩ | ⟨d, e, rfl, rfl, -⟩
  · exact congrArg (!·) (hsc.isCompiling_eq hr).symm
  · rfl

end Candidate.TrimsTo

/-- Rulesets that are alike are compiled in lockstep, in scopes that are alike. -/
def Compiler.Runs (cmp : Comparison) (compile compile' : Compiler) : Prop :=
  ∀ sc sc' r r', sc.TrimsTo cmp sc' → r.TrimsTo cmp r' →
    cmp.Runs (compile sc r) (compile' sc' r') (Ruleset.TrimsTo cmp)

/-- Candidates that are alike are expanded in lockstep, in scopes that are alike. -/
def Expander.Runs (cmp : Comparison) (expand expand' : Expander) : Prop :=
  ∀ sc sc' call args c c', sc.TrimsTo cmp sc' → c.TrimsTo cmp c' →
    cmp.Runs (expand sc call args c) (expand' sc' call args c') (Node.TrimsAll cmp)

section Expansions

variable {compile compile' : Compiler} {expand expand' : Expander}

theorem runs_expandAll {z w : Candidate → CompileM (List Node)}
    {candidates candidates' : List Candidate}
    (h : List.Forall₂ (Candidate.TrimsTo cmp) candidates candidates')
    (hz : ∀ c c', c.TrimsTo cmp c' → cmp.Runs (z c) (w c') (Node.TrimsAll cmp)) :
    cmp.Runs (expandAll z candidates) (expandAll w candidates') (Node.TrimsAll cmp) := by
  induction h with
  | nil => exact .pure .nil
  | cons hc _ ih =>
    exact (hz _ _ hc).bind fun _ _ hl => ih.bind fun _ _ hl' => .pure (hl.append hl')

theorem runs_call (hexpand : expand.Runs cmp expand') (hsc : sc.TrimsTo cmp sc')
    {call : MixinCall} (hcall : cmp.asks call.selector) :
    cmp.Runs (call.compileWith expand sc) (call.compileWith expand' sc') (Node.TrimsAll cmp) := by
  have hargs : (call.args.mapM fun arg => sc'.value arg call.span) =
      call.args.mapM fun arg => sc.value arg call.span := by simp only [hsc.value_eq]
  refine (Comparison.Runs.of_except hargs).bind ?_
  rintro _ args rfl
  refine (Comparison.Runs.lift (steps_mixin hsc hcall)).bind fun found found' hfound => ?_
  cases hfound with
  | none => exact .throw _
  | @some candidates candidates' hcandidates =>
    have heligible : List.Forall₂ (Candidate.TrimsTo cmp)
        (candidates.filter (sc.isEligible args.length))
        (candidates'.filter (sc'.isEligible args.length)) := by
      refine List.rel_filter (fun c c' hc => ?_) hcandidates
      dsimp only
      rw [hc.isEligible_eq hsc]
    dsimp only
    rw [isEmpty_eq_of_forall₂ heligible]
    split
    · exact .throw _
    · refine (runs_expandAll heligible fun c c' hc => hexpand sc sc' call args c c' hsc hc).bind
        fun l l' hl => ?_
      exact (Comparison.Runs.lift (.record _ _)).bind fun _ _ _ => .pure hl

/-- What an expansion leaves is still alike after it was marked as important. -/
theorem steps_markImportant {first : Nat} (hfirst : ∀ index, first ≤ index → ¬cmp.hides index)
    (h : Node.TrimsAll cmp l l') :
    cmp.Steps (markImportant first l) (markImportant first l') (Node.TrimsAll cmp) := by
  refine (Comparison.Steps.numbering h.renewAll).bind fun l l' hl => ?_
  refine .get fun s t hst => ?_
  refine (Comparison.Steps.mapBlocks (hst.drop_blocks hfirst) fun b c hb => ?_).bind
    fun blocks blocks' hblocks => ?_
  · have hrenew : cmp.Steps b.renew c.renew (Block.TrimsTo cmp) :=
      (Comparison.Steps.numbering hb.rules.renewAll).bind fun _ _ hrules => .pure ⟨hb.head, hrules⟩
    exact hrenew.bind fun b c hb => .pure ⟨hb.head, hb.rules.markAllImportant⟩
  · refine (Comparison.Steps.modifyStore fun s t hst => ?_).bind fun _ _ _ =>
      .pure hl.markAllImportant
    exact hst.withBlocks hst hfirst hblocks

theorem Scope.TrimsTo.inBody (h : sc.TrimsTo cmp sc') {c c' : Candidate}
    (hc : c.TrimsTo cmp c') (hparams : f.TrimsTo cmp g) :
    (sc.inBody f c).TrimsTo cmp (sc'.inBody g c') :=
  { h with
    frames := .cons hparams (List.rel_append hc.closure h.frames)
    depth := congrArg (· + 1) h.depth }

theorem runs_ofCompiler (hcompile : compile.Runs cmp compile') :
    (Expander.ofCompiler compile).Runs cmp (Expander.ofCompiler compile') := by
  intro sc sc' call args c c' hsc hc
  refine (Comparison.Runs.lift (.record _ _)).bind fun _ _ _ => ?_
  refine (Comparison.Runs.of_except (hc.bindings_eq hsc call.span args)).bind ?_
  rintro _ bindings rfl
  refine (Comparison.Runs.lift (.build none (Node.trimsAll_declarations bindings))).bind
    fun params params' hparams => ?_
  refine (Comparison.Runs.lift (.build none hc.rules)).bind fun body body' hbody => ?_
  refine .get fun s t hst => ?_
  refine (hcompile (sc.inBody params c) (sc'.inBody params' c') body body'
    (hsc.inBody hc hparams) hbody).bind fun compiled compiled' h => ?_
  rw [hst.length_eq]
  split
  · exact .lift (steps_markImportant hst.shows h.rules)
  · exact .pure h.rules

end Expansions

section Imports

theorem runs_replaceImports {replace replace' : Import → CompileM (List Node)}
    (hreplace : ∀ i, cmp.Runs (replace i) (replace' i) (Node.TrimsAll cmp))
    (h : Node.TrimsAll cmp l l') :
    cmp.Runs (replaceImports replace l) (replaceImports replace' l') (Node.TrimsAll cmp) := by
  induction h with
  | nil => exact .pure .nil
  | @both n m l l' hn _ ih =>
    have hkept : cmp.Runs (do return n :: (← replaceImports replace l))
        (do return m :: (← replaceImports replace' l')) (Node.TrimsAll cmp) :=
      ih.bind fun _ _ hl => .pure (.both hn hl)
    cases hn with
    | inclusion i =>
      exact (hreplace i).bind fun _ _ hl => ih.bind fun _ _ hl' => .pure (hl.append hl')
    | _ => exact hkept
  | spare hn _ ih =>
    obtain ⟨htrims, d, rfl, hd⟩ := hn
    rw [← bind_pure (replaceImports replace' _)]
    exact ih.bind fun _ _ hl => .pure (.spare ⟨htrims, d, rfl, hd⟩ hl)

/-- A source is handed out on both sides or on none. -/
theorem steps_load {path : String} {rules : List Rule}
    (hcalls : ∀ c ∈ Rule.allCalls rules, cmp.asks c.selector) :
    cmp.Steps (load path rules) (load path rules) (Option.Rel (Node.TrimsAll cmp)) := by
  have hnumbers : cmp.Numbers (Node.ofRules rules) (Node.ofRules rules) (Node.TrimsAll cmp) := by
    intro a b hnext hmeets
    rw [Node.next_ofRules, Node.next_ofRules]
    exact ⟨hnext.add _, fun n hn => hmeets n (Nat.le_of_add_right_le hn),
      Node.trimsAll_ofRules_from rules hcalls a b hmeets fun k _ => hnext k⟩
  refine .get fun s t hst => ?_
  rw [hst.imported]
  split
  · exact (Comparison.Steps.record _ _).bind fun _ _ _ => .pure .none
  · refine (Comparison.Steps.modifyStore fun s t hst => ?_).bind fun _ _ _ => ?_
    · exact { hst with imported := congrArg (path :: ·) hst.imported }
    · refine (Comparison.Steps.numbering hnumbers).bind fun l l' hl => ?_
      exact (Comparison.Steps.record _ _).bind fun _ _ _ => .pure (.some hl)

theorem runs_importCompile (hsc : sc.TrimsTo cmp sc') (i : Import) :
    cmp.Runs (i.compile sc) (i.compile sc') (Node.TrimsAll cmp) := by
  induction sc, i using Import.compile.induct generalizing sc' with
  | case1 sc i hcss =>
    rw [Import.compile_of_css hcss, Import.compile_of_css hcss]
    exact .pure (Node.TrimsAll.single (.inclusion i))
  | case2 sc i hcss hi =>
    rw [Import.compile_of_importing hcss hi,
      Import.compile_of_importing hcss (hsc.importing ▸ hi)]
    exact .throw _
  | case3 sc i hcss hi hs =>
    rw [Import.compile_of_no_sources hcss hi hs,
      Import.compile_of_no_sources hcss (hsc.importing ▸ hi) (hsc.sources.trans hs)]
    exact .pure (Node.TrimsAll.single (.inclusion i))
  | case4 sc i hcss hi sources hs hlookup =>
    rw [Import.compile_of_not_found hcss hi hs hlookup,
      Import.compile_of_not_found hcss (hsc.importing ▸ hi) (hsc.sources.trans hs) hlookup]
    exact .throw _
  | case5 sc i hcss hi sources hs rules hlookup ih =>
    rw [Import.compile_of_found hcss hi hs hlookup,
      Import.compile_of_found hcss (hsc.importing ▸ hi) (hsc.sources.trans hs) hlookup]
    have hmem : (i.path, rules) ∈ sources := by
      obtain ⟨before, after, rfl, -⟩ := List.lookup_eq_some_iff.1 hlookup
      simp
    refine (Comparison.Runs.lift (steps_load (hsc.calls sources hs _ hmem))).bind
      fun found found' hfound => ?_
    cases hfound with
    | none => exact .pure .nil
    | some hnodes => exact runs_replaceImports (fun j => ih j (hsc.importingPath i.path)) hnodes

end Imports

section Slots

variable {compile compile' : Compiler} {expand expand' : Expander}

/-- The slots are of one kind, and their nodes are alike. -/
inductive Slot.TrimsTo (cmp : Comparison) : Slot → Slot → Prop
  | expanded {n m : Node} (h : n.TrimsTo cmp m) : TrimsTo cmp (.expanded n) (.expanded m)
  | own {n m : Node} (h : n.TrimsTo cmp m) : TrimsTo cmp (.own n) (.own m)

/-- The slots are alike, up to unused definitions. -/
def Slot.TrimsAll (cmp : Comparison) : List Slot → List Slot → Prop :=
  Aligned (Slot.TrimsTo cmp) fun slot => slot.node.Unused cmp

theorem Slot.TrimsAll.map_node {slots slots' : List Slot} (h : Slot.TrimsAll cmp slots slots') :
    Node.TrimsAll cmp (slots.map Slot.node) (slots'.map Slot.node) := by
  refine Aligned.map h ?_ fun _ hn => hn
  rintro _ _ (⟨hn⟩ | ⟨hn⟩)
  · exact hn
  · exact hn

theorem admits_eq_of_trimsTo {n m : Node} (hframe : f.TrimsTo cmp g) (hn : n.TrimsTo cmp m) :
    f.admits n = g.admits m := by
  cases hn with
  | declaration d => rw [Ruleset.admits, Ruleset.admits, hframe.binding?]
  | _ => rfl

theorem runs_expandCalls (hexpand : expand.Runs cmp expand') {inside inside' : Ruleset → Scope}
    (hinside : ∀ f g, f.TrimsTo cmp g → (inside f).TrimsTo cmp (inside' g))
    (hnodes : Node.TrimsAll cmp l l') (hframe : f.TrimsTo cmp g) {done done' : List Slot}
    (hdone : Slot.TrimsAll cmp done done') :
    cmp.Runs (expandCalls expand inside f done l) (expandCalls expand' inside' g done' l')
      fun a b => a.1.TrimsTo cmp b.1 ∧ Slot.TrimsAll cmp a.2 b.2 := by
  induction hnodes generalizing f g done done' with
  | nil => exact .pure ⟨hframe, hdone⟩
  | spare hn _ ih =>
    obtain ⟨htrims, d, rfl, hd⟩ := hn
    have hmore := hdone.append (.spare (a := .own (.definition d)) ⟨htrims, d, rfl, hd⟩ .nil)
    rw [List.append_nil] at hmore
    exact ih hframe hmore
  | @both n m l l' hn hrest ih =>
    have hown : cmp.Runs (expandCalls expand inside f (done ++ [.own n]) l)
        (expandCalls expand' inside' g (done' ++ [.own m]) l')
        fun a b => a.1.TrimsTo cmp b.1 ∧ Slot.TrimsAll cmp a.2 b.2 :=
      ih hframe (hdone.append (.both (.own hn) .nil))
    cases hn with
    | @call c hc =>
      refine (runs_call hexpand (hinside f g hframe) hc).bind fun results results' hresults => ?_
      have hkept : Node.TrimsAll cmp (results.filter f.admits) (results'.filter g.admits) :=
        hresults.filter fun a b hab => admits_eq_of_trimsTo hframe hab
      refine (Comparison.Runs.lift
        (.rebuild hframe ((hdone.map_node.append hkept).append hrest))).bind
          fun f' g' hframe' => ?_
      refine ih hframe' (hdone.append ?_)
      exact Aligned.map hkept (fun _ _ h => .expanded h) fun _ h => h
    | _ => exact hown

theorem runs_compileBody (hcompile : compile.Runs cmp compile') (hsc : sc.TrimsTo cmp sc')
    (hrules : Node.TrimsAll cmp l l') :
    cmp.Runs (compileBody compile sc l) (compileBody compile' sc' l') (Node.TrimsAll cmp) := by
  refine (Comparison.Runs.lift (.build none hrules)).bind fun body body' hbody => ?_
  exact (hcompile sc sc' body body' hsc hbody).bind fun _ _ h => .pure h.rules

theorem runs_compileMedia (hcompile : compile.Runs cmp compile') (hsc : sc.TrimsTo cmp sc')
    (head : MediaHead) (hrules : Node.TrimsAll cmp l l') :
    cmp.Runs (compileMedia compile sc head l) (compileMedia compile' sc' head l')
      (Node.TrimsTo cmp) := by
  refine (runs_compileBody hcompile hsc hrules).bind fun l l' hl => ?_
  intro s t hst
  refine .inl ⟨_, _, _, _, rfl, rfl, ?_, ?_⟩
  · have hnew := hst.withBlocks hst hst.shows
      (.cons (a := ⟨head, l⟩) (b := ⟨head, l'⟩) ⟨rfl, hl⟩ .nil)
    rwa [List.take_length, ← hst.length_eq, List.take_length] at hnew
  · rw [hst.length_eq]
    exact .block (hst.shows _ (Nat.le_refl _))

theorem runs_node (hcompile : compile.Runs cmp compile') (hsc : sc.TrimsTo cmp sc') {n m : Node}
    (hn : n.TrimsTo cmp m) :
    cmp.Runs (n.compileWith compile sc) (m.compileWith compile' sc') (Node.TrimsTo cmp) := by
  cases hn with
  | declaration d =>
    refine (Comparison.Runs.of_except (hsc.declaration_eq d)).bind ?_
    rintro _ d' rfl
    exact .pure (.declaration d')
  | ruleset hR h =>
    exact (hcompile sc sc' _ _ hsc (h.mono hR)).bind fun _ _ h => .pure h.node
  | media hR hrules => exact runs_compileMedia hcompile hsc _ (hrules.mono hR fun _ h => h)
  | @block index hindex =>
    refine .get fun s t hst => ?_
    have hrel := hst.blocks index hindex
    generalize s.blocks[index]? = b at hrel ⊢
    generalize t.blocks[index]? = b' at hrel ⊢
    cases hrel with
    | none => exact .pure (.block hindex)
    | some hblock =>
      dsimp only
      rw [hblock.head]
      exact runs_compileMedia hcompile hsc _ hblock.rules
  | directive head => exact .pure (.directive head)
  | directiveBlock hR hrules =>
    exact (runs_compileBody hcompile hsc (hrules.mono hR fun _ h => h)).bind
      fun _ _ hl => .pure (.directiveBlock (fun _ _ h => h) hl)
  | call h => exact .throw _
  | definition hR hsignature hrules hclosure =>
    exact .pure (.definition hR hsignature hrules hclosure)
  | inclusion i => exact .pure (.inclusion i)
  | comment c => exact .pure (.comment c)

theorem runs_compileSlots (hcompile : compile.Runs cmp compile')
    {inside inside' : Ruleset → Scope}
    (hinside : ∀ f g, f.TrimsTo cmp g → (inside f).TrimsTo cmp (inside' g))
    {slots slots' : List Slot} (hslots : Slot.TrimsAll cmp slots slots')
    (hframe : f.TrimsTo cmp g) {done done' : List Node} (hdone : Node.TrimsAll cmp done done') :
    cmp.Runs (compileSlots (Node.compileWith compile) inside f done slots)
      (compileSlots (Node.compileWith compile') inside' g done' slots')
      fun a b => a.1.TrimsTo cmp b.1 ∧ Node.TrimsAll cmp a.2 b.2 := by
  induction hslots generalizing f g done done' with
  | nil => exact .pure ⟨hframe, hdone⟩
  | @spare slot slots slots' hn _ ih =>
    obtain ⟨htrims, d, hd, hunused⟩ := hn
    have hmore := hdone.append (.spare ⟨htrims, d, rfl, hunused⟩ .nil)
    rw [List.append_nil] at hmore
    cases slot with
    | expanded n =>
      obtain rfl : n = .definition d := hd
      exact ih hframe hmore
    | own n =>
      obtain rfl : n = .definition d := hd
      exact ih hframe hmore
  | both hslot hrest ih =>
    cases hslot with
    | expanded hn => exact ih hframe (hdone.append (Node.TrimsAll.single hn))
    | @own n m hn =>
      by_cases hdefinition : ∃ d, n = .definition d
      · obtain ⟨d, rfl⟩ := hdefinition
        cases hn with
        | definition hR hsignature hrules hclosure =>
          have hsame := Node.TrimsAll.single (.definition hR hsignature hrules hclosure)
          exact ih hframe (hdone.append hsame)
      · have hother : ∀ d, n ≠ .definition d := fun d hd => hdefinition ⟨d, hd⟩
        have hother' : ∀ d, m ≠ .definition d := by
          rintro d rfl
          cases hn with
          | definition => exact hother _ rfl
        rw [compileSlots_own hother, compileSlots_own hother']
        refine (runs_node hcompile (hinside f g hframe) hn).bind fun n m hn => ?_
        have hmore := hdone.append (Node.TrimsAll.single hn)
        cases hn with
        | ruleset hR h =>
          have hrules := hmore.append (Slot.TrimsAll.map_node hrest)
          exact (Comparison.Runs.lift (.rebuild hframe hrules)).bind
            fun _ _ hframe' => ih hframe' hmore
        | _ => exact ih hframe hmore

end Slots

section Rulesets

variable {compile compile' : Compiler} {expand expand' : Expander}

/-- Blocks that are alike still are after they were wrapped in selectors. -/
theorem steps_bubble (selectors : List Selector) {first : Nat}
    (hfirst : ∀ index, first ≤ index → ¬cmp.hides index) :
    cmp.Steps (bubble selectors first) (bubble selectors first) fun _ _ => True := by
  refine .get fun s t hst => ?_
  dsimp only
  rw [hst.length_eq]
  split
  · exact .pure trivial
  · refine (Comparison.Steps.record _ _).bind fun _ _ _ => ?_
    refine (Comparison.Steps.mapBlocks (hst.drop_blocks hfirst) fun b c hb => ?_).bind
      fun wrapped wrapped' hwrapped => .modifyStore fun s' t' hst' => ?_
    · exact (Comparison.Steps.build none hb.rules).bind fun _ _ hr =>
        .pure ⟨hb.head, .single (Ruleset.TrimsTo.node hr)⟩
    · exact hst.withBlocks hst' hfirst hwrapped

/-- The frame of a ruleset before its definitions take hold of the frames around them. -/
theorem runs_homeFrame (hsc : sc.TrimsTo cmp sc') {r r' : Ruleset} (hr : r.TrimsTo cmp r')
    (selectors : List Selector) :
    cmp.Runs (r.homeFrame sc selectors) (r'.homeFrame sc' selectors) (Ruleset.TrimsTo cmp) := by
  rw [Ruleset.homeFrame, Ruleset.homeFrame, hr.header, hr.serial]
  refine (Comparison.Runs.lift (.build (some r'.serial) hr.rules)).bind
    fun frame frame' hframe => ?_
  rw [hsc.replacesImports_eq]
  split
  · refine (runs_replaceImports (fun i => runs_importCompile (hsc.enter hframe selectors) i)
      hframe.rules).bind fun _ _ hrules => .lift (.rebuild hframe hrules)
  · exact .pure hframe

theorem runs_compileWith (hexpand : expand.Runs cmp expand')
    (hcompile : compile.Runs cmp compile') :
    Compiler.Runs cmp (Ruleset.compileWith expand compile)
      (Ruleset.compileWith expand' compile') := by
  intro sc sc' r r' hsc hr
  rw [Ruleset.compileWith_eq, Ruleset.compileWith_eq]
  have hselectors : r'.header.selectors.mapM sc'.selector =
      r.header.selectors.mapM sc.selector := by rw [hr.header, hsc.selector_eq]
  refine (Comparison.Runs.of_except hselectors).bind ?_
  rintro _ selectors rfl
  have hinside : ∀ f g, f.TrimsTo cmp g →
      (sc.enter f selectors).TrimsTo cmp (sc'.enter g selectors) :=
    fun f g h => hsc.enter h selectors
  refine (Comparison.Runs.lift (.record _ _)).bind fun _ _ _ => ?_
  refine (runs_homeFrame hsc hr selectors).bind fun home home' hhome => ?_
  refine (Comparison.Runs.lift (.rebuild hhome
    (Node.TrimsAll.captureFrames (.cons hhome hsc.frames) hhome.rules))).bind
      fun frame frame' hframe => ?_
  refine .get fun s t hst => ?_
  rw [hst.length_eq]
  refine (runs_expandCalls hexpand hinside hframe.rules hframe .nil).bind ?_
  rintro ⟨filled, slots⟩ ⟨filled', slots'⟩ ⟨hfilled, hslots⟩
  refine (runs_compileSlots hcompile hinside hslots hfilled .nil).bind ?_
  rintro ⟨last, rules⟩ ⟨last', rules'⟩ ⟨hlast, hrules⟩
  refine (Comparison.Runs.lift (steps_bubble selectors hst.shows)).bind fun _ _ _ =>
    .lift (.rebuild hlast hrules)

theorem runs_compiler (hexpand : expand.Runs cmp expand') :
    expand.compiler.Runs cmp expand'.compiler := by
  have hnested : ∀ levels, Compiler.Runs cmp (expand.nested levels) (expand'.nested levels) := by
    intro levels
    induction levels with
    | zero => exact fun sc sc' r r' _ _ => .throw _
    | succ levels ih => exact runs_compileWith hexpand ih
  intro sc sc' r r' hsc hr
  refine .get fun s t hst => ?_
  rw [hsc.levels_eq hst hr.rules]
  exact hnested _ sc sc' r r' hsc hr

/-- A greater budget makes a difference only where the smaller one is used up. -/
theorem runs_upTo {budget budget' : Nat} (hle : budget ≤ budget')
    (heq : cmp.limit = cmp.limit' → budget = budget') :
    (Expander.upTo budget).Runs cmp (Expander.upTo budget') := by
  induction budget generalizing budget' with
  | zero =>
    intro sc sc' call args c c' hsc _
    rcases Nat.lt_or_eq_of_le cmp.limit_le with hlt | hsame
    · intro s t _
      refine .inr (.inr ⟨hlt, call.selector.text, call.span, s, ?_⟩)
      rw [← hsc.limit]
      rfl
    · obtain rfl := heq hsame
      rw [Expander.upTo, Expander.refuse, Expander.refuse, hsc.limit, hsc.limit', hsame]
      exact .throw _
  | succ budget ih =>
    obtain ⟨budget', rfl⟩ : ∃ k, budget' = k + 1 := ⟨budget' - 1, by omega⟩
    exact runs_ofCompiler (runs_compiler (ih (Nat.le_of_succ_le_succ hle)
      fun hsame => Nat.succ.inj (heq hsame)))

theorem runs_compile (hsc : sc.TrimsTo cmp sc') {r r' : Ruleset} (hr : r.TrimsTo cmp r') :
    cmp.Runs (r.compile sc) (r'.compile sc') (Ruleset.TrimsTo cmp) := by
  refine runs_compiler (runs_upTo ?_ fun hsame => ?_) sc sc' r r' hsc hr
  · rw [Scope.budget, Scope.budget, hsc.limit, hsc.limit', hsc.depth]
    exact Nat.sub_le_sub_right cmp.limit_le _
  · rw [Scope.budget, Scope.budget, hsc.limit, hsc.limit', hsc.depth, hsame]

end Rulesets

section Texts

variable {rules rules' : List Rule} {sources : Option Sources}

/-- Documents that are alike have one text. -/
theorem Store.TrimsTo.finish_eq [cmp.Total] {s t : Store} (h : s.TrimsTo cmp t)
    (hrules : Node.TrimsAll cmp l l') (compact : Bool) :
    finish compact l' t.blocks = finish compact l s.blocks := by
  have hall : List.Forall₂ (Block.TrimsTo cmp) (s.blocks.drop 0) (t.blocks.drop 0) :=
    h.drop_blocks fun index _ => Comparison.Total.shows index
  have hblocks : t.blocks.map Block.bare = s.blocks.map Block.bare := by
    refine map_eq_map_of_forall₂ (hall.imp fun b c hb => ?_)
    rw [Block.bare, Block.bare, hb.head, hb.rules.bareAll_eq]
  rw [← finish_bare l', ← finish_bare l, hrules.bareAll_eq, hblocks]

/-- A style sheet is numbered and compiled, and then its selectors are joined and it is printed. -/
theorem compileToCss_eq (rules : List Rule) (options : Options) (sources : Option Sources) :
    compileToCss rules options sources = (((do
      let root ← Ruleset.document ((Node.ofRules rules).run 0).1
      root.compile { options, sources } : CompileM Ruleset) >>= fun compiled => do
        record .joining
        let joined ← compiled.join
        return (← get).css options.compress joined).run.run ((numberRules rules).run {}).2).1 := by
  simp only [compileToCss, compileDocument, compileTree, bind_assoc, List.isEmpty_nil, if_true]
  rfl

/-- Two style sheets that are numbered alike have one text or one error, unless the first one is
stopped by its limit for expansions. -/
theorem compileToCss_of_trims [cmp.Total] (options options' : Options)
    (hcompress : options'.compress = options.compress)
    (hstrict : options'.strictImports = options.strictImports)
    (hlimit : options.maxMixinDepth = cmp.limit) (hlimit' : options'.maxMixinDepth = cmp.limit')
    (hcalls : ∀ table, sources = some table → ∀ entry ∈ table,
      ∀ c ∈ Rule.allCalls entry.2, cmp.asks c.selector)
    (hnext : cmp.Next (Rule.allRulesets rules) (Rule.allRulesets rules'))
    (hrules : Node.TrimsAll cmp ((Node.ofRules rules).run 0).1 ((Node.ofRules rules').run 0).1) :
    compileToCss rules' options' sources = compileToCss rules options sources ∨
      cmp.limit < cmp.limit' ∧ ∃ selector span,
        compileToCss rules options sources = .error (.mixinRecursion selector cmp.limit span) := by
  have hstart : Store.TrimsTo cmp ((numberRules rules).run {}).2
      ((numberRules rules').run {}).2 := by
    refine ⟨?_, fun n _ => Comparison.Total.meets n, fun index _ => Comparison.Total.shows index,
      .nil, fun _ _ => .none, rfl, fun _ _ _ => .none⟩
    change cmp.Next ((Node.ofRules rules).run 0).2 ((Node.ofRules rules').run 0).2
    rwa [Node.next_ofRules, Node.next_ofRules, Nat.zero_add, Nat.zero_add]
  have hsc : Scope.TrimsTo cmp { options, sources } { options := options', sources } :=
    ⟨.nil, rfl, rfl, rfl, hstrict, hlimit, hlimit', rfl, hcalls⟩
  have hcompile : cmp.Runs
      (do
        let root ← Ruleset.document ((Node.ofRules rules).run 0).1
        root.compile { options, sources })
      (do
        let root ← Ruleset.document ((Node.ofRules rules').run 0).1
        root.compile { options := options', sources }) (Ruleset.TrimsTo cmp) :=
    (Comparison.Runs.lift (.build none hrules)).bind fun _ _ hroot => runs_compile hsc hroot
  rw [compileToCss_eq, compileToCss_eq]
  rcases hcompile _ _ hstart with ⟨a, s, b, t, hx, hy, hst, hab⟩ | ⟨e, s, t, hx, hy⟩ |
    ⟨hlt, selector, span, s, hx⟩
  · rw [run_bind_ok hx, run_bind_ok hy, run_join_css (header_compile_document rfl hx),
      run_join_css (header_compile_document rfl hy), hcompress]
    exact .inl (hst.finish_eq hab.rules options.compress)
  · rw [run_bind_error hx, run_bind_error hy]
    exact .inl rfl
  · rw [run_bind_error hx]
    exact .inr ⟨hlt, selector, span, rfl⟩

/-- Two compilations of one style sheet, with two limits for expansions. -/
def Comparison.ofLimits {limit limit' : Nat} (h : limit ≤ limit') : Comparison where
  asks _ := True
  asks_rest _ _ := trivial
  number := id
  injective := Function.injective_id
  limit := limit
  limit' := limit'
  limit_le := h

instance {limit limit' : Nat} (h : limit ≤ limit') : (Comparison.ofLimits h).Total :=
  ⟨fun _ => trivial, fun _ h => h⟩

/-- The limit for expansions is only a threshold. A style sheet that it does not stop has the same
text, or fails with the same error, under every greater limit. -/
theorem compileToCss_eq_of_limit_le {limit limit' : Nat} (hle : limit ≤ limit')
    (rules : List Rule) (options : Options) (sources : Option Sources)
    (hresult : ∀ selector bound span,
      compileToCss rules { options with maxMixinDepth := limit } sources ≠
        .error (.mixinRecursion selector bound span)) :
    compileToCss rules { options with maxMixinDepth := limit' } sources =
      compileToCss rules { options with maxMixinDepth := limit } sources := by
  have hrules : Node.TrimsAll (.ofLimits hle) ((Node.ofRules rules).run 0).1
      ((Node.ofRules rules).run 0).1 :=
    Node.trimsAll_ofRules rules (fun _ _ => trivial) 0 0 fun _ _ => rfl
  obtain hsame | ⟨-, selector, span, hstopped⟩ := compileToCss_of_trims
    { options with maxMixinDepth := limit } { options with maxMixinDepth := limit' } rfl rfl rfl rfl
    (fun _ _ _ _ _ _ => trivial) (fun _ => rfl) hrules
  · exact hsame
  · exact absurd hstopped (hresult selector limit span)

/-- A mixin that uses another one is stopped by a limit of one expansion, and by no greater one. -/
theorem compileToCss_eq_of_limit_le_nested_mixins :
    let selector (name : String) : Selector := { elements := [{ value := name }] }
    let rules : List Rule := [
      .definition { name := selector ".inner" }
        [.declaration { name := "top", value := .read "0" }],
      .definition { name := selector ".outer" } [.call { selector := selector ".inner" }],
      .ruleset { selectors := [selector ".a"] } [.call { selector := selector ".outer" }]]
    compileToCss rules { maxMixinDepth := 1 } none =
        .error (.mixinRecursion ".inner" 1 .unknown) ∧
      ∀ limit, 2 ≤ limit →
        compileToCss rules { maxMixinDepth := limit } none = .ok ".a \x7b\n  top: 0;\n\x7d" := by
  intro selector rules
  have htext : compileToCss rules { maxMixinDepth := 2 } none = .ok ".a \x7b\n  top: 0;\n\x7d" := by
    decide +kernel
  refine ⟨by decide +kernel, fun limit hlimit => ?_⟩
  rw [← htext]
  refine compileToCss_eq_of_limit_le hlimit rules {} none fun selector bound span herror => ?_
  cases htext.symm.trans herror

end Texts

end Stylesheet
