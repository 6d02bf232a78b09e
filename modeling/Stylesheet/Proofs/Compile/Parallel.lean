import Stylesheet.Proofs.Compile.Twin

/-!
# Two compilations in parallel

Two computations of the compiler run side by side, from stores that correspond. Either
both fail with the same error, or both end with results and stores that correspond. The
rules below take such a pair apart at its steps, as the rules for contracts do with one
computation, and let the pairing of numbers grow from step to step. At the start of a
document, no path is imported yet.
-/

namespace Stylesheet

variable {queries : Queries} {p q : Pairing}

/-- The blocks have one head and rules that correspond. -/
structure Block.Twin (queries : Queries) (p : Pairing) (b c : Block) : Prop where
  head : c.head = b.head
  rules : Node.TwinAll queries p b.rules c.rules

theorem Block.Twin.grow {b c : Block} (h : b.Twin queries p c) (hle : p ≤ q) :
    b.Twin queries q c := ⟨h.head, h.rules.grow hle⟩

/-- The stores correspond: they have given out the numbers of the pairing, their blocks correspond,
and the answers kept in each are right. -/
structure Store.Twin (queries : Queries) (p : Pairing) (s t : Store) : Prop where
  left : s.nextSerial = p.left.length
  right : t.nextSerial = p.right.length
  blocks : List.Forall₂ (Block.Twin queries p) s.blocks t.blocks
  imported : t.imported = s.imported
  remembersLeft : s.Remembers (p.left[·]?)
  remembersRight : t.Remembers (p.right[·]?)

theorem Store.Remembers.grow {ledger ledger' : List (List Node)} {s : Store}
    (h : s.Remembers (ledger[·]?)) (hle : ledger <+: ledger') : s.Remembers (ledger'[·]?) := by
  intro serial key found hfound
  obtain ⟨rules, hrules, hright⟩ := h serial key found hfound
  exact ⟨rules, Ruleset.Filed.mono (r := ⟨serial, none, {}, rules⟩) hle hrules, hright⟩

namespace Store.Twin

variable {s s' t t' : Store}

theorem length_eq (h : s.Twin queries p t) : t.blocks.length = s.blocks.length :=
  h.blocks.length_eq.symm

/-- The stores go on to correspond while numbers are given out and events are recorded. -/
theorem later (h : s.Twin queries p t) (hle : p ≤ q) (hs : s.Quiet s') (ht : t.Quiet t')
    (hleft : s'.nextSerial = q.left.length) (hright : t'.nextSerial = q.right.length) :
    s'.Twin queries q t' where
  left := hleft
  right := hright
  blocks := by
    rw [hs.blocks, ht.blocks]
    exact h.blocks.imp fun _ _ h => h.grow hle
  imported := by rw [hs.imported, ht.imported, h.imported]
  remembersLeft := by
    unfold Store.Remembers Store.remembered?
    rw [hs.memo]
    exact h.remembersLeft.grow hle.left
  remembersRight := by
    unfold Store.Remembers Store.remembered?
    rw [ht.memo]
    exact h.remembersRight.grow hle.right

/-- The stores still correspond with other blocks that do. -/
theorem withBlocks (h : s.Twin queries p t) {blocks blocks' : List Block}
    (hblocks : List.Forall₂ (Block.Twin queries p) blocks blocks') :
    Store.Twin queries p { s with blocks } { t with blocks := blocks' } :=
  ⟨h.left, h.right, hblocks, h.imported, h.remembersLeft, h.remembersRight⟩

end Store.Twin

/-- From stores that correspond on, the two steps lead to stores that correspond, and to results
with `post`. -/
def InStep {α : Type} (queries : Queries) (p : Pairing) (x y : StateM Store α)
    (post : Pairing → α → α → Prop) : Prop :=
  ∀ s t : Store, s.Twin queries p t →
    ∃ q, p ≤ q ∧ (x.run s).2.Twin queries q (y.run t).2 ∧ post q (x.run s).1 (y.run t).1

/-- From the two stores on, the two computations fail with one error, or lead to stores that
correspond and to results with `post`. -/
def ParallelAt {α : Type} (queries : Queries) (p : Pairing) (s t : Store) (x y : CompileM α)
    (post : Pairing → α → α → Prop) : Prop :=
  (∃ a s' b t', x.run.run s = (.ok a, s') ∧ y.run.run t = (.ok b, t') ∧
    ∃ q, p ≤ q ∧ s'.Twin queries q t' ∧ post q a b) ∨
  ∃ e s' t', x.run.run s = (.error e, s') ∧ y.run.run t = (.error e, t')

/-- The two computations run in parallel from all stores that correspond. -/
def Parallel {α : Type} (queries : Queries) (p : Pairing) (x y : CompileM α)
    (post : Pairing → α → α → Prop) : Prop :=
  ∀ s t : Store, s.Twin queries p t → ParallelAt queries p s t x y post

/-- The two computations run in parallel from stores that correspond and in which no path is
imported yet. -/
def ParallelFirst {α : Type} (queries : Queries) (p : Pairing) (x y : CompileM α)
    (post : Pairing → α → α → Prop) : Prop :=
  ∀ s t : Store, s.Twin queries p t → s.imported = [] → ParallelAt queries p s t x y post

variable {α β : Type}

namespace InStep

variable {x y : StateM Store α} {post : Pairing → α → α → Prop}

theorem pure {a b : α} (h : post p a b) : InStep queries p (Pure.pure a) (Pure.pure b) post :=
  fun _ _ hst => ⟨p, le_rfl, hst, h⟩

theorem bind {z w : α → StateM Store β} {post' : Pairing → β → β → Prop}
    (hx : InStep queries p x y post)
    (hz : ∀ q a b, p ≤ q → post q a b → InStep queries q (z a) (w b) post') :
    InStep queries p (x >>= z) (y >>= w) post' := by
  intro s t hst
  obtain ⟨q, hle, hst', hpost⟩ := hx s t hst
  obtain ⟨r, hle', hst'', hpost'⟩ := hz q _ _ hle hpost _ _ hst'
  exact ⟨r, hle.trans hle', hst'', hpost'⟩

theorem get {z w : Store → StateM Store β} {post : Pairing → β → β → Prop}
    (h : ∀ s t : Store, s.Twin queries p t → InStep queries p (z s) (w t) post) :
    InStep queries p (MonadState.get >>= z) (MonadState.get >>= w) post :=
  fun s t hst => h s t hst s t hst

theorem modifyStore {f g : Store → Store}
    (h : ∀ s t : Store, s.Twin queries p t → (f s).Twin queries p (g t)) :
    InStep queries p (modify f) (modify g) fun _ _ _ => True :=
  fun s t hst => ⟨p, le_rfl, h s t hst, trivial⟩

theorem record (e e' : Event) :
    InStep queries p (Stylesheet.record e) (Stylesheet.record e') fun _ _ _ => True :=
  fun s t hst => ⟨p, le_rfl,
    hst.later le_rfl (s.quiet_record e) (t.quiet_record e') hst.left hst.right, trivial⟩

theorem numbering {number number' : StateM Nat α} (h : Numbers p number number' post)
    (hnumber : ∀ next, next ≤ (number.run next).2)
    (hnumber' : ∀ next, next ≤ (number'.run next).2) :
    InStep queries p (Stylesheet.numbering number) (Stylesheet.numbering number') post := by
  intro s t hst
  obtain ⟨q, hle, hleft, hright, hpost⟩ := h
  rw [← hst.left] at hleft hpost
  rw [← hst.right] at hright hpost
  exact ⟨q, hle, hst.later hle (s.quiet_nextSerial (hnumber _))
    (t.quiet_nextSerial (hnumber' _)) hleft hright, hpost⟩

/-- Two frames that are built around rules in which one sees the same show the same. -/
theorem frame {header : Header} {rules rules' : List Node} {source source' : Option Nat}
    (hrules : Seen queries p rules rules')
    (hsource : Option.Rel (fun a b => (a, b) ∈ p.twins) source source') :
    InStep queries p (Ruleset.build header rules source) (Ruleset.build header rules' source')
      fun q f g => f.TwinFrames queries q g ∧ f.header = header ∧ f.rules = rules ∧
        g.rules = rules' := by
  intro s t hst
  have hle := p.le_add [rules] [rules']
  refine ⟨p.add [rules] [rules'], hle, ?_, ⟨?_, ?_, ?_, ?_, ?_, ?_⟩, rfl, rfl, rfl⟩
  · refine hst.later hle (KeepsBooks.build _ _ _ s) (KeepsBooks.build _ _ _ t) ?_ ?_
    · change s.nextSerial + 1 = _
      simp [Pairing.add, hst.left]
    · change t.nextSerial + 1 = _
      simp [Pairing.add, hst.right]
  · rfl
  · exact hsource
  · change (p.left ++ [rules])[s.nextSerial]? = some rules
    simp [hst.left]
  · change (p.right ++ [rules'])[t.nextSerial]? = some rules'
    simp [hst.right]
  · intro u hu
    have hlt := p.lt_length u hu
    change u.1 ≠ s.nextSerial ∧ u.2 ≠ t.nextSerial
    rw [hst.left, hst.right]
    omega
  · exact hrules.grow hle

theorem rebuild {f g : Ruleset} {rules rules' : List Node} (hframe : f.TwinFrames queries p g)
    (hrules : Seen queries p rules rules') :
    InStep queries p (f.rebuild rules) (g.rebuild rules') fun q f' g' =>
      f'.TwinFrames queries q g' ∧ f'.header = f.header ∧ f'.rules = rules ∧ g'.rules = rules' := by
  rw [Ruleset.rebuild, Ruleset.rebuild, hframe.header]
  exact frame hrules hframe.source

/-- Two rulesets that are built at once get numbers that are partners. -/
theorem partners (header : Header) (rules rules' : List Node) (source source' : Option Nat) :
    InStep queries p (Ruleset.build header rules source) (Ruleset.build header rules' source')
      fun q r r' => (r.serial, r'.serial) ∈ q.twins ∧
        (r.Filed (q.left[·]?) ∧ r.header = header ∧ r.rules = rules) ∧
          r'.Filed (q.right[·]?) ∧ r'.header = header ∧ r'.rules = rules' := by
  intro s t hst
  have hle := p.le_pair rules rules'
  refine ⟨p.pair rules rules', hle, ?_, ?_, ⟨?_, rfl, rfl⟩, ?_, rfl, rfl⟩
  · refine hst.later hle (KeepsBooks.build _ _ _ s) (KeepsBooks.build _ _ _ t) ?_ ?_
    · change s.nextSerial + 1 = _
      simp [Pairing.pair, hst.left]
    · change t.nextSerial + 1 = _
      simp [Pairing.pair, hst.right]
  · change (s.nextSerial, t.nextSerial) ∈ _
    simp [Pairing.pair, hst.left, hst.right]
  · change (p.left ++ [rules])[s.nextSerial]? = some rules
    simp [hst.left]
  · change (p.right ++ [rules'])[t.nextSerial]? = some rules'
    simp [hst.right]

/-- Two rulesets that are built around rules that correspond do so themselves. -/
theorem ruleset {header : Header} {rules rules' : List Node}
    (hrules : Node.TwinAll queries p rules rules') (source source' : Option Nat) :
    InStep queries p (Ruleset.build header rules source) (Ruleset.build header rules' source')
      fun q r r' => r.Twin queries q r' := by
  intro s t hst
  obtain ⟨q, hle, hst', hserial, ⟨hleft, hheader, hr⟩, hright, hheader', hr'⟩ :=
    partners header rules rules' source source' s t hst
  refine ⟨q, hle, hst', hheader'.trans hheader.symm, hserial, hleft, hright, ?_⟩
  rw [hr, hr']
  exact hrules.grow hle

/-- Blocks that are changed one after the other, in corresponding ways. -/
theorem mapBlocks {f g : Block → StateM Store Block} {blocks blocks' : List Block}
    (hblocks : List.Forall₂ (Block.Twin queries p) blocks blocks')
    (hf : ∀ q b c, Block.Twin queries q b c → InStep queries q (f b) (g c) (Block.Twin queries)) :
    InStep queries p (blocks.mapM f) (blocks'.mapM g) fun q =>
      List.Forall₂ (Block.Twin queries q) := by
  induction blocks generalizing p blocks' with
  | nil =>
    cases hblocks
    exact .pure .nil
  | cons b blocks ih =>
    cases hblocks with
    | cons hb hrest =>
      rw [List.mapM_cons, List.mapM_cons]
      refine (hf p _ _ hb).bind fun q b' c' hle hb' => ?_
      refine (ih (hrest.imp fun _ _ h => h.grow hle)).bind fun r bs cs hle' hbs => .pure ?_
      exact .cons (hb'.grow hle') hbs

end InStep

namespace ParallelAt

variable {x y : CompileM α} {post : Pairing → α → α → Prop} {s t : Store}

theorem bind {z w : α → CompileM β} {post' : Pairing → β → β → Prop}
    (hx : ParallelAt queries p s t x y post)
    (hz : ∀ q a b, p ≤ q → post q a b → Parallel queries q (z a) (w b) post') :
    ParallelAt queries p s t (x >>= z) (y >>= w) post' := by
  rcases hx with ⟨a, s', b, t', hx, hy, q, hle, hst', hpost⟩ | ⟨e, s', t', hx, hy⟩
  · rw [ParallelAt, run_bind_ok hx, run_bind_ok hy]
    rcases hz q a b hle hpost s' t' hst' with
      ⟨a', s'', b', t'', hx', hy', r, hle', hst'', hpost'⟩ | herror
    · exact .inl ⟨a', s'', b', t'', hx', hy', r, hle.trans hle', hst'', hpost'⟩
    · exact .inr herror
  · exact .inr ⟨e, s', t', run_bind_error hx, run_bind_error hy⟩

/-- What a contract says of the first computation holds as well. -/
theorem and_left {P : α → Prop} (h : ParallelAt queries p s t x y post)
    (hx : Ensures x s (fun a _ => P a) fun _ _ => True) :
    ParallelAt queries p s t x y fun q a b => post q a b ∧ P a := by
  rcases h with ⟨a, s', b, t', hrun, hy, q, hle, hst', hpost⟩ | herror
  · exact .inl ⟨a, s', b, t', hrun, hy, q, hle, hst', hpost, hx.of_ok hrun⟩
  · exact .inr herror

end ParallelAt

namespace Parallel

variable {x y : CompileM α} {post post' : Pairing → α → α → Prop}

theorem mono (h : Parallel queries p x y post)
    (hpost : ∀ q a b, p ≤ q → post q a b → post' q a b) : Parallel queries p x y post' := by
  intro s t hst
  rcases h s t hst with ⟨a, s', b, t', hx, hy, q, hle, hst', hq⟩ | herror
  · exact .inl ⟨a, s', b, t', hx, hy, q, hle, hst', hpost q a b hle hq⟩
  · exact .inr herror

theorem pure {a b : α} (h : post p a b) : Parallel queries p (Pure.pure a) (Pure.pure b) post :=
  fun s t hst => .inl ⟨a, s, b, t, rfl, rfl, p, le_rfl, hst, h⟩

theorem throw (e : Error) :
    Parallel queries p (MonadExcept.throw e : CompileM α) (MonadExcept.throw e) post :=
  fun s t _ => .inr ⟨e, s, t, rfl, rfl⟩

theorem bind {z w : α → CompileM β} {post' : Pairing → β → β → Prop}
    (hx : Parallel queries p x y post)
    (hz : ∀ q a b, p ≤ q → post q a b → Parallel queries q (z a) (w b) post') :
    Parallel queries p (x >>= z) (y >>= w) post' :=
  fun s t hst => (hx s t hst).bind hz

/-- The first computation alone goes a step ahead, which does not fail. -/
theorem ahead {z : CompileM β} {w : β → CompileM α}
    (h : ∀ s t : Store, s.Twin queries p t → ∃ b s', z.run.run s = (.ok b, s') ∧
      ∃ q, p ≤ q ∧ s'.Twin queries q t ∧ Parallel queries q (w b) y post) :
    Parallel queries p (z >>= w) y post := by
  intro s t hst
  obtain ⟨b, s', hrun, q, hle, hst', hnext⟩ := h s t hst
  rw [ParallelAt, run_bind_ok hrun]
  rcases hnext s' t hst' with ⟨a, s'', c, t'', hx, hy, r, hle', hst'', hpost⟩ | herror
  · exact .inl ⟨a, s'', c, t'', hx, hy, r, hle.trans hle', hst'', hpost⟩
  · exact .inr herror

/-- The first computation alone goes on to change its result. -/
theorem mapLeft {f : α → α} (h : Parallel queries p x y post)
    (hf : ∀ q a b, p ≤ q → post q a b → post' q (f a) b) :
    Parallel queries p (x >>= fun a => Pure.pure (f a)) y post' := by
  intro s t hst
  rcases h s t hst with ⟨a, s', b, t', hx, hy, q, hle, hst', hpost⟩ | ⟨e, s', t', hx, hy⟩
  · exact .inl ⟨f a, s', b, t', run_bind_ok hx, hy, q, hle, hst', hf q a b hle hpost⟩
  · exact .inr ⟨e, s', t', run_bind_error hx, hy⟩

theorem get {z w : Store → CompileM β} {post : Pairing → β → β → Prop}
    (h : ∀ s t : Store, s.Twin queries p t → Parallel queries p (z s) (w t) post) :
    Parallel queries p (MonadState.get >>= z) (MonadState.get >>= w) post :=
  fun s t hst => h s t hst s t hst

theorem lift {x y : StateM Store α} (h : InStep queries p x y post) :
    Parallel queries p (liftM x) (liftM y) post := by
  intro s t hst
  obtain ⟨q, hle, hst', hpost⟩ := h s t hst
  exact .inl ⟨_, _, _, _, rfl, rfl, q, hle, hst', hpost⟩

/-- A computation that does not use the store, and is the same on both sides. -/
theorem of_except {z w : Except Error α} (h : w = z) :
    Parallel queries p (ofExcept z) (ofExcept w) fun _ a b => b = a := by
  subst h
  cases w with
  | ok a => exact .pure rfl
  | error e => exact .throw e

/-- What a contract says of the first computation holds as well. -/
theorem and_left {P : α → Prop} (h : Parallel queries p x y post)
    (hx : ∀ s, Ensures x s (fun a _ => P a) fun _ _ => True) :
    Parallel queries p x y fun q a b => post q a b ∧ P a :=
  fun s t hst => (h s t hst).and_left (hx s)

end Parallel

namespace ParallelFirst

variable {x y : CompileM α} {post : Pairing → α → α → Prop} {post' : Pairing → β → β → Prop}

/-- Once the first computation is done, paths may be imported. -/
theorem bind {z w : α → CompileM β} (hx : ParallelFirst queries p x y post)
    (hz : ∀ q a b, p ≤ q → post q a b → Parallel queries q (z a) (w b) post') :
    ParallelFirst queries p (x >>= z) (y >>= w) post' :=
  fun s t hst hnone => (hx s t hst hnone).bind hz

/-- A step that keeps the books imports no path. -/
theorem lift_bind {x y : StateM Store α} (hx : InStep queries p x y post) (hbooks : KeepsBooks x)
    {z w : α → CompileM β}
    (hz : ∀ q a b, p ≤ q → post q a b → ParallelFirst queries q (z a) (w b) post') :
    ParallelFirst queries p (liftM x >>= z) (liftM y >>= w) post' := by
  intro s t hst hnone
  obtain ⟨q, hle, hst', hpost⟩ := hx s t hst
  have hnone' : (x.run s).2.imported = [] := (hbooks s).imported.trans hnone
  rw [ParallelAt, run_bind_lift, run_bind_lift]
  rcases hz q _ _ hle hpost _ _ hst' hnone' with ⟨a, s', b, t', hz, hw, r, hle', hrest⟩ | herror
  · exact .inl ⟨a, s', b, t', hz, hw, r, hle.trans hle', hrest⟩
  · exact .inr herror

end ParallelFirst

end Stylesheet
