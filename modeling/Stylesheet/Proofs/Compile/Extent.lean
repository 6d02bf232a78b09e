import Stylesheet.Proofs.Compile.Growth
import Stylesheet.Proofs.Node.Extent

/-!
# A compilation uses only numbers that it gave out

Blocks, answers and frames refer to rulesets and blocks by number. All of these numbers are
below the next free ones, at every point of a compilation that starts with such a store and
such a scope. No fresh ruleset is taken for one of before, then, and no reference leads nowhere.

The store grows all along, so the contract of a computation speaks of the extent that the store
has at its end, and what was known before is carried over to it. From the start on, answers
that are kept for a ruleset of the start are answers of the start, whatever is compiled.
-/

namespace Stylesheet

variable {start e e' : Extent} {s t : Store}

namespace Store

/-- How many numbers the store has given out. -/
def extent (s : Store) : Extent := ⟨s.nextSerial, s.blocks.length⟩

/-- The blocks and the answers of the store lead only to numbers that were given out. Answers for
rulesets of the start are as old. -/
structure Since (start : Extent) (s : Store) : Prop where
  le : start ≤ s.extent
  blocks : ∀ b ∈ s.blocks, ∀ n ∈ b.rules, n.Since start s.extent
  serial : ∀ serial key found, s.remembered? serial key = some found → serial < s.nextSerial
  memo : ∀ serial key found, s.remembered? serial key = some found →
    ∀ c ∈ found, c.node.Since start s.extent
  old : ∀ serial key found, s.remembered? serial key = some found → serial < start.rulesets →
    ∀ c ∈ found, c.node.Within start

/-- The store goes on with more numbers, and with blocks of which the same is known. -/
theorem Since.later (h : s.Since start) (hle : s.extent ≤ t.extent) (hmemo : t.memo = s.memo)
    (hblocks : ∀ b ∈ t.blocks, ∀ n ∈ b.rules, n.Since start t.extent) : t.Since start where
  le := h.le.trans hle
  blocks := hblocks
  serial := by
    unfold remembered?
    rw [hmemo]
    exact fun serial key found hfound =>
      Nat.lt_of_lt_of_le (h.serial serial key found hfound) hle.1
  memo := by
    unfold remembered?
    rw [hmemo]
    exact fun serial key found hfound c hc => (h.memo serial key found hfound c hc).mono hle
  old := by
    unfold remembered?
    rw [hmemo]
    exact h.old

theorem Quiet.extent_le (h : s.Quiet t) : s.extent ≤ t.extent :=
  ⟨h.nextSerial, Nat.le_of_eq (congrArg List.length h.blocks.symm)⟩

theorem Since.quiet (h : s.Since start) (hquiet : s.Quiet t) : t.Since start := by
  refine h.later hquiet.extent_le hquiet.memo fun b hb n hn => ?_
  exact (h.blocks b (hquiet.blocks ▸ hb) n hn).mono hquiet.extent_le

end Store

/-- The frames of the scope lead only to numbers within the extent. -/
def Scope.Since (start e : Extent) (sc : Scope) : Prop :=
  ∀ frame ∈ sc.frames, (Node.ruleset frame).Since start e

theorem Scope.Since.mono {sc : Scope} (h : sc.Since start e) (hle : e ≤ e') :
    sc.Since start e' := fun frame hframe => (h frame hframe).mono hle

theorem Scope.Since.enter {sc : Scope} {frame : Ruleset} (h : sc.Since start e)
    (hframe : (Node.ruleset frame).Since start e) (selectors : List Selector) :
    (sc.enter frame selectors).Since start e := List.forall_mem_cons.2 ⟨hframe, h⟩

theorem Node.Since.all_mono {nodes : List Node} (h : ∀ n ∈ nodes, n.Since start e)
    (hle : e ≤ e') : ∀ n ∈ nodes, n.Since start e' := fun n hn => (h n hn).mono hle

section Contracts

variable {α β : Type}

/-- From stores with at least the extent, the step leads to stores of which the same is known, with
`post` for the extent at the end. -/
def StepsSince (start e : Extent) (x : StateM Store α) (post : Extent → α → Prop) : Prop :=
  ∀ s : Store, s.Since start → e ≤ s.extent → (x.run s).2.Since start ∧
    e ≤ (x.run s).2.extent ∧ post (x.run s).2.extent (x.run s).1

/-- From stores with at least the extent, the computation fails or leads to stores of which the same
is known, with `post` for the extent at the end. -/
def RunsSince (start e : Extent) (x : CompileM α) (post : Extent → α → Prop) : Prop :=
  ∀ s : Store, s.Since start → e ≤ s.extent →
    Ensures x s (fun a t => t.Since start ∧ e ≤ t.extent ∧ post t.extent a) fun _ _ => True

namespace StepsSince

variable {x : StateM Store α} {post : Extent → α → Prop} {post' : Extent → β → Prop}

theorem mono {post₁ : Extent → α → Prop} (h : StepsSince start e x post)
    (hpost : ∀ e' a, post e' a → post₁ e' a) : StepsSince start e x post₁ :=
  fun s hs hle => ⟨(h s hs hle).1, (h s hs hle).2.1, hpost _ _ (h s hs hle).2.2⟩

theorem pure {a : α} (h : ∀ e', e ≤ e' → post e' a) : StepsSince start e (Pure.pure a) post :=
  fun s hs hle => ⟨hs, hle, h s.extent hle⟩

theorem bind {f : α → StateM Store β} (hx : StepsSince start e x post)
    (hf : ∀ e' a, e ≤ e' → post e' a → StepsSince start e' (f a) post') :
    StepsSince start e (x >>= f) post' := by
  intro s hs hle
  obtain ⟨ht, hle', hpost⟩ := hx s hs hle
  obtain ⟨hu, hle'', hpost'⟩ := hf _ _ hle' hpost _ ht (le_refl _)
  exact ⟨hu, hle'.trans hle'', hpost'⟩

theorem get {f : Store → StateM Store β}
    (hf : ∀ s : Store, s.Since start → e ≤ s.extent → StepsSince start s.extent (f s) post') :
    StepsSince start e (MonadState.get >>= f) post' := by
  intro s hs hle
  obtain ⟨ht, hle', hpost⟩ := hf s hs hle s hs (le_refl _)
  exact ⟨ht, hle.trans hle', hpost⟩

theorem record (event : Event) :
    StepsSince start e (Stylesheet.record event) fun _ _ => True :=
  fun s hs hle => ⟨hs.quiet (s.quiet_record event),
    hle.trans (s.quiet_record event).extent_le, trivial⟩

/-- A numbering starts with a number that is free, and ends below the next one. -/
theorem numbering {number : StateM Nat α} (hnumber : ∀ next, next ≤ (number.run next).2)
    (h : ∀ next e', start.rulesets ≤ next → e ≤ e' → (number.run next).2 ≤ e'.rulesets →
      post e' (number.run next).1) :
    StepsSince start e (Stylesheet.numbering number) post := by
  intro s hs hle
  have hquiet := KeepsBooks.numbering hnumber s
  have hle' := hle.trans hquiet.extent_le
  exact ⟨hs.quiet hquiet, hle', h _ _ hs.le.1 hle' (Nat.le_refl _)⟩

theorem numberRules (rules : List Rule) :
    StepsSince start e (Stylesheet.numberRules rules) fun e' nodes =>
      ∀ n ∈ nodes, n.Since start e' :=
  numbering (Node.le_next_ofRules rules) fun next _ hstart _ hlast =>
    Node.since_ofRules rules next hstart hlast

theorem renewNodes {nodes : List Node} (h : ∀ n ∈ nodes, n.Since start e) :
    StepsSince start e (Stylesheet.renewNodes nodes) fun e' nodes =>
      ∀ n ∈ nodes, n.Since start e' := by
  refine numbering (Node.le_next_renewAll nodes) fun next e' hstart hle hlast => ?_
  exact Node.since_renewAll (fun n hn => ((h n hn).mono hle).renew) hstart hlast

/-- A ruleset that is built is since the start. -/
theorem build (header : Header) {rules : List Node} {source : Option Nat}
    (hrules : ∀ n ∈ rules, n.Since start e)
    (hsource : ∀ serial, source = some serial → serial < e.rulesets) :
    StepsSince start e (Ruleset.build header rules source) fun e' r =>
      (Node.ruleset r).Since start e' ∧ r.rules = rules := by
  have hfresh : StepsSince start e freshSerial fun e' serial =>
      start.rulesets ≤ serial ∧ serial < e'.rulesets :=
    numbering Nat.le_succ fun _ _ hstart _ hlast => ⟨hstart, hlast⟩
  refine hfresh.bind ?_
  rintro e' serial hle ⟨hstart, hlt⟩
  refine .pure fun e'' hle' => ⟨?_, rfl⟩
  refine .ruleset ⟨⟨Nat.lt_of_lt_of_le hlt hle'.1, fun serial hserial => ?_⟩,
    fun hlt => absurd hlt (Nat.not_lt.2 hstart)⟩ fun n hn => (hrules n hn).mono (hle.trans hle')
  exact Nat.lt_of_lt_of_le (hsource serial hserial) (hle.trans hle').1

theorem rebuild {frame : Ruleset} {rules : List Node}
    (hframe : (Node.ruleset frame).Since start e) (hrules : ∀ n ∈ rules, n.Since start e) :
    StepsSince start e (frame.rebuild rules) fun e' r =>
      (Node.ruleset r).Since start e' ∧ r.rules = rules :=
  build frame.header hrules hframe.own.numbered.source

/-- Blocks that are changed one after the other. -/
theorem mapBlocks {f : Block → StateM Store Block} {blocks : List Block}
    (hblocks : ∀ b ∈ blocks, ∀ n ∈ b.rules, n.Since start e)
    (hf : ∀ e' b, (∀ n ∈ Block.rules b, n.Since start e') →
      StepsSince start e' (f b) fun e'' b' => ∀ n ∈ b'.rules, n.Since start e'') :
    StepsSince start e (blocks.mapM f) fun e' blocks =>
      ∀ b ∈ blocks, ∀ n ∈ b.rules, n.Since start e' := by
  induction blocks generalizing e with
  | nil => exact .pure fun _ _ b hb => by cases hb
  | cons b blocks ih =>
    obtain ⟨hb, hrest⟩ := List.forall_mem_cons.1 hblocks
    rw [List.mapM_cons]
    refine (hf e b hb).bind fun e' b' hle hb' => ?_
    refine (ih fun b hb => Node.Since.all_mono (hrest b hb) hle).bind
      fun e'' blocks' hle' hnew => .pure fun e''' hle'' => List.forall_mem_cons.2 ⟨?_, ?_⟩
    · exact Node.Since.all_mono hb' (hle'.trans hle'')
    · exact fun b hb => Node.Since.all_mono (hnew b hb) hle''

end StepsSince

namespace RunsSince

variable {x : CompileM α} {post post₁ : Extent → α → Prop} {post' : Extent → β → Prop}

theorem mono (h : RunsSince start e x post) (hpost : ∀ e' a, post e' a → post₁ e' a) :
    RunsSince start e x post₁ := by
  intro s hs hle
  refine (h s hs hle).mono ?_ fun _ _ _ => trivial
  rintro a t ⟨ht, hle', ha⟩
  exact ⟨ht, hle', hpost _ a ha⟩

theorem pure {a : α} (h : ∀ e', e ≤ e' → post e' a) : RunsSince start e (Pure.pure a) post :=
  fun s hs hle => ⟨hs, hle, h s.extent hle⟩

theorem throw (error : Error) : RunsSince start e (MonadExcept.throw error : CompileM α) post :=
  fun _ _ _ => trivial

theorem of_except (y : Except Error α) : RunsSince start e (ofExcept y) fun _ _ => True :=
  fun _ hs hle => ensures_ofExcept.2 ⟨fun _ _ => ⟨hs, hle, trivial⟩, fun _ _ => trivial⟩

theorem bind {f : α → CompileM β} (hx : RunsSince start e x post)
    (hf : ∀ e' a, e ≤ e' → post e' a → RunsSince start e' (f a) post') :
    RunsSince start e (x >>= f) post' := by
  intro s hs hle
  rw [ensures_bind]
  refine (hx s hs hle).mono ?_ fun _ _ _ => trivial
  rintro a t ⟨ht, hle', ha⟩
  refine (hf t.extent a hle' ha t ht (le_refl _)).mono ?_ fun _ _ _ => trivial
  rintro b u ⟨hu, hle'', hb⟩
  exact ⟨hu, hle'.trans hle'', hb⟩

theorem get {f : Store → CompileM β}
    (hf : ∀ s : Store, s.Since start → e ≤ s.extent → RunsSince start s.extent (f s) post') :
    RunsSince start e (MonadState.get >>= f) post' := by
  intro s hs hle
  rw [ensures_bind, ensures_get]
  refine (hf s hs hle s hs (le_refl _)).mono ?_ fun _ _ _ => trivial
  rintro b t ⟨ht, hle', hb⟩
  exact ⟨ht, hle.trans hle', hb⟩

theorem lift {x : StateM Store α} (h : StepsSince start e x post) :
    RunsSince start e (liftM x) post := h

end RunsSince

end Contracts

section Blocks

/-- The blocks from a given one on may be exchanged for as many that are since the start. -/
theorem Store.Since.withBlocks (hs : s.Since start) (hquiet : s.Quiet t) {first : Nat}
    {old new : List Block} (hold : old = s.blocks.take first)
    (hlength : new.length = (s.blocks.drop first).length)
    (hnew : ∀ b ∈ new, ∀ n ∈ b.rules, n.Since start t.extent) :
    { t with blocks := old ++ new }.Since start ∧
      { t with blocks := old ++ new }.extent = t.extent := by
  have hextent : { t with blocks := old ++ new }.extent = t.extent := by
    rw [Store.extent, Store.extent, hold, List.length_append, hlength, ← List.length_append,
      List.take_append_drop, hquiet.blocks]
  refine ⟨hs.later (hextent ▸ hquiet.extent_le) hquiet.memo ?_, hextent⟩
  rw [hextent, hold]
  refine List.forall_mem_append.2 ⟨fun b hb => ?_, hnew⟩
  exact Node.Since.all_mono (hs.blocks b (List.mem_of_mem_take hb)) hquiet.extent_le

theorem StepsSince.markBlock {b : Block} (hb : ∀ n ∈ b.rules, n.Since start e) :
    StepsSince start e b.markImportant fun e' b' => ∀ n ∈ b'.rules, n.Since start e' := by
  have hrenew : StepsSince start e b.renew fun e' b' => ∀ n ∈ b'.rules, n.Since start e' :=
    (StepsSince.renewNodes hb).bind fun _ _ _ hrules =>
      .pure fun _ hle => Node.Since.all_mono hrules hle
  refine hrenew.bind fun _ b' _ hb' => .pure fun _ hle => ?_
  exact Node.forall_markAllImportant fun n hn => ((hb' n hn).mono hle).markImportant

theorem StepsSince.wrapBlock (selectors : List Selector) {b : Block}
    (hb : ∀ n ∈ b.rules, n.Since start e) :
    StepsSince start e (b.wrap selectors) fun e' b' => ∀ n ∈ b'.rules, n.Since start e' :=
  (StepsSince.build { selectors } hb (by simp)).bind fun _ _ _ hr =>
    .pure fun _ hle => List.forall_mem_singleton.2 (hr.1.mono hle)

/-- What is marked as important gets new numbers. -/
theorem StepsSince.markImportant (first : Nat) {nodes : List Node}
    (hnodes : ∀ n ∈ nodes, n.Since start e) :
    StepsSince start e (Stylesheet.markImportant first nodes) fun e' nodes =>
      ∀ n ∈ nodes, n.Since start e' := by
  refine (StepsSince.renewNodes hnodes).bind fun e' nodes hle hnodes => ?_
  intro s hs hle'
  have hbooks := KeepsBooks.mapM KeepsBooks.markBlock (s.blocks.drop first) s
  have hlength := (forall₂_run_mapM KeepsBooks.markBlock (s.blocks.drop first) s).length_eq.symm
  obtain ⟨-, hextent, hmarked⟩ := StepsSince.mapBlocks
    (fun b hb => hs.blocks b (List.mem_of_mem_drop hb)) (fun _ _ => StepsSince.markBlock) s hs
    (le_refl _)
  obtain ⟨ht, hextent'⟩ :=
    hs.withBlocks hbooks (congrArg (List.take first) hbooks.blocks) hlength hmarked
  have hle'' := hextent'.symm ▸ hle'.trans hextent
  refine ⟨ht, hle'', Node.forall_markAllImportant fun n hn => ?_⟩
  exact ((hnodes n hn).mono hle'').markImportant

/-- Blocks that are wrapped in selectors are still since the start. -/
theorem StepsSince.bubble (selectors : List Selector) (first : Nat) :
    StepsSince start e (Stylesheet.bubble selectors first) fun _ _ => True := by
  intro s hs hle
  by_cases hnone : selectors = []
  · subst hnone
    exact ⟨hs, hle, trivial⟩
  by_cases hlength : s.blocks.length ≤ first
  · rw [run_bubble_of_le hlength]
    exact ⟨hs, hle, trivial⟩
  rw [run_bubble_of_lt hnone hlength]
  have hquiet := s.quiet_record (.bubbling (s.blocks.length - first) selectors.length)
  have hbooks := KeepsBooks.mapM (KeepsBooks.wrapBlock selectors) (s.blocks.drop first)
    (s.record (.bubbling (s.blocks.length - first) selectors.length))
  have hcount := (forall₂_run_mapM (KeepsBooks.wrapBlock selectors) (s.blocks.drop first)
    (s.record (.bubbling (s.blocks.length - first) selectors.length))).length_eq.symm
  obtain ⟨-, hextent, hwrapped⟩ := StepsSince.mapBlocks
    (fun b hb => hs.blocks b (List.mem_of_mem_drop hb)) (fun _ _ => StepsSince.wrapBlock selectors)
    _ (hs.quiet hquiet) (le_refl _)
  obtain ⟨ht, hextent'⟩ := hs.withBlocks (hquiet.trans hbooks) rfl hcount hwrapped
  exact ⟨ht, hextent'.symm ▸ hle.trans hextent, trivial⟩

end Blocks

section Lookups

/-- An answer is kept under a number that was given out. -/
theorem Store.Since.remember (h : s.Since start) {serial : Nat} {found : List Candidate}
    (hserial : serial < s.nextSerial) (hfound : ∀ c ∈ found, c.node.Since start s.extent)
    (hold : serial < start.rulesets → ∀ c ∈ found, c.node.Within start) (key : String) :
    (s.remember serial key found).Since start := by
  have hanswer : ∀ {serial' key' found'},
      (s.remember serial key found).remembered? serial' key' = some found' →
        serial' = serial ∧ found' = found ∨ s.remembered? serial' key' = some found' := by
    intro serial' key' found' hfound'
    rw [Store.remembered?, Store.remember, List.lookup_cons] at hfound'
    split at hfound'
    next hkey => exact .inl ⟨congrArg Prod.fst (eq_of_beq hkey), (Option.some.inj hfound').symm⟩
    next => exact .inr hfound'
  refine ⟨h.le, h.blocks, ?_, ?_, ?_⟩
  · intro serial' key' found' hfound'
    rcases hanswer hfound' with ⟨rfl, rfl⟩ | hbefore
    · exact hserial
    · exact h.serial serial' key' found' hbefore
  · intro serial' key' found' hfound'
    rcases hanswer hfound' with ⟨rfl, rfl⟩ | hbefore
    · exact hfound
    · exact h.memo serial' key' found' hbefore
  · intro serial' key' found' hfound'
    rcases hanswer hfound' with ⟨rfl, rfl⟩ | hbefore
    · exact hold
    · exact h.old serial' key' found' hbefore

/-- The store has that extent, and leads only to numbers in it. -/
def Store.SinceAt (start e : Extent) (s : Store) : Prop := s.Since start ∧ s.extent = e

/-- Lookups in what was there at the start find only what was there at the start. -/
theorem findKeeps_within (start e : Extent) :
    FindKeeps (Store.SinceAt start e) (·.node.Within start) (Node.Within start)
      (· < start.rulesets) where
  record := fun s event h => ⟨h.1.quiet (s.quiet_record event), h.2⟩
  remember := fun s serial key found hserial h hfound =>
    ⟨h.1.remember (Nat.lt_of_lt_of_le hserial h.1.le.1)
      (fun c hc => (hfound c hc).since h.1.le) (fun _ => hfound) key, h.2⟩
  remembered := fun s serial key found hserial h hfound => h.1.old serial key found hfound hserial
  ruleset := fun r hr => ⟨hr.own.serial, hr, hr.rules⟩
  definition := by
    intro d hd
    refine ⟨hd, ?_⟩
    cases hd with
    | definition hrules _ _ => exact hrules

/-- The lookup leads only to numbers that were given out. -/
abbrev AnswersSince (start e : Extent) : StateM Store (List Candidate) → Prop :=
  FindKeeps.Answers (Store.SinceAt start e) (·.node.Since start e)

variable {query : Selector}

/-- A ruleset of the start has only rules of the start, so the answers that are kept for it are as
old. Any other ruleset has a number that was given out since. -/
theorem answersSince_ruleset {r : Ruleset} (hr : r.Since start e)
    (h : AnswersSince start e (Node.findAll none query r.rules)) :
    AnswersSince start e (r.find none query) := by
  by_cases hserial : r.serial < start.rulesets
  · intro s hs
    obtain ⟨ht, hfound⟩ :=
      ((findKeeps_within start e).answers_all none).2.2.2 query r hserial (hr.old hserial) s hs
    exact ⟨ht, fun c hc => (hfound c hc).since (hs.2 ▸ hs.1.le)⟩
  · intro s hs
    cases hfound : s.remembered? r.serial query.text with
    | some found =>
      rw [run_find_of_remembered hfound]
      exact ⟨⟨hs.1.quiet (s.quiet_record _), hs.2⟩, hs.2 ▸ hs.1.memo _ _ _ hfound⟩
    | none =>
      rw [run_find_of_not_remembered hfound]
      obtain ⟨ht, hall⟩ := h _ ⟨hs.1.quiet (s.quiet_record (.lookupMiss query.text)), hs.2⟩
      refine ⟨⟨ht.1.remember ?_ (ht.2.symm ▸ hall) (fun hlt => absurd hlt hserial) _, ht.2⟩, hall⟩
      exact Nat.lt_of_lt_of_eq hr.numbered.serial (congrArg Extent.rulesets ht.2).symm

theorem answersSince_findAll {nodes : List Node}
    (h : ∀ n ∈ nodes, ∀ query, AnswersSince start e (n.find none query)) (query : Selector) :
    AnswersSince start e (Node.findAll none query nodes) := by
  induction nodes with
  | nil => exact FindKeeps.answers_nil
  | cons n nodes ih =>
    obtain ⟨hn, hnodes⟩ := List.forall_mem_cons.1 h
    exact FindKeeps.answers_cons (hn query) (ih hnodes)

theorem Node.Since.find {n : Node} (h : n.Since start e) (query : Selector) :
    AnswersSince start e (n.find none query) := by
  induction h generalizing query with
  | @ruleset r hr hrules ih =>
    have hnode : (Node.ruleset r).Since start e := .ruleset hr hrules
    rw [Node.find, if_neg (by simp)]
    split
    · exact FindKeeps.answers_nil
    · split
      · exact answersSince_ruleset hr (answersSince_findAll ih _)
      · exact FindKeeps.answers_singleton hnode
  | @definition d hrules hclosure hframes ih =>
    have hnode : (Node.definition d).Since start e := .definition hrules hclosure hframes
    rw [Node.find]
    split
    · exact FindKeeps.answers_nil
    · split
      · obtain ⟨signature, rules, closure⟩ := d
        exact answersSince_findAll ih _
      · exact FindKeeps.answers_singleton hnode
  | _ => exact FindKeeps.answers_nil

/-- Frames answer with candidates that lead only to numbers that were given out. -/
theorem steps_mixin_since {sc : Scope} (hsc : sc.Since start e) (query : Selector) :
    StepsSince start e (sc.mixin query) fun e' found =>
      ∀ candidates, found = some candidates → ∀ c ∈ candidates, c.node.Since start e' := by
  unfold Scope.Since at hsc
  unfold Scope.mixin
  generalize sc.frames = frames at hsc ⊢
  induction frames with
  | nil => exact .pure fun _ _ candidates hnone => by cases hnone
  | cons frame frames ih =>
    obtain ⟨hframe, hframes⟩ := List.forall_mem_cons.1 hsc
    intro s hs hle
    have hframe' := hframe.mono hle
    obtain ⟨⟨ht, hextent⟩, hfound⟩ := answersSince_ruleset hframe'.own
      (answersSince_findAll (fun n hn => Node.Since.find (hframe'.rules n hn)) query) s ⟨hs, rfl⟩
    rw [findInFrames, run_bind_eq]
    split
    · exact ih hframes _ ht (hextent.symm ▸ hle)
    · refine ⟨ht, hextent.symm ▸ hle, ?_⟩
      rintro candidates ⟨⟩
      exact hextent.symm ▸ hfound

end Lookups

section Imports

theorem runs_replaceImports_since {replace : Import → CompileM (List Node)}
    (hreplace : ∀ e', e ≤ e' → ∀ i, RunsSince start e' (replace i) fun e'' nodes =>
      ∀ n ∈ nodes, n.Since start e'') {nodes : List Node} (hnodes : ∀ n ∈ nodes, n.Since start e) :
    RunsSince start e (replaceImports replace nodes) fun e' nodes =>
      ∀ n ∈ nodes, n.Since start e' := by
  induction nodes generalizing e with
  | nil => exact .pure fun _ _ n hn => by cases hn
  | cons node nodes ih =>
    obtain ⟨hnode, hrest⟩ := List.forall_mem_cons.1 hnodes
    have hkept : RunsSince start e (do return node :: (← replaceImports replace nodes))
        fun e' nodes => ∀ n ∈ nodes, n.Since start e' :=
      (ih hreplace hrest).bind fun e' more hle hmore => .pure fun e'' hle' =>
        List.forall_mem_cons.2 ⟨hnode.mono (hle.trans hle'), Node.Since.all_mono hmore hle'⟩
    cases node with
    | inclusion i =>
      refine (hreplace e (le_refl e) i).bind fun e' replacement hle hreplacement => ?_
      refine (ih (fun e'' hle' => hreplace e'' (hle.trans hle'))
        (Node.Since.all_mono hrest hle)).bind fun e'' more hle' hmore => .pure fun e''' hle'' => ?_
      exact List.forall_mem_append.2 ⟨Node.Since.all_mono hreplacement (hle'.trans hle''),
        Node.Since.all_mono hmore hle''⟩
    | _ => exact hkept

theorem steps_load_since (path : String) (rules : List Rule) :
    StepsSince start e (load path rules) fun e' loaded =>
      ∀ nodes, loaded = some nodes → ∀ n ∈ nodes, n.Since start e' := by
  refine .get fun s hs hle => ?_
  split
  · exact (StepsSince.record _).bind fun _ _ _ _ => .pure fun _ _ nodes hnone => by cases hnone
  · have hnoted : StepsSince start s.extent
        (modify fun s => { s with imported := path :: s.imported }) fun _ _ => True :=
      fun t ht hle => ⟨ht.later (le_refl _) rfl ht.blocks, hle, trivial⟩
    refine hnoted.bind fun e' _ _ _ => (StepsSince.numberRules rules).bind
      fun e'' nodes _ hnodes => ?_
    refine (StepsSince.record _).bind fun _ _ hle' _ => .pure fun _ hle'' => ?_
    rintro _ ⟨⟩
    exact Node.Since.all_mono hnodes (hle'.trans hle'')

theorem runs_importCompile_since (sc : Scope) (i : Import) (e : Extent) :
    RunsSince start e (i.compile sc) fun e' nodes => ∀ n ∈ nodes, n.Since start e' := by
  induction sc, i using Import.compile.induct generalizing e with
  | case1 sc i hcss =>
    rw [Import.compile_of_css hcss]
    exact .pure fun _ _ => List.forall_mem_singleton.2 (.inclusion i)
  | case2 sc i hcss hi =>
    rw [Import.compile_of_importing hcss hi]
    exact .throw _
  | case3 sc i hcss hi hs =>
    rw [Import.compile_of_no_sources hcss hi hs]
    exact .pure fun _ _ => List.forall_mem_singleton.2 (.inclusion i)
  | case4 sc i hcss hi sources hs hlookup =>
    rw [Import.compile_of_not_found hcss hi hs hlookup]
    exact .throw _
  | case5 sc i hcss hi sources hs rules hlookup ih =>
    rw [Import.compile_of_found hcss hi hs hlookup]
    refine (RunsSince.lift (steps_load_since i.path rules)).bind fun e' loaded _ hloaded => ?_
    cases loaded with
    | none => exact .pure fun _ _ n hn => by cases hn
    | some nodes => exact runs_replaceImports_since (fun e'' _ j => ih j e'') (hloaded nodes rfl)

end Imports

/-- In scopes and with rulesets that lead only to numbers that were given out, so does the compiled
ruleset. -/
def Compiler.RunsSince (start : Extent) (compile : Compiler) : Prop :=
  ∀ e sc r, sc.Since start e → (Node.ruleset r).Since start e →
    Stylesheet.RunsSince start e (compile sc r) fun e' r' => (Node.ruleset r').Since start e'

/-- In scopes and with candidates that lead only to numbers that were given out, so does what is
expanded. -/
def Expander.RunsSince (start : Extent) (expand : Expander) : Prop :=
  ∀ e sc call args c, sc.Since start e → c.node.Since start e →
    Stylesheet.RunsSince start e (expand sc call args c) fun e' nodes =>
      ∀ n ∈ nodes, n.Since start e'

section Calls

variable {compile : Compiler} {expand : Expander} {sc : Scope}

theorem Candidate.rules_since {c : Candidate} (h : c.node.Since start e) :
    ∀ n ∈ c.rules, n.Since start e := by
  cases c with
  | ruleset r => exact Node.Throughout.rules h
  | definition d =>
    cases h with
    | definition hrules _ _ => exact hrules

theorem Candidate.closure_since {c : Candidate} (h : c.node.Since start e) :
    ∀ frame ∈ c.closure, (Node.ruleset frame).Since start e := by
  cases c with
  | ruleset r => exact fun frame hframe => by cases hframe
  | definition d =>
    cases h with
    | definition _ hclosure hframes =>
      intro frame hframe
      cases hd : d.closure with
      | none => simp [Candidate.closure, hd] at hframe
      | some frames =>
        rw [Candidate.closure, hd] at hframe
        exact .ruleset (hclosure frames hd frame hframe) (hframes frames hd frame hframe)

theorem runs_expandAll_since {expand : Candidate → CompileM (List Node)}
    {candidates : List Candidate}
    (h : ∀ e', e ≤ e' → ∀ c ∈ candidates, RunsSince start e' (expand c) fun e'' nodes =>
      ∀ n ∈ nodes, n.Since start e'') :
    RunsSince start e (expandAll expand candidates) fun e' nodes =>
      ∀ n ∈ nodes, n.Since start e' := by
  induction candidates generalizing e with
  | nil => exact .pure fun _ _ n hn => by cases hn
  | cons c candidates ih =>
    refine (h e (le_refl e) c (by simp)).bind fun e' nodes hle hnodes => ?_
    refine (ih fun e'' hle' c hc => h e'' (hle.trans hle') c (by simp [hc])).bind
      fun e'' more hle' hmore => .pure fun e''' hle'' => ?_
    exact List.forall_mem_append.2
      ⟨Node.Since.all_mono hnodes (hle'.trans hle''), Node.Since.all_mono hmore hle''⟩

theorem runs_call_since (hexpand : expand.RunsSince start) (hsc : sc.Since start e)
    (call : MixinCall) :
    RunsSince start e (call.compileWith expand sc) fun e' nodes =>
      ∀ n ∈ nodes, n.Since start e' := by
  refine (RunsSince.of_except _).bind fun e' args hle _ => ?_
  refine (RunsSince.lift (steps_mixin_since (hsc.mono hle) call.selector)).bind
    fun e'' found hle' hfound => ?_
  cases found with
  | none => exact .throw _
  | some candidates =>
    dsimp only
    split
    · exact .throw _
    · refine (runs_expandAll_since fun e''' hle'' c hc => ?_).bind fun e''' nodes _ hnodes =>
        (RunsSince.lift (.record _)).bind fun _ _ hle _ => .pure fun _ hle' =>
          Node.Since.all_mono hnodes (hle.trans hle')
      have hc := hfound candidates rfl c (List.mem_of_mem_filter hc)
      exact hexpand e''' sc call args c (hsc.mono ((hle.trans hle').trans hle'')) (hc.mono hle'')

theorem runs_ofCompiler_since (hcompile : compile.RunsSince start) :
    (Expander.ofCompiler compile).RunsSince start := by
  intro e sc call args c hsc hc
  refine (RunsSince.lift (.record _)).bind fun e₁ _ hle₁ _ => ?_
  refine (RunsSince.of_except _).bind fun e₂ bindings hle₂ _ => ?_
  have hdeclarations : ∀ n ∈ bindings.map Node.declaration, n.Since start e₂ := by
    intro n hn
    obtain ⟨d, -, rfl⟩ := List.mem_map.1 hn
    exact .declaration d
  refine (RunsSince.lift (.build {} hdeclarations (by simp))).bind fun e₃ params hle₃ hparams => ?_
  have hle := (hle₁.trans hle₂).trans hle₃
  have hrules := Node.Since.all_mono (Candidate.rules_since hc) hle
  refine (RunsSince.lift (.build {} hrules (by simp))).bind fun e₄ body hle₄ hbody => ?_
  refine .get fun s hs hle₅ => ?_
  have hbodySc : (sc.inBody params c).Since start s.extent := by
    have hlast := hle₄.trans hle₅
    refine List.forall_mem_cons.2 ⟨hparams.1.mono hlast, List.forall_mem_append.2 ⟨?_, ?_⟩⟩
    · exact fun frame hframe =>
        (Candidate.closure_since hc frame hframe).mono (hle.trans hlast)
    · exact hsc.mono (hle.trans hlast)
  refine (hcompile s.extent (sc.inBody params c) body hbodySc (hbody.1.mono hle₅)).bind
    fun e₆ compiled _ hcompiled => ?_
  split
  · exact .lift (.markImportant _ hcompiled.rules)
  · exact .pure fun _ hle => Node.Since.all_mono hcompiled.rules hle

theorem runs_expandCalls_since (hexpand : expand.RunsSince start) (hsc : sc.Since start e)
    (selectors : List Selector) {nodes : List Node} (hnodes : ∀ n ∈ nodes, n.Since start e)
    {frame : Ruleset} (hframe : (Node.ruleset frame).Since start e) {done : List Slot}
    (hdone : ∀ n ∈ done.map Slot.node, n.Since start e) :
    RunsSince start e (expandCalls expand (sc.enter · selectors) frame done nodes) fun e' result =>
      (Node.ruleset result.1).Since start e' ∧
        ∀ n ∈ result.2.map Slot.node, n.Since start e' := by
  induction nodes generalizing e frame done with
  | nil => exact .pure fun _ hle => ⟨hframe.mono hle, Node.Since.all_mono hdone hle⟩
  | cons node nodes ih =>
    obtain ⟨hnode, hrest⟩ := List.forall_mem_cons.1 hnodes
    have hown : RunsSince start e
        (expandCalls expand (sc.enter · selectors) frame (done ++ [.own node]) nodes)
        fun e' result => (Node.ruleset result.1).Since start e' ∧
          ∀ n ∈ result.2.map Slot.node, n.Since start e' := by
      refine ih hsc hrest hframe ?_
      rw [List.map_append]
      exact List.forall_mem_append.2 ⟨hdone, List.forall_mem_singleton.2 hnode⟩
    cases node with
    | call c =>
      refine (runs_call_since hexpand (hsc.enter hframe selectors) c).bind
        fun e₁ results hle hresults => ?_
      have hkept : ∀ n ∈ results.filter frame.admits, n.Since start e₁ :=
        fun n hn => hresults n (List.mem_of_mem_filter hn)
      have hdone' := Node.Since.all_mono hdone hle
      have hrest' := Node.Since.all_mono hrest hle
      refine (RunsSince.lift (.rebuild (hframe.mono hle) (List.forall_mem_append.2
        ⟨List.forall_mem_append.2 ⟨hdone', hkept⟩, hrest'⟩))).bind fun e₂ next hle' hnext => ?_
      refine ih (hsc.mono (hle.trans hle')) (Node.Since.all_mono hrest' hle') hnext.1 ?_
      rw [map_node_append_expanded]
      exact List.forall_mem_append.2
        ⟨Node.Since.all_mono hdone' hle', Node.Since.all_mono hkept hle'⟩
    | _ => exact hown

end Calls

section Nodes

variable {compile : Compiler} {sc : Scope}

theorem runs_compileBody_since (hcompile : compile.RunsSince start) (hsc : sc.Since start e)
    {rules : List Node} (hrules : ∀ n ∈ rules, n.Since start e) :
    RunsSince start e (compileBody compile sc rules) fun e' nodes =>
      ∀ n ∈ nodes, n.Since start e' := by
  refine (RunsSince.lift (.build {} hrules (by simp))).bind fun e' body hle hbody => ?_
  exact (hcompile e' sc body (hsc.mono hle) hbody.1).bind fun _ _ _ hcompiled =>
    .pure fun _ hle => Node.Since.all_mono hcompiled.rules hle

theorem runs_compileMedia_since (hcompile : compile.RunsSince start) (hsc : sc.Since start e)
    (head : MediaHead) {rules : List Node} (hrules : ∀ n ∈ rules, n.Since start e) :
    RunsSince start e (compileMedia compile sc head rules) fun e' n => n.Since start e' := by
  refine (runs_compileBody_since hcompile hsc hrules).bind fun e' body _ hbody => ?_
  intro s hs hle
  have hmore : s.extent ≤ { s with blocks := s.blocks ++ [Block.mk head body] }.extent :=
    ⟨Nat.le_refl _, by simp [Store.extent]⟩
  refine ⟨hs.later hmore rfl ?_, hle.trans hmore, ?_⟩
  · refine List.forall_mem_append.2 ⟨fun b hb => ?_, List.forall_mem_singleton.2 ?_⟩
    · exact Node.Since.all_mono (hs.blocks b hb) hmore
    · exact Node.Since.all_mono hbody (hle.trans hmore)
  · exact .block (by simp [Store.extent])

theorem runs_node_since (hcompile : compile.RunsSince start) (hsc : sc.Since start e) {n : Node}
    (hn : n.Since start e) :
    RunsSince start e (n.compileWith compile sc) fun e' n => n.Since start e' := by
  cases n with
  | declaration d =>
    exact (RunsSince.of_except _).bind fun _ d' _ _ => .pure fun _ _ => .declaration d'
  | ruleset r =>
    exact (hcompile e sc r hsc hn).bind fun _ _ _ h => .pure fun _ hle => h.mono hle
  | media head rules =>
    cases hn with
    | media hrules => exact runs_compileMedia_since hcompile hsc head hrules
  | block index =>
    refine .get fun s hs hle => ?_
    cases hb : s.blocks[index]? with
    | none => exact .pure fun _ hle' => hn.mono (hle.trans hle')
    | some b =>
      exact runs_compileMedia_since hcompile (hsc.mono hle) b.head
        (hs.blocks b (List.mem_of_getElem? hb))
  | directive head rules =>
    cases rules with
    | none => exact .pure fun _ hle => hn.mono hle
    | some rules =>
      cases hn with
      | directive hrules =>
        refine (runs_compileBody_since hcompile hsc (hrules rules rfl)).bind
          fun _ body _ hbody => .pure fun _ hle => .directive ?_
        rintro _ ⟨⟩
        exact Node.Since.all_mono hbody hle
  | call c => exact .throw _
  | definition d => exact .pure fun _ hle => hn.mono hle
  | inclusion i => exact .pure fun _ hle => hn.mono hle
  | comment c => exact .pure fun _ hle => hn.mono hle

theorem runs_compileSlots_since (hcompile : compile.RunsSince start) (hsc : sc.Since start e)
    (selectors : List Selector) {slots : List Slot}
    (hslots : ∀ n ∈ slots.map Slot.node, n.Since start e) {frame : Ruleset}
    (hframe : (Node.ruleset frame).Since start e) {done : List Node}
    (hdone : ∀ n ∈ done, n.Since start e) :
    RunsSince start e
      (compileSlots (Node.compileWith compile) (sc.enter · selectors) frame done slots)
      fun e' result => (Node.ruleset result.1).Since start e' ∧
        ∀ n ∈ result.2, n.Since start e' := by
  induction slots generalizing e frame done with
  | nil => exact .pure fun _ hle => ⟨hframe.mono hle, Node.Since.all_mono hdone hle⟩
  | cons slot slots ih =>
    obtain ⟨hslot, hrest⟩ := List.forall_mem_cons.1 hslots
    have hmore : ∀ {e' : Extent} {n : Node}, e ≤ e' → n.Since start e' →
        ∀ m ∈ done ++ [n], m.Since start e' := fun hle hn =>
      List.forall_mem_append.2 ⟨Node.Since.all_mono hdone hle, List.forall_mem_singleton.2 hn⟩
    cases slot with
    | expanded n => exact ih hsc hrest hframe (hmore (le_refl e) hslot)
    | own n =>
      by_cases hdefinition : ∃ d, n = .definition d
      · obtain ⟨d, rfl⟩ := hdefinition
        exact ih hsc hrest hframe (hmore (le_refl e) hslot)
      · rw [compileSlots_own fun d hd => hdefinition ⟨d, hd⟩]
        refine (runs_node_since hcompile (hsc.enter hframe selectors) hslot).bind
          fun e₁ compiled hle hcompiled => ?_
        have hdone' := hmore hle hcompiled
        have hrest' := Node.Since.all_mono hrest hle
        cases compiled with
        | ruleset r =>
          refine (RunsSince.lift (.rebuild (hframe.mono hle)
            (List.forall_mem_append.2 ⟨hdone', hrest'⟩))).bind fun e₂ next hle' hnext => ?_
          exact ih (hsc.mono (hle.trans hle')) (Node.Since.all_mono hrest' hle') hnext.1
            (Node.Since.all_mono hdone' hle')
        | _ => exact ih (hsc.mono hle) hrest' (hframe.mono hle) hdone'

end Nodes

section Rulesets

variable {compile : Compiler} {expand : Expander} {sc : Scope}

/-- Definitions take hold of frames that lead only to numbers that were given out. -/
theorem Node.Since.captureFrames {frames : List Ruleset} {nodes : List Node}
    (hframes : ∀ frame ∈ frames, (Node.ruleset frame).Since start e)
    (hnodes : ∀ n ∈ nodes, n.Since start e) :
    ∀ n ∈ Stylesheet.captureFrames frames nodes, n.Since start e := by
  intro m hm
  obtain ⟨n, hn, rfl⟩ := List.mem_map.1 hm
  have hn := hnodes n hn
  split
  · cases hn with
    | definition hrules _ _ =>
      refine .definition hrules ?_ ?_
      · rintro _ ⟨⟩ frame hframe
        exact (hframes frame hframe).own
      · rintro _ ⟨⟩ frame hframe
        exact (hframes frame hframe).rules
  · exact hn

theorem runs_homeFrame_since (sc : Scope) {r : Ruleset} (hr : (Node.ruleset r).Since start e)
    (selectors : List Selector) :
    RunsSince start e (r.homeFrame sc selectors) fun e' home =>
      (Node.ruleset home).Since start e' := by
  have hsource : ∀ serial, some r.serial = some serial → serial < e.rulesets := by
    rintro _ ⟨⟩
    exact hr.own.numbered.serial
  refine (RunsSince.lift (.build _ hr.rules hsource)).bind fun e₁ frame _ hframe => ?_
  split
  · refine (runs_replaceImports_since (fun e' _ i => runs_importCompile_since _ i e')
      hframe.1.rules).bind fun e₂ rules hle hrules => ?_
    exact (RunsSince.lift (.rebuild (hframe.1.mono hle) hrules)).mono fun _ _ h => h.1
  · exact .pure fun _ hle => hframe.1.mono hle

theorem runs_compileWith_since (hexpand : expand.RunsSince start)
    (hcompile : compile.RunsSince start) :
    Compiler.RunsSince start (Ruleset.compileWith expand compile) := by
  intro e sc r hsc hr
  rw [Ruleset.compileWith_eq]
  refine (RunsSince.of_except _).bind fun e₁ selectors hle₁ _ => ?_
  refine (RunsSince.lift (.record _)).bind fun e₂ _ hle₂ _ => ?_
  have hle := hle₁.trans hle₂
  refine (runs_homeFrame_since sc (hr.mono hle) selectors).bind
    fun e₃ home hle₃ hhome => ?_
  have hsc₃ := hsc.mono (hle.trans hle₃)
  have hcaptured := Node.Since.captureFrames (List.forall_mem_cons.2 ⟨hhome, hsc₃⟩) hhome.rules
  refine (RunsSince.lift (.rebuild hhome hcaptured)).bind fun e₄ frame hle₄ hframe => ?_
  refine .get fun s hs hle₅ => ?_
  have hsc₅ := hsc₃.mono (hle₄.trans hle₅)
  have hframe₅ := hframe.1.mono hle₅
  have hnone : ∀ n ∈ ([] : List Slot).map Slot.node, n.Since start s.extent := List.forall_mem_nil _
  refine (runs_expandCalls_since hexpand hsc₅ selectors hframe₅.rules hframe₅ hnone).bind ?_
  rintro e₆ ⟨filled, slots⟩ hle₆ ⟨hfilled, hslots⟩
  refine (runs_compileSlots_since hcompile (hsc₅.mono hle₆) selectors hslots hfilled
    (List.forall_mem_nil _)).bind ?_
  rintro e₇ ⟨last, rules⟩ - ⟨hlast, hrules⟩
  refine (RunsSince.lift (.bubble selectors _)).bind fun e₈ _ hle₈ _ => ?_
  exact (RunsSince.lift (.rebuild (hlast.mono hle₈)
    (Node.Since.all_mono hrules hle₈))).mono fun _ _ h => h.1

theorem runs_compiler_since (hexpand : expand.RunsSince start) :
    expand.compiler.RunsSince start := by
  have hnested : ∀ levels, Compiler.RunsSince start (expand.nested levels) := by
    intro levels
    induction levels with
    | zero => exact fun e sc r _ _ => .throw _
    | succ levels ih => exact runs_compileWith_since hexpand ih
  intro e sc r hsc hr
  exact .get fun s hs hle => hnested _ s.extent sc r (hsc.mono hle) (hr.mono hle)

theorem runs_upTo_since (start : Extent) (budget : Nat) :
    (Expander.upTo budget).RunsSince start := by
  induction budget with
  | zero => exact fun e sc call args c _ _ => .throw _
  | succ budget ih => exact runs_ofCompiler_since (runs_compiler_since ih)

end Rulesets

section Environments

variable {sc : Scope}

/-- The scope lives in the store: the frames of the one, and the blocks and answers of the other,
lead only to numbers that the store has given out. Numbers stand for references, so this says that
no reference leads to what is not there yet. A compilation starts with such an environment and
keeps it so. -/
structure Scope.LivesIn (sc : Scope) (s : Store) : Prop where
  frames : ∀ frame ∈ sc.frames, (Node.ruleset frame).Within s.extent
  blocks : ∀ b ∈ s.blocks, ∀ n ∈ b.rules, n.Within s.extent
  serial : ∀ serial key found, s.remembered? serial key = some found → serial < s.nextSerial
  memo : ∀ serial key found, s.remembered? serial key = some found →
    ∀ c ∈ found, c.node.Within s.extent

/-- From the present on, everything is as old as the present. -/
theorem Scope.LivesIn.since (h : sc.LivesIn s) : s.Since s.extent where
  le := le_refl _
  blocks := fun b hb n hn => (h.blocks b hb n hn).since (le_refl _)
  serial := h.serial
  memo := fun serial key found hfound c hc =>
    (h.memo serial key found hfound c hc).since (le_refl _)
  old := fun serial key found hfound _ => h.memo serial key found hfound

theorem Scope.LivesIn.scope_since (h : sc.LivesIn s) : sc.Since s.extent s.extent :=
  fun frame hframe => (h.frames frame hframe).since (le_refl _)

/-- A scope that has no frames lives in the empty store. -/
theorem Scope.livesIn_empty (h : sc.frames = []) : sc.LivesIn {} where
  frames := by simp [h]
  blocks := fun b hb => by cases hb
  serial := fun serial key found hfound => by cases hfound
  memo := fun serial key found hfound => by cases hfound

/-- A scope goes on to live in what a computation leaves of the store. -/
theorem Scope.LivesIn.of_runsSince (h : sc.LivesIn s) {α : Type} {x : CompileM α}
    {post : Extent → α → Prop} (hx : RunsSince s.extent s.extent x post) {a : α}
    (hrun : x.run.run s = (.ok a, t)) : sc.LivesIn t ∧ post t.extent a := by
  obtain ⟨ht, hle, ha⟩ := (hx s h.since (le_refl _)).of_ok hrun
  refine ⟨⟨?_, ?_, ht.serial, ?_⟩, ha⟩
  · exact fun frame hframe => ((h.scope_since frame hframe).mono hle).within
  · exact fun b hb n hn => (ht.blocks b hb n hn).within
  · exact fun serial key found hfound c hc => (ht.memo serial key found hfound c hc).within

theorem Scope.LivesIn.enter (h : sc.LivesIn s) {frame : Ruleset}
    (hframe : (Node.ruleset frame).Within s.extent) (selectors : List Selector) :
    (sc.enter frame selectors).LivesIn s :=
  ⟨List.forall_mem_cons.2 ⟨hframe, h.frames⟩, h.blocks, h.serial, h.memo⟩

/-- The environment in which the rules of a style sheet are compiled. -/
theorem Scope.livesIn_document (h : sc.frames = []) {rules : List Rule} {root : Ruleset}
    (hrun : (numberRules rules >>= Ruleset.document).run {} = (root, s))
    (selectors : List Selector) : (sc.enter root selectors).LivesIn s := by
  have hsteps : StepsSince (Store.extent {}) (Store.extent {})
      (numberRules rules >>= Ruleset.document) fun e r =>
        (Node.ruleset r).Since (Store.extent {}) e :=
    (StepsSince.numberRules rules).bind fun _ _ _ hnodes =>
      StepsSince.mono (StepsSince.build Header.document hnodes fun _ hnone => nomatch hnone)
        fun _ _ hr => hr.1
  have hlift : (liftM (numberRules rules >>= Ruleset.document) : CompileM Ruleset).run.run {} =
      (.ok ((numberRules rules >>= Ruleset.document).run {}).1,
        ((numberRules rules >>= Ruleset.document).run {}).2) := rfl
  rw [hrun] at hlift
  obtain ⟨hlives, hroot⟩ := (Scope.livesIn_empty h).of_runsSince (RunsSince.lift hsteps) hlift
  exact hlives.enter hroot.within selectors

/-- A scope that lives in a store lives in what a compilation leaves of it, and so does the compiled
ruleset. -/
theorem Scope.LivesIn.compile (h : sc.LivesIn s) {r r' : Ruleset}
    (hr : (Node.ruleset r).Within s.extent) (hrun : (r.compile sc).run.run s = (.ok r', t)) :
    sc.LivesIn t ∧ (Node.ruleset r').Within t.extent := by
  obtain ⟨ht, hr'⟩ := h.of_runsSince (runs_compiler_since (runs_upTo_since s.extent sc.budget)
    s.extent sc r h.scope_since (hr.since (le_refl _))) hrun
  exact ⟨ht, hr'.within⟩

theorem Scope.LivesIn.call (h : sc.LivesIn s) {call : MixinCall} {nodes : List Node}
    (hrun : (call.compile sc).run.run s = (.ok nodes, t)) :
    sc.LivesIn t ∧ ∀ n ∈ nodes, n.Within t.extent := by
  obtain ⟨ht, hnodes⟩ := h.of_runsSince
    (runs_call_since (runs_upTo_since s.extent sc.budget) h.scope_since call) hrun
  exact ⟨ht, fun n hn => (hnodes n hn).within⟩

end Environments

end Stylesheet
