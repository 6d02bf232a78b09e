import Stylesheet.Proofs.Compile.Growth
import Stylesheet.Proofs.Node.Normal

/-!
# Stores that hold only compiled blocks

While a ruleset is compiled, the blocks that are added to the store are in normal form
and refer only to blocks that were added. Where imports are lenient at the start, nothing
that comes into reach is strict about them. Both are one invariant of stores, which stays
fixed from the start to the end, so contracts compose without saying what changed.
-/

namespace Stylesheet

/-- The imports in a scope are lenient: there are sources, and neither the options nor a ruleset in
the frames or in the sources is strict. -/
structure Scope.Lenient (reach : Reach) (sc : Scope) : Prop where
  installed : sc.sources ≠ none
  options : sc.options.strictImports = false
  frames : ∀ frame ∈ sc.frames, reach.ruleset frame.serial ∧ ∀ n ∈ frame.rules, n.Lenient reach
  sources : ∀ table, sc.sources = some table →
    ∀ entry ∈ table, ∀ rule ∈ entry.2, rule.Fits .lenient

/-- Nothing in the store that is within reach is strict about imports. What is added to the store
comes into reach. -/
structure Store.Lenient (reach : Reach) (s : Store) : Prop where
  rulesets : ∀ serial, s.nextSerial ≤ serial → reach.ruleset serial
  added : ∀ index, s.blocks.length ≤ index → reach.block index
  blocks : ∀ index b, reach.block index → s.blocks[index]? = some b →
    ∀ n ∈ b.rules, n.Lenient reach
  memo : ∀ serial key found, reach.ruleset serial → s.remembered? serial key = some found →
    ∀ c ∈ found, c.Lenient reach

/-- What is known where a compilation starts: whether imports are lenient, what is within reach,
and how many blocks there are. -/
structure Start where
  lenient : Prop
  reach : Reach
  first : Nat

/-- The node was compiled since the start. -/
structure Node.Done (start : Start) (n : Node) : Prop where
  normal : n.Normal start.lenient (start.first ≤ ·)
  lenient : start.lenient → n.Lenient start.reach

theorem Node.Done.rules {start : Start} {r : Ruleset} (h : (Node.ruleset r).Done start) :
    ∀ n ∈ r.rules, n.Done start := by
  intro n hn
  refine ⟨?_, fun hl => ?_⟩
  · cases h.normal with
    | ruleset _ hrules => exact hrules n hn
  · cases h.lenient hl with
    | ruleset _ _ hrules => exact hrules n hn

/-- The blocks that were added since the start were compiled, and nothing strict is within reach. -/
structure Store.Tidy (start : Start) (s : Store) : Prop where
  length : start.first ≤ s.blocks.length
  blocks : ∀ index b, start.first ≤ index → s.blocks[index]? = some b →
    ∀ n ∈ b.rules, n.Normal start.lenient (start.first ≤ ·)
  lenient : start.lenient → s.Lenient start.reach

variable {start : Start} {s t : Store}

namespace Store

theorem Lenient.later {reach : Reach} (h : s.Lenient reach) (hblocks : t.blocks = s.blocks)
    (hmemo : t.memo = s.memo) (hnext : s.nextSerial ≤ t.nextSerial) : t.Lenient reach where
  rulesets := fun serial hserial => h.rulesets serial (Nat.le_trans hnext hserial)
  added := by rw [hblocks]; exact h.added
  blocks := by rw [hblocks]; exact h.blocks
  memo := by
    unfold remembered?
    rw [hmemo]
    exact h.memo

theorem Tidy.later (h : s.Tidy start) (hblocks : t.blocks = s.blocks) (hmemo : t.memo = s.memo)
    (hnext : s.nextSerial ≤ t.nextSerial) : t.Tidy start where
  length := by rw [hblocks]; exact h.length
  blocks := by rw [hblocks]; exact h.blocks
  lenient := fun hl => (h.lenient hl).later hblocks hmemo hnext

theorem Tidy.quiet (h : s.Tidy start) (hquiet : s.Quiet t) : t.Tidy start :=
  h.later hquiet.blocks hquiet.memo hquiet.nextSerial

/-- Blocks may be replaced by others that are as good. -/
theorem Tidy.reworks {first : Nat} {R : Block → Block → Prop} (h : s.Tidy start)
    (hreworks : s.Reworks first R t)
    (hnormal : ∀ b b', R b b' → (∀ n ∈ b.rules, n.Normal start.lenient (start.first ≤ ·)) →
      ∀ n ∈ b'.rules, n.Normal start.lenient (start.first ≤ ·))
    (hlenient : start.lenient → ∀ b b', R b b' → (∀ n ∈ b.rules, n.Lenient start.reach) →
      ∀ n ∈ b'.rules, n.Lenient start.reach) : t.Tidy start where
  length := by rw [hreworks.length_eq]; exact h.length
  blocks := by
    intro index b hindex hb
    rcases hreworks.getElem? hb with hold | ⟨-, old, hold, hrel⟩
    · exact h.blocks index b hindex hold
    · exact hnormal old b hrel (h.blocks index old hindex hold)
  lenient := by
    intro hl
    have hs := h.lenient hl
    refine ⟨fun serial hserial => hs.rulesets serial (Nat.le_trans hreworks.nextSerial hserial),
      by rw [hreworks.length_eq]; exact hs.added, ?_, ?_⟩
    · intro index b hindex hb
      rcases hreworks.getElem? hb with hold | ⟨-, old, hold, hrel⟩
      · exact hs.blocks index b hindex hold
      · exact hlenient hl old b hrel (hs.blocks index old hindex hold)
    · unfold remembered?
      rw [hreworks.memo]
      exact hs.memo

/-- A block of compiled nodes may be added. -/
theorem Tidy.addBlock (h : s.Tidy start) (head : MediaHead) {rules : List Node}
    (hrules : ∀ n ∈ rules, n.Done start) :
    { s with blocks := s.blocks ++ [Block.mk head rules] }.Tidy start ∧
      (Node.block s.blocks.length).Done start := by
  have hget : ∀ {index : Nat} {b : Block}, (s.blocks ++ [Block.mk head rules])[index]? = some b →
      s.blocks[index]? = some b ∨ b = ⟨head, rules⟩ := by
    intro index b hb
    by_cases hindex : index < s.blocks.length
    · rw [List.getElem?_append_left hindex] at hb
      exact .inl hb
    · rw [List.getElem?_append_right (by omega)] at hb
      exact .inr (List.mem_singleton.1 (List.mem_of_getElem? hb))
  refine ⟨⟨?_, ?_, ?_⟩, .block h.length, fun hl => .block ((h.lenient hl).added _ (Nat.le_refl _))⟩
  · exact Nat.le_trans h.length (by simp)
  · intro index b hindex hb
    rcases hget hb with hb | rfl
    · exact h.blocks index b hindex hb
    · exact fun n hn => (hrules n hn).normal
  · intro hl
    have hs := h.lenient hl
    refine ⟨hs.rulesets, ?_, ?_, hs.memo⟩
    · intro index hindex
      exact hs.added index (Nat.le_trans (by simp) hindex)
    · intro index b hindex hb
      rcases hget hb with hb | rfl
      · exact hs.blocks index b hindex hb
      · exact fun n hn => (hrules n hn).lenient hl

end Store

/-- The computation keeps stores tidy, and ends with `post` if it does not fail. -/
def Tidies {α : Type} (start : Start) (x : CompileM α) (post : α → Prop) : Prop :=
  ∀ s : Store, s.Tidy start →
    Ensures x s (fun a t => post a ∧ t.Tidy start) fun _ _ => True

namespace Tidies

variable {α β : Type} {x : CompileM α} {f : α → CompileM β} {post post' : α → Prop}
  {post₂ : β → Prop}

theorem mono (h : Tidies start x post) (hpost : ∀ a, post a → post' a) : Tidies start x post' :=
  fun s hs => (h s hs).mono (fun a _ ha => ⟨hpost a ha.1, ha.2⟩) fun _ _ _ => trivial

theorem pure {a : α} (h : post a) : Tidies start (Pure.pure a) post := fun _ hs => ⟨h, hs⟩

theorem throw (e : Error) : Tidies start (MonadExcept.throw e : CompileM α) post :=
  fun _ _ => trivial

theorem of_except {y : Except Error α} (h : ∀ a, y = .ok a → post a) :
    Tidies start (ofExcept y) post :=
  fun _ hs => ensures_ofExcept.2 ⟨fun a ha => ⟨h a ha, hs⟩, fun _ _ => trivial⟩

theorem any_except (y : Except Error α) : Tidies start (ofExcept y) fun _ => True :=
  of_except fun _ _ => trivial

theorem bind (hx : Tidies start x post) (hf : ∀ a, post a → Tidies start (f a) post₂) :
    Tidies start (x >>= f) post₂ := by
  intro s hs
  rw [ensures_bind]
  refine (hx s hs).mono ?_ fun _ _ _ => trivial
  rintro a t ⟨ha, ht⟩
  exact hf a ha t ht

theorem get {f : Store → CompileM β}
    (hf : ∀ s, s.Tidy start →
      Ensures (f s) s (fun b t => post₂ b ∧ t.Tidy start) fun _ _ => True) :
    Tidies start (MonadState.get >>= f) post₂ := by
  intro s hs
  rw [ensures_bind, ensures_get]
  exact hf s hs

theorem lift {x : StateM Store α}
    (h : ∀ s, s.Tidy start → post (x.run s).1 ∧ (x.run s).2.Tidy start) :
    Tidies start (liftM x) post := h

theorem record (e : Event) : Tidies start (liftM (Stylesheet.record e)) fun _ => True :=
  fun s hs => ⟨trivial, hs.quiet (s.quiet_record e)⟩

/-- A ruleset that is built is within reach. -/
theorem build (header : Header) (rules : List Node) (source : Option Nat) :
    Tidies start (liftM (Ruleset.build header rules source)) fun r =>
      r.header = header ∧ r.rules = rules ∧ (start.lenient → start.reach.ruleset r.serial) := by
  intro s hs
  refine ⟨⟨rfl, rfl, fun hl => ?_⟩, hs.quiet (KeepsBooks.build header rules source s)⟩
  exact (hs.lenient hl).rulesets s.nextSerial (Nat.le_refl _)

end Tidies

/-- A lookup in a lenient scope finds lenient candidates. -/
theorem tidies_mixin {sc : Scope} (hsc : start.lenient → sc.Lenient start.reach)
    (query : Selector) :
    Tidies start (liftM (sc.mixin query)) fun found =>
      ∀ candidates, found = some candidates → ∀ c ∈ candidates,
        start.lenient → c.Lenient start.reach := by
  refine .lift fun s hs => ?_
  have hlearns := learns_mixin sc query s
  have keeps : FindKeeps (Store.Lenient start.reach) (Candidate.Lenient start.reach)
      (Node.Lenient start.reach) start.reach.ruleset :=
    { record := fun s e h => h.later rfl rfl (Nat.le_refl _)
      remember := by
        intro s serial key found _ h hfound
        refine ⟨h.rulesets, h.added, h.blocks, ?_⟩
        intro serial' key' found' hserial' hfound'
        rw [Store.remembered?, Store.remember, List.lookup_cons] at hfound'
        split at hfound'
        · obtain rfl := Option.some.inj hfound'
          exact hfound
        · exact h.memo serial' key' found' hserial' hfound'
      remembered := fun s serial key found hserial h hfound =>
        h.memo serial key found hserial hfound
      ruleset := by
        intro r hr
        cases hr with
        | ruleset hserial hheader hrules => exact ⟨hserial, .ruleset hserial hheader hrules, hrules⟩
      definition := fun d hd => ⟨hd, Candidate.Lenient.rules (c := .definition d) hd⟩ }
  have hfound : start.lenient → Store.Lenient start.reach ((sc.mixin query).run s).2 ∧
      ∀ candidates, ((sc.mixin query).run s).1 = some candidates →
        ∀ c ∈ candidates, c.Lenient start.reach :=
    fun hl => keeps.answers_frames (hsc hl).frames (hs.lenient hl)
  refine ⟨fun candidates hcandidates c hc hl => (hfound hl).2 candidates hcandidates c hc, ?_⟩
  refine ⟨?_, ?_, fun hl => (hfound hl).1⟩
  · rw [hlearns.blocks]
    exact hs.length
  · rw [hlearns.blocks]
    exact hs.blocks

end Stylesheet
