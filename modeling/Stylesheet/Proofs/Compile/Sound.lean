import Stylesheet.Proofs.Compile.Growth
import Stylesheet.Proofs.Except
import Stylesheet.Proofs.Node.Sound

/-!
# Sound stores and scopes

A store is sound if the rules of each block were compiled and refer only to blocks
before it, and if the answers that it remembers refer only to blocks that there are. A
scope is ready for a sound store if its frames refer only to such blocks as well and
its sources hold fitting rules. Outside of mixins, all definitions that stand in the
frames of such a scope have hold of frames. Inside of mixins, some may have none, in the
frames that the definition of the mixin has hold of.

The height of a block counts the rules of the blocks inside it, so each reference
from a block to an earlier one costs a level. What is left of the sources counts as
well: each source is put in once.
-/

namespace Stylesheet

variable {fit : Fit}

/-- The candidate is sound as a node. -/
def Candidate.Sound (fit : Fit) (bound : Nat) (c : Candidate) : Prop :=
  c.node.Sound fit bound

theorem Candidate.Sound.rules {bound : Nat} {c : Candidate} (h : c.Sound fit bound) :
    Node.AllSound fit bound c.rules := by
  cases c with
  | ruleset r => exact Node.Sound.rules h
  | definition d =>
    cases h with
    | definition _ hrules _ _ _ => exact hrules

theorem Candidate.Sound.settled {bound : Nat} {c : Candidate} (h : c.Sound fit bound) :
    Node.Settled fit c.rules := by
  cases c with
  | ruleset r => exact Node.Sound.settled h
  | definition d =>
    cases h with
    | definition huntouched _ _ _ _ => exact huntouched.settled

/-- The frames that a sound candidate brings along are sound. -/
theorem Candidate.Sound.closure {bound : Nat} {c : Candidate} (h : c.Sound fit bound) :
    ∀ frame ∈ c.closure, Node.AllSound fit bound frame.rules ∧ frame.InView fit := by
  cases c with
  | ruleset r => exact fun frame hframe => by cases hframe
  | definition d =>
    cases h with
    | definition _ _ _ hview hframes =>
      cases hclosure : d.closure with
      | none => simp [Candidate.closure, hclosure]
      | some frames =>
        rw [Candidate.closure, hclosure, Option.getD_some]
        exact fun frame hframe =>
          ⟨hframes frames hclosure frame hframe, hview frames hclosure frame hframe⟩

/-- The rules of the block are sound, and they are a copy of rules that were read, compiled. -/
structure Block.Sound (fit : Fit) (bound : Nat) (b : Block) : Prop where
  rules : Node.AllSound fit bound b.rules
  compiled : Node.AllCompiled b.rules
  copied : Node.Copied fit b.rules

namespace Store

/-- The blocks and the answers of a store refer only to what is there. -/
structure Sound (fit : Fit) (s : Store) : Prop where
  blocks : ∀ (index : Nat) (b : Block), s.blocks[index]? = some b → b.Sound fit index
  memo : ∀ entry ∈ s.memo, ∀ c ∈ entry.2, c.Sound fit s.blocks.length

variable {s t : Store}

theorem sound_empty : Store.Sound fit {} where
  blocks := fun index b h => by simp at h
  memo := fun entry h => by cases h

theorem Quiet.sound (h : s.Quiet t) (hs : s.Sound fit) : t.Sound fit where
  blocks := by rw [h.blocks]; exact hs.blocks
  memo := by rw [h.memo, h.blocks]; exact hs.memo

/-- Reworked blocks are sound if each new one is as sound as the one that it replaces. -/
theorem Reworks.sound {first : Nat} {R : Block → Block → Prop} (h : s.Reworks first R t)
    (hs : s.Sound fit)
    (hR : ∀ index (b b' : Block), R b b' → b.Sound fit index → b'.Sound fit index) :
    t.Sound fit ∧ t.blocks.length = s.blocks.length := by
  refine ⟨⟨?_, ?_⟩, h.length_eq⟩
  · intro index b hb
    rcases h.getElem? hb with hold | ⟨-, old, hold, hrel⟩
    · exact hs.blocks index b hold
    · exact hR index old b hrel (hs.blocks index old hold)
  · rw [h.memo, h.length_eq]
    exact hs.memo

section Heights

variable {index : Nat} {b : Block}

theorem length_blockHeights (s : Store) : s.blockHeights.length = s.blocks.length := by
  rw [blockHeights, length_foldl_concat]
  exact Nat.zero_add _

theorem Grows.blockHeights (h : s.Grows t) : s.blockHeights <+: t.blockHeights :=
  prefix_foldl_concat h.blocks

/-- Nodes that were sound before the store grew are as high as they were. -/
theorem Grows.heights_eq (h : s.Grows t) {nodes : List Node}
    (hnodes : Node.AllSound fit s.blocks.length nodes) : t.heights nodes = s.heights nodes := by
  refine hnodes.heights_congr ?_
  intro index hindex
  obtain ⟨added, hadded⟩ := h.blockHeights
  rw [← hadded, List.getElem?_append_left (by rwa [length_blockHeights])]

/-- A block is one higher than its rules, with the blocks before it. -/
theorem blockHeights_of_getElem? (hb : s.blocks[index]? = some b) :
    s.blockHeights[index]? = some (Node.heights (s.blockHeights.take index) b.rules + 1) :=
  getElem?_foldl_concat hb

/-- A block is one higher than its rules. -/
theorem Sound.blockHeight (hs : s.Sound fit) (hb : s.blocks[index]? = some b) :
    s.blockHeights[index]? = some (s.heights b.rules + 1) := by
  rw [blockHeights_of_getElem? hb, heights]
  refine congrArg (fun height => some (height + 1)) ?_
  exact (hs.blocks index b hb).rules.heights_congr fun i hi => List.getElem?_take_of_lt hi

end Heights

end Store

namespace Sources

/-- The sum of the heights of the sources that were not put in yet. -/
def unread (table : Sources) (imported : List String) : Nat :=
  table.foldr
    (fun entry total => if entry.1 ∈ imported then total else Rule.heights entry.2 + total) 0

variable {table : Sources} {imported imported' : List String}

theorem unread_cons (entry : String × List Rule) (table : Sources) (imported : List String) :
    unread (entry :: table) imported =
      if entry.1 ∈ imported then unread table imported
      else Rule.heights entry.2 + unread table imported := rfl

theorem unread_le_height (table : Sources) (imported : List String) :
    unread table imported ≤ table.height := by
  induction table with
  | nil => exact Nat.le_refl _
  | cons entry table ih =>
    have hheight : height (entry :: table) = Rule.heights entry.2 + height table := rfl
    rw [unread_cons, hheight]
    split <;> omega

theorem unread_anti (h : imported ⊆ imported') :
    unread table imported' ≤ unread table imported := by
  induction table with
  | nil => exact Nat.le_refl _
  | cons entry table ih =>
    rw [unread_cons, unread_cons]
    by_cases hold : entry.1 ∈ imported
    · rw [if_pos hold, if_pos (h hold)]
      exact ih
    · rw [if_neg hold]
      split <;> omega

/-- Putting in a source takes its height off what is left. -/
theorem unread_add_heights_le {path : String} {rules : List Rule}
    (h : table.lookup path = some rules) (hnew : path ∉ imported) :
    unread table (path :: imported) + Rule.heights rules ≤ unread table imported := by
  induction table with
  | nil => cases h
  | cons entry table ih =>
    obtain ⟨key, found⟩ := entry
    rw [unread_cons, unread_cons]
    by_cases hkey : path = key
    · subst hkey
      obtain rfl : found = rules := by simpa using h
      have hanti : unread table (path :: imported) ≤ unread table imported :=
        unread_anti (List.subset_cons_self path imported)
      rw [if_pos (by simp), if_neg hnew]
      dsimp only
      omega
    · have hrest : table.lookup path = some rules := by
        rwa [List.lookup_cons, show (path == key) = false by simpa using hkey] at h
      have hle := ih hrest
      by_cases hmem : key ∈ imported
      · rw [if_pos (by simp [hmem]), if_pos hmem]
        exact hle
      · rw [if_neg (by simp [hmem, Ne.symm hkey]), if_neg hmem]
        omega

end Sources

namespace Scope

/-- The sum of the heights of the sources that were not put in yet. -/
def unread (sc : Scope) (s : Store) : Nat := (sc.sources.getD []).unread s.imported

theorem unread_le_of_grows {s t : Store} (sc : Scope) (h : s.Grows t) :
    sc.unread t ≤ sc.unread s := Sources.unread_anti h.imported.subset

/-- The levels that a compilation starts with are enough for the rules and all sources. -/
theorem heights_add_unread_le_levels (sc : Scope) (s : Store) (rules : List Node) :
    s.heights rules + 1 + sc.unread s ≤ sc.levels s rules := by
  have hle : sc.unread s ≤ (sc.sources.map Sources.height).getD 0 := by
    rw [unread]
    cases sc.sources with
    | none => exact Nat.le_refl 0
    | some table => exact Sources.unread_le_height table _
  rw [levels]
  omega

/-- The scope refers only to blocks that are in the store, and its sources fit. Outside of mixins,
definitions in the frames have hold of frames. -/
structure Ready (fit : Fit) (sc : Scope) (s : Store) : Prop where
  frames : ∀ frame ∈ sc.frames, Node.AllSound fit s.blocks.length frame.rules
  captured : sc.depth = 0 → ∀ frame ∈ sc.frames, Node.AllCaptured frame.rules
  view : ∀ frame ∈ sc.frames, frame.InView fit
  sources : ∀ table, sc.sources = some table → ∀ entry ∈ table, ∀ rule ∈ entry.2, rule.Fits fit
  store : s.Sound fit

variable {sc : Scope} {s t : Store}

theorem Ready.later (h : sc.Ready fit s) (hgrows : s.Grows t) (ht : t.Sound fit) :
    sc.Ready fit t where
  frames := fun frame hframe => (h.frames frame hframe).mono hgrows.length_le
  captured := h.captured
  view := h.view
  sources := h.sources
  store := ht

theorem Ready.enter (h : sc.Ready fit s) {frame : Ruleset} (selectors : List Selector)
    (hframe : Node.AllSound fit s.blocks.length frame.rules)
    (hcaptured : Node.AllCaptured frame.rules) : (sc.enter frame selectors).Ready fit s where
  frames := List.forall_mem_cons.2 ⟨hframe, h.frames⟩
  captured := fun hdepth => List.forall_mem_cons.2 ⟨hcaptured, h.captured hdepth⟩
  view := List.forall_mem_cons.2 ⟨.inl hcaptured, h.view⟩
  sources := h.sources
  store := h.store

end Scope

/-- A lookup in a scope that is ready finds sound candidates. -/
theorem sound_mixin {sc : Scope} {s : Store} (h : sc.Ready fit s) (query : Selector) :
    ((sc.mixin query).run s).2.Sound fit ∧
      ∀ found, ((sc.mixin query).run s).1 = some found →
        ∀ c ∈ found, c.Sound fit s.blocks.length := by
  have keeps : FindKeeps (fun t => t.Sound fit ∧ s.Learns t) (Candidate.Sound fit s.blocks.length)
      (Node.Sound fit s.blocks.length) (fun _ => True) :=
    { record := by
        rintro t e ⟨ht, hlearns⟩
        exact ⟨(t.quiet_record e).sound ht, hlearns.record e⟩
      remember := by
        rintro t serial key found - ⟨ht, hlearns⟩ hfound
        refine ⟨⟨ht.blocks, ?_⟩, hlearns.remember serial key found⟩
        intro entry hentry
        rcases List.mem_cons.1 hentry with rfl | hentry
        · change ∀ c ∈ found, c.Sound fit t.blocks.length
          rwa [hlearns.blocks]
        · exact ht.memo entry hentry
      remembered := by
        rintro t serial key found - ⟨ht, hlearns⟩ hfound
        obtain ⟨before, after, hmemo, -⟩ := List.lookup_eq_some_iff.1 hfound
        rw [← hlearns.blocks]
        exact ht.memo ((serial, key), found) (by rw [hmemo]; simp)
      ruleset := fun r hr => ⟨trivial, hr, hr.rules⟩
      definition := fun d hd => ⟨hd, Candidate.Sound.rules (c := .definition d) hd⟩ }
  obtain ⟨⟨hsound, -⟩, hfound⟩ :=
    keeps.answers_frames (fun frame hframe => ⟨trivial, h.frames frame hframe⟩)
      ⟨h.store, .refl s⟩
  exact ⟨hsound, hfound⟩

end Stylesheet
