import Stylesheet.Proofs.Compile.Sound
import Stylesheet.Proofs.Rule.Settled

/-!
# Blocks in layers

What is compiled has no media block of its own any more, only numbers of blocks. Blocks that are
added by a computation refer only to blocks that it added before. So they can be read without the
blocks of before, and when each of them is changed in one way (wrapped in selectors, or marked as
important), then what they read as is changed in that way as a whole.
-/

namespace Stylesheet

namespace Node

/-- The nodes refer only to blocks from `first` on and before `last`. -/
def ReferWithin (first last : Nat) (nodes : List Node) : Prop :=
  ∀ i ∈ allBlockIndices nodes, first ≤ i ∧ i < last

mutual

/-- Every media block in the node is a block with a number from `first` on and before `last`. -/
def Hoisted (first last : Nat) : Node → Prop
  | .block index => first ≤ index ∧ index < last
  | .media _ _ => False
  | .ruleset ⟨_, _, _, rules⟩ => AllHoisted first last rules
  | .directive _ (some rules) => AllHoisted first last rules
  | _ => True

/-- Every media block in the nodes is a block with a number from `first` on and before `last`. -/
def AllHoisted (first last : Nat) : List Node → Prop
  | [] => True
  | node :: nodes => Hoisted first last node ∧ AllHoisted first last nodes

end

variable {first first' last last' : Nat} {n : Node} {nodes l m : List Node}

theorem allHoisted_iff : AllHoisted first last nodes ↔ ∀ n ∈ nodes, n.Hoisted first last := by
  induction nodes with
  | nil => simp [AllHoisted]
  | cons n nodes ih => rw [AllHoisted, ih, List.forall_mem_cons]

theorem AllHoisted.append (hl : AllHoisted first last l) (hm : AllHoisted first last m) :
    AllHoisted first last (l ++ m) :=
  allHoisted_iff.2 (List.forall_mem_append.2 ⟨allHoisted_iff.1 hl, allHoisted_iff.1 hm⟩)

mutual

theorem Hoisted.mono : ∀ {n : Node}, n.Hoisted first last → first' ≤ first → last ≤ last' →
    n.Hoisted first' last'
  | .block _, h, hfirst, hlast => ⟨Nat.le_trans hfirst h.1, Nat.lt_of_lt_of_le h.2 hlast⟩
  | .ruleset ⟨_, _, _, _⟩, h, hfirst, hlast => AllHoisted.mono h hfirst hlast
  | .directive _ (some _), h, hfirst, hlast => AllHoisted.mono h hfirst hlast
  | .declaration _, _, _, _ | .definition _, _, _, _ | .call _, _, _, _ | .inclusion _, _, _, _
  | .comment _, _, _, _ | .directive _ none, _, _, _ => trivial

theorem AllHoisted.mono : ∀ {nodes : List Node}, AllHoisted first last nodes → first' ≤ first →
    last ≤ last' → AllHoisted first' last' nodes
  | [], _, _, _ => trivial
  | _ :: _, h, hfirst, hlast => ⟨h.1.mono hfirst hlast, h.2.mono hfirst hlast⟩

end

mutual

theorem Hoisted.referWithin : ∀ {n : Node}, n.Hoisted first last →
    ∀ i ∈ n.blockIndices, first ≤ i ∧ i < last
  | .block _, h, _, hi => List.mem_singleton.1 hi ▸ h
  | .ruleset ⟨_, _, _, _⟩, h, _, hi => AllHoisted.referWithin h _ hi
  | .directive _ (some _), h, _, hi => AllHoisted.referWithin h _ hi

theorem AllHoisted.referWithin : ∀ {nodes : List Node}, AllHoisted first last nodes →
    ReferWithin first last nodes
  | _ :: _, h, i, hi =>
    (List.mem_append.1 hi).elim (Hoisted.referWithin h.1 i) (AllHoisted.referWithin h.2 i)

end

mutual

theorem Hoisted.renew : ∀ {n : Node}, n.Hoisted first last → ∀ next : Nat,
    ((Node.renew n).run next).1.Hoisted first last
  | .ruleset ⟨_, _, _, _⟩, h, next => AllHoisted.renewAll h (next + 1)
  | .directive _ (some _), h, next => AllHoisted.renewAll h next
  | .block _, h, _ => h
  | .declaration _, _, _ | .definition _, _, _ | .call _, _, _ | .inclusion _, _, _
  | .comment _, _, _ | .directive _ none, _, _ => trivial

theorem AllHoisted.renewAll : ∀ {nodes : List Node}, AllHoisted first last nodes →
    ∀ next : Nat, AllHoisted first last ((Node.renewAll nodes).run next).1
  | [], _, _ => trivial
  | n :: _, h, next => ⟨h.1.renew next, h.2.renewAll ((Node.renew n).run next).2⟩

end

mutual

theorem Hoisted.markImportant : ∀ {n : Node}, n.Hoisted first last →
    n.markImportant.Hoisted first last
  | .ruleset ⟨_, _, _, _⟩, h => AllHoisted.markAllImportant h
  | .directive _ (some _), h => AllHoisted.markAllImportant h
  | .block _, h => h
  | .declaration _, _ | .definition _, _ | .call _, _ | .inclusion _, _ | .comment _, _
  | .directive _ none, _ => trivial

theorem AllHoisted.markAllImportant : ∀ {nodes : List Node}, AllHoisted first last nodes →
    AllHoisted first last (Node.markAllImportant nodes)
  | [], _ => trivial
  | _ :: _, h => ⟨h.1.markImportant, h.2.markAllImportant⟩

end

end Node

/-- The blocks from `first` on refer only to blocks from there on that come before them. -/
def LayeredFrom (first : Nat) (blocks : List Block) : Prop :=
  ∀ index b, first ≤ index → blocks[index]? = some b → Node.AllHoisted first index b.rules

section Layers

variable {first index : Nat} {blocks blocks' : List Block} {nodes : List Node} {b : Block}

theorem layeredFrom_length (blocks : List Block) : LayeredFrom blocks.length blocks := by
  intro index b hindex hb
  rw [List.getElem?_eq_none hindex] at hb
  cases hb

/-- Layers above layers. -/
theorem LayeredFrom.trans (h : LayeredFrom first blocks) (hfirst : first ≤ blocks.length)
    (hgrow : blocks <+: blocks') (h' : LayeredFrom blocks.length blocks') :
    LayeredFrom first blocks' := by
  intro index b hindex hb
  by_cases hlt : index < blocks.length
  · obtain ⟨more, rfl⟩ := hgrow
    rw [List.getElem?_append_left hlt] at hb
    exact h index b hindex hb
  · exact (h' index b (Nat.not_lt.1 hlt) hb).mono hfirst (Nat.le_refl index)

/-- One more block, whose rules refer to the ones before it. -/
theorem LayeredFrom.concat (h : LayeredFrom first blocks)
    (hrules : Node.AllHoisted first blocks.length b.rules) : LayeredFrom first (blocks ++ [b]) := by
  intro index b' hindex hb'
  by_cases hlt : index < blocks.length
  · rw [List.getElem?_append_left hlt] at hb'
    exact h index b' hindex hb'
  · have hle : blocks.length ≤ index := Nat.not_lt.1 hlt
    rw [List.getElem?_append_right hle] at hb'
    obtain rfl := List.mem_singleton.1 (List.mem_of_getElem? hb')
    exact hrules.mono (Nat.le_refl first) hle

/-- More blocks do not change what nodes read as. -/
theorem readAll_of_extends (hgrow : blocks <+: blocks')
    (hnodes : Node.ReferWithin first blocks.length nodes) :
    Node.readAll (readBlocks blocks') nodes = Node.readAll (readBlocks blocks) nodes :=
  Node.readAll_congr nodes fun i hi => readBlocks_of_extends hgrow (hnodes i hi).2

/-- A block that refers to blocks before it reads as a media rule. -/
theorem LayeredFrom.readBlocks_eq (h : LayeredFrom first blocks) (hindex : first ≤ index)
    (hb : blocks[index]? = some b) :
    readBlocks blocks index = .media b.head (Node.readAll (readBlocks blocks) b.rules) := by
  rw [readBlocks_of_getElem? hb]
  refine congrArg (Rule.media b.head) (Node.readAll_congr b.rules fun i hi => ?_)
  exact lookBelow_of_lt _ ((h index b hindex hb).referWithin i hi).2

end Layers

section Heights

variable {look : Nat → Rule} {tops : List Nat}

mutual

/-- A node is at least as high as what it reads as, if that is so for the blocks. -/
theorem Node.height_read_le : ∀ n : Node,
    (∀ i ∈ n.blockIndices, (look i).height ≤ (tops[i]?).getD 0) →
      (n.read look).height ≤ n.height tops
  | .block index, h => h index (List.mem_singleton.2 rfl)
  | .ruleset ⟨_, _, _, rules⟩, h | .media _ rules, h | .directive _ (some rules), h =>
    Nat.succ_le_succ (heights_readAll_le rules h)
  | .declaration _, _ | .definition ⟨_, _, _⟩, _ | .call _, _ | .inclusion _, _ | .comment _, _
  | .directive _ none, _ => Nat.le_refl 0

theorem Node.heights_readAll_le : ∀ nodes : List Node,
    (∀ i ∈ allBlockIndices nodes, (look i).height ≤ (tops[i]?).getD 0) →
      Rule.heights (readAll look nodes) ≤ heights tops nodes
  | [], _ => Nat.le_refl 0
  | n :: nodes, h => by
    rw [allBlockIndices, List.forall_mem_append] at h
    rw [readAll, Rule.heights, heights]
    have hn := height_read_le n h.1
    have hnodes := heights_readAll_le nodes h.2
    omega

end

variable {first : Nat} {s : Store} {nodes : List Node}

theorem LayeredFrom.height_readBlocks_le (h : LayeredFrom first s.blocks) {index : Nat}
    (hfirst : first ≤ index) (hindex : index < s.blocks.length) :
    (readBlocks s.blocks index).height ≤ (s.blockHeights[index]?).getD 0 := by
  induction index using Nat.strongRecOn with
  | ind index ih =>
    have hb := List.getElem?_eq_getElem hindex
    rw [h.readBlocks_eq hfirst hb, Store.blockHeights_of_getElem? hb]
    refine Nat.succ_le_succ (Node.heights_readAll_le _ fun i hi => ?_)
    obtain ⟨hlo, hhi⟩ := (h index _ hfirst hb).referWithin i hi
    rw [List.getElem?_take_of_lt hhi]
    exact ih i hhi hlo (Nat.lt_trans hhi hindex)

theorem LayeredFrom.heights_rulesOf_le (h : LayeredFrom first s.blocks)
    (hnodes : Node.ReferWithin first s.blocks.length nodes) :
    Rule.heights (s.rulesOf nodes) ≤ s.heights nodes := by
  rw [Store.rulesOf_eq_readAll, Store.heights]
  refine Node.heights_readAll_le nodes fun i hi => ?_
  exact h.height_readBlocks_le (hnodes i hi).1 (hnodes i hi).2

end Heights

section Changes

variable {first : Nat} {R : Block → Block → Prop} {s t : Store}

/-- Where changed blocks refer to blocks of their layer still, the layers stay. -/
theorem LayeredFrom.reworks (h : LayeredFrom first s.blocks) (hst : s.Reworks first R t)
    (hR : ∀ b b', R b b' → ∀ index, Node.AllHoisted first index b.rules →
      Node.AllHoisted first index b'.rules) : LayeredFrom first t.blocks := by
  intro index b hindex hb
  obtain ⟨old, hold⟩ : ∃ old, s.blocks[index]? = some old := by
    refine ⟨_, List.getElem?_eq_getElem ?_⟩
    rw [← hst.length_eq]
    exact (List.getElem?_eq_some_iff.1 hb).1
  obtain ⟨b', hb', hrel⟩ := hst.getElem?_of_le hindex hold
  obtain rfl : b' = b := Option.some.inj (hb'.symm.trans hb)
  exact hR old b' hrel index (h index old hindex hold)

/-- A change of blocks that commutes with reading changes what every block reads as. -/
theorem readBlocks_of_reworks {change : Rule → Rule} (h : LayeredFrom first s.blocks)
    (hst : s.Reworks first R t)
    (hR : ∀ b b', R b b' → ∀ index (look look' : Nat → Rule),
      Node.AllHoisted first index b.rules →
      (∀ i ∈ Node.allBlockIndices b.rules, look' i = change (look i)) →
        Rule.media b'.head (Node.readAll look' b'.rules) =
          change (.media b.head (Node.readAll look b.rules)))
    {index : Nat} (hfirst : first ≤ index) (hindex : index < s.blocks.length) :
    readBlocks t.blocks index = change (readBlocks s.blocks index) := by
  induction index using Nat.strongRecOn with
  | ind index ih =>
    have hold := List.getElem?_eq_getElem hindex
    have hhoisted := h index _ hfirst hold
    obtain ⟨b, hb, hrel⟩ := hst.getElem?_of_le hfirst hold
    rw [readBlocks_of_getElem? hb, readBlocks_of_getElem? hold]
    refine hR _ b hrel index _ _ hhoisted fun i hi => ?_
    obtain ⟨hlo, hhi⟩ := hhoisted.referWithin i hi
    rw [lookBelow_of_lt _ hhi, lookBelow_of_lt _ hhi]
    exact ih i hhi hlo (Nat.lt_trans hhi hindex)

end Changes

section Bubbling

variable {first last : Nat} {look look' : Nat → Rule} {selectors : List Selector}

mutual

/-- Where each block is bubbled, what a node reads as is bubbled. -/
theorem Node.read_bubble : ∀ {n : Node}, n.Hoisted first last →
    (∀ i ∈ n.blockIndices, look' i = (look i).bubble selectors) →
      n.read look' = (n.read look).bubble selectors
  | .block index, _, h => h index (List.mem_singleton.2 rfl)
  | .ruleset ⟨_, _, header, _⟩, hhoisted, h =>
    congrArg (Rule.ruleset header) (readAll_bubbleAll hhoisted h)
  | .directive head (some _), hhoisted, h =>
    congrArg (fun rules => Rule.directive head (some rules)) (readAll_bubbleAll hhoisted h)
  | .declaration _, _, _ | .definition ⟨_, _, _⟩, _, _ | .call _, _, _ | .inclusion _, _, _
  | .comment _, _, _ | .directive _ none, _, _ => rfl

theorem Node.readAll_bubbleAll : ∀ {nodes : List Node}, AllHoisted first last nodes →
    (∀ i ∈ allBlockIndices nodes, look' i = (look i).bubble selectors) →
      readAll look' nodes = Rule.bubbleAll selectors (readAll look nodes)
  | [], _, _ => rfl
  | _ :: _, hhoisted, h => by
    rw [allBlockIndices, List.forall_mem_append] at h
    rw [readAll, readAll, Rule.bubbleAll, read_bubble hhoisted.1 h.1,
      readAll_bubbleAll hhoisted.2 h.2]

end

variable {s : Store} {nodes : List Node}

/-- Bubbling bubbles what nodes read as that refer to blocks from there on. -/
theorem readAll_of_bubble (hselectors : selectors ≠ []) (h : LayeredFrom first s.blocks)
    (hnodes : Node.AllHoisted first s.blocks.length nodes) :
    Node.readAll (readBlocks ((bubble selectors first).run s).2.blocks) nodes =
      Rule.bubbleAll selectors (Node.readAll (readBlocks s.blocks) nodes) := by
  refine Node.readAll_bubbleAll hnodes fun i hi => ?_
  obtain ⟨hlo, hhi⟩ := hnodes.referWithin i hi
  refine readBlocks_of_reworks h (reworks_bubble_of_ne_nil hselectors first s) ?_ hlo hhi
  rintro b b' ⟨n, -, rfl⟩ index look look' hhoisted hlook
  rw [Rule.bubble, ← Node.readAll_bubbleAll hhoisted hlook]
  rfl

end Bubbling

section Marking

variable {first : Nat} {look look' : Nat → Rule} {s : Store} {nodes : List Node}

theorem Node.readAll_markAllImportant_renewAll (next : Nat)
    (h : ∀ i ∈ allBlockIndices nodes, look' i = (look i).markImportant) :
    readAll look' (markAllImportant ((renewAll nodes).run next).1) =
      Rule.markAllImportant (readAll look nodes) := by
  rw [← allBlockIndices_renewAll nodes next] at h
  rw [readAll_markAllImportant _ h, readAll_renewAll]

/-- Marking marks what nodes read as that refer to blocks from there on. -/
theorem readAll_of_markImportant (h : LayeredFrom first s.blocks)
    (hnodes : Node.AllHoisted first s.blocks.length nodes) :
    Node.readAll (readBlocks ((markImportant first nodes).run s).2.blocks)
        ((markImportant first nodes).run s).1 =
      Rule.markAllImportant (Node.readAll (readBlocks s.blocks) nodes) := by
  rw [run_markImportant]
  refine Node.readAll_markAllImportant_renewAll _ fun i hi => ?_
  obtain ⟨hlo, hhi⟩ := hnodes.referWithin i hi
  refine readBlocks_of_reworks h (reworks_markImportant first nodes s) ?_ hlo hhi
  rintro b b' ⟨n, -, rfl⟩ index look look' - hlook
  rw [Rule.markImportant, ← Node.readAll_markAllImportant_renewAll n hlook]

end Marking

end Stylesheet
