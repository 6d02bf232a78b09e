import Mathlib.Data.List.Perm.Basic
import Stylesheet.Proofs.Compile.Finish
import Stylesheet.Proofs.Node.Layers

/-!
# Where blocks occur

Nodes refer to media blocks by number, and the rules of a block refer to other blocks. If all blocks
are put in their places, then nodes become a tree, in which a block may occur more than once.

A computation enrolls the blocks that it adds if each of them is referred to once, by the nodes that
it gives or by another block that it adds, and if blocks refer to earlier blocks only. Computations
that do so can be put one after the other, their blocks can be changed, and a new block can be made
of the nodes. In the tree of the nodes, each of the blocks then occurs once.
-/

namespace Stylesheet

namespace Store

/-- The numbers of the blocks that a block refers to. -/
def referred (s : Store) (index : Nat) : List Nat :=
  ((s.blocks[index]?).map fun b => Node.allBlockIndices b.rules).getD []

/-- For each block, the numbers of the blocks in its tree. The first one is its own. -/
def occurrences (s : Store) : List (List Nat) :=
  s.blocks.foldl (fun lists b => lists ++ [lists.length ::
    (Node.allBlockIndices b.rules).flatMap fun index => (lists[index]?).getD [index]]) []

/-- The numbers of the blocks in the tree of some nodes, outside of mixin definitions. -/
def mediaIn (s : Store) (nodes : List Node) : List Nat :=
  (Node.allBlockIndices nodes).flatMap fun index => (s.occurrences[index]?).getD [index]

/-- From the first store to the second, blocks were added. They refer to earlier ones among them,
and each of them is referred to once, by the nodes or by another one. -/
structure Enrolls (s : Store) (nodes : List Node) (t : Store) : Prop where
  grows : s.blocks <+: t.blocks
  layered : LayeredFrom s.blocks.length t.blocks
  hoisted : Node.AllHoisted s.blocks.length t.blocks.length nodes
  once : (Node.allBlockIndices nodes ++
      (List.range' s.blocks.length (t.blocks.length - s.blocks.length)).flatMap t.referred).Perm
    (List.range' s.blocks.length (t.blocks.length - s.blocks.length))

variable {s t u : Store} {nodes more : List Node} {index : Nat}

theorem referred_of_getElem? {b : Block} (hb : s.blocks[index]? = some b) :
    s.referred index = Node.allBlockIndices b.rules := by
  rw [referred, hb]
  rfl

theorem referred_of_grows (h : s.blocks <+: t.blocks) (hindex : index < s.blocks.length) :
    t.referred index = s.referred index := by
  obtain ⟨added, hadded⟩ := h
  rw [referred, referred, ← hadded, List.getElem?_append_left hindex]

end Store

namespace Node

mutual

theorem blockIndices_markImportant : ∀ n : Node, n.markImportant.blockIndices = n.blockIndices
  | .ruleset ⟨_, _, _, rules⟩ | .media _ rules | .directive _ (some rules) =>
    allBlockIndices_markAllImportant rules
  | .declaration _ | .definition _ | .call _ | .inclusion _ | .comment _ | .block _
  | .directive _ none => rfl

theorem allBlockIndices_markAllImportant : ∀ nodes : List Node,
    allBlockIndices (markAllImportant nodes) = allBlockIndices nodes
  | [] => rfl
  | n :: nodes => by
    rw [markAllImportant, allBlockIndices, allBlockIndices, blockIndices_markImportant n,
      allBlockIndices_markAllImportant nodes]

end

theorem allBlockIndices_eq_flatMap (nodes : List Node) :
    allBlockIndices nodes = nodes.flatMap blockIndices := by
  induction nodes with
  | nil => rfl
  | cons n nodes ih => rw [allBlockIndices, ih, List.flatMap_cons]

theorem allBlockIndices_filter {keep : Node → Bool} {nodes : List Node}
    (h : ∀ n, keep n = false → n.blockIndices = []) :
    allBlockIndices (nodes.filter keep) = allBlockIndices nodes := by
  induction nodes with
  | nil => rfl
  | cons n nodes ih =>
    cases hn : keep n with
    | true => rw [List.filter_cons_of_pos hn, allBlockIndices, allBlockIndices, ih]
    | false =>
      rw [List.filter_cons_of_neg (by simp [hn]), allBlockIndices, h n hn, ih, List.nil_append]

end Node

/-- The numbers between three bounds. -/
theorem range'_append_range' {first middle last : Nat} (h : first ≤ middle) (h' : middle ≤ last) :
    List.range' first (middle - first) ++ List.range' middle (last - middle) =
      List.range' first (last - first) := by
  have hmiddle : first + (middle - first) = middle := by omega
  have hlast : middle - first + (last - middle) = last - first := by omega
  have happend : List.range' first (middle - first) ++
      List.range' (first + (middle - first)) (last - middle) =
        List.range' first (middle - first + (last - middle)) := List.range'_append_1
  rwa [hmiddle, hlast] at happend

/-- What blocks refer to, for those of before and for those that were added. -/
theorem Store.flatMap_referred_of_grows {s t : Store} {first : Nat} (h : s.blocks <+: t.blocks)
    (hfirst : first ≤ s.blocks.length) :
    (List.range' first (t.blocks.length - first)).flatMap t.referred =
      (List.range' first (s.blocks.length - first)).flatMap s.referred ++
        (List.range' s.blocks.length (t.blocks.length - s.blocks.length)).flatMap t.referred := by
  have hsame : (List.range' first (s.blocks.length - first)).flatMap t.referred =
      (List.range' first (s.blocks.length - first)).flatMap s.referred := by
    refine List.flatMap_congr fun index hindex => referred_of_grows h ?_
    have hbound := (List.mem_range'_1.1 hindex).2
    omega
  rw [← hsame, ← List.flatMap_append, range'_append_range' hfirst h.length_le]

namespace Store.Enrolls

variable {s t u : Store} {nodes more : List Node}

/-- A computation that adds no block enrolls no block. -/
theorem nothing (h : t.blocks = s.blocks) : s.Enrolls [] t where
  grows := h ▸ List.prefix_rfl
  layered := h ▸ layeredFrom_length s.blocks
  hoisted := trivial
  once := by
    rw [h, Nat.sub_self]
    exact .refl _

/-- What is enrolled depends on the blocks that nodes refer to, in any order. -/
theorem perm (h : s.Enrolls nodes t)
    (hindices : (Node.allBlockIndices more).Perm (Node.allBlockIndices nodes))
    (hmore : Node.AllHoisted s.blocks.length t.blocks.length more) : s.Enrolls more t :=
  ⟨h.grows, h.layered, hmore, (hindices.append_right _).trans h.once⟩

theorem perm_nodes (h : s.Enrolls nodes t) (hnodes : more.Perm nodes) : s.Enrolls more t := by
  refine h.perm ?_ ?_
  · rw [Node.allBlockIndices_eq_flatMap, Node.allBlockIndices_eq_flatMap]
    exact hnodes.flatMap_right _
  · refine Node.allHoisted_iff.2 fun n hn => ?_
    exact Node.allHoisted_iff.1 h.hoisted n (hnodes.subset hn)

/-- The nodes may be put into one node. -/
theorem single (h : s.Enrolls nodes t) {n : Node}
    (hindices : n.blockIndices = Node.allBlockIndices nodes)
    (hn : n.Hoisted s.blocks.length t.blocks.length) : s.Enrolls [n] t := by
  refine h.perm ?_ ⟨hn, trivial⟩
  rw [Node.allBlockIndices_eq_flatMap, List.flatMap_singleton, hindices]

/-- Nodes that refer to no block may be left out. -/
theorem filter (h : s.Enrolls nodes t) {keep : Node → Bool}
    (hkeep : ∀ n, keep n = false → n.blockIndices = []) : s.Enrolls (nodes.filter keep) t := by
  refine h.perm ?_ (Node.allHoisted_iff.2 fun n hn => ?_)
  · rw [Node.allBlockIndices_filter hkeep]
  · exact Node.allHoisted_iff.1 h.hoisted n (List.mem_of_mem_filter hn)

/-- One computation after the other. -/
theorem trans (h : s.Enrolls nodes t) (h' : t.Enrolls more u) : s.Enrolls (nodes ++ more) u where
  grows := h.grows.trans h'.grows
  layered := h.layered.trans h.grows.length_le h'.grows h'.layered
  hoisted := (h.hoisted.mono (Nat.le_refl _) h'.grows.length_le).append
    (h'.hoisted.mono h.grows.length_le (Nat.le_refl _))
  once := by
    rw [flatMap_referred_of_grows h'.grows h.grows.length_le,
      ← range'_append_range' h.grows.length_le h'.grows.length_le, allBlockIndices_append]
    refine List.perm_iff_count.2 fun index => ?_
    have hfirst := List.perm_iff_count.1 h.once index
    have hlast := List.perm_iff_count.1 h'.once index
    simp only [List.count_append] at hfirst hlast ⊢
    omega

theorem then_nothing (h : s.Enrolls nodes t) (h' : t.Enrolls [] u) : s.Enrolls nodes u := by
  have hboth := h.trans h'
  rwa [List.append_nil] at hboth

/-- The nodes become a block, which is then the only one that is referred to. -/
theorem concat (h : s.Enrolls nodes t) (head : MediaHead) :
    s.Enrolls [.block t.blocks.length] { t with blocks := t.blocks ++ [⟨head, nodes⟩] } := by
  let added : Store := { t with blocks := t.blocks ++ [⟨head, nodes⟩] }
  have hle := h.grows.length_le
  have hgrows : t.blocks <+: added.blocks := List.prefix_append _ _
  have hlength : added.blocks.length = t.blocks.length + 1 := List.length_append
  have hlast : List.range' t.blocks.length (added.blocks.length - t.blocks.length) =
      [t.blocks.length] := by
    rw [hlength, Nat.add_sub_cancel_left]
    rfl
  have hadded : added.blocks[t.blocks.length]? = some ⟨head, nodes⟩ := List.getElem?_concat_length
  have hreferred : added.referred t.blocks.length = Node.allBlockIndices nodes :=
    referred_of_getElem? hadded
  refine ⟨h.grows.trans hgrows, h.layered.concat h.hoisted, ⟨⟨hle, ?_⟩, trivial⟩, ?_⟩
  · exact hlength ▸ Nat.lt_succ_self _
  · rw [flatMap_referred_of_grows hgrows hle,
      ← range'_append_range' hle hgrows.length_le, hlast, List.flatMap_singleton, hreferred]
    refine List.perm_iff_count.2 fun index => ?_
    have honce := List.perm_iff_count.1 h.once index
    simp only [Node.allBlockIndices, Node.blockIndices, List.append_nil, List.count_append]
      at honce ⊢
    omega

/-- Blocks may be changed, as long as they refer to the same blocks. -/
theorem reworks {R : Block → Block → Prop} (h : s.Enrolls nodes t)
    (hst : t.Reworks s.blocks.length R u)
    (hindices : ∀ b b', R b b' → Node.allBlockIndices b'.rules = Node.allBlockIndices b.rules)
    (hR : ∀ b b', R b b' → ∀ index, Node.AllHoisted s.blocks.length index b.rules →
      Node.AllHoisted s.blocks.length index b'.rules) : s.Enrolls nodes u where
  grows := by
    obtain ⟨new, hnew, -⟩ := hst.blocks
    rw [hnew]
    exact (List.prefix_take_iff.2 ⟨h.grows, Nat.le_refl _⟩).trans (List.prefix_append _ _)
  layered := h.layered.reworks hst hR
  hoisted := hst.length_eq ▸ h.hoisted
  once := by
    have hsame : (List.range' s.blocks.length (t.blocks.length - s.blocks.length)).flatMap
        u.referred = (List.range' s.blocks.length (t.blocks.length - s.blocks.length)).flatMap
          t.referred := by
      refine List.flatMap_congr fun index hindex => ?_
      obtain ⟨hfirst, hlast⟩ := List.mem_range'_1.1 hindex
      have hle := h.grows.length_le
      have hb := List.getElem?_eq_getElem (by omega : index < t.blocks.length)
      obtain ⟨b', hb', hrel⟩ := hst.getElem?_of_le hfirst hb
      rw [referred_of_getElem? hb', referred_of_getElem? hb, hindices _ _ hrel]
    rw [hst.length_eq, hsame]
    exact h.once

theorem bubble (h : s.Enrolls nodes t) (selectors : List Selector) :
    s.Enrolls nodes ((Stylesheet.bubble selectors s.blocks.length).run t).2 := by
  refine h.reworks (reworks_bubble selectors s.blocks.length t) ?_ ?_
  · rintro b b' (rfl | ⟨next, -, rfl⟩)
    · rfl
    · exact List.append_nil _
  · rintro b b' (rfl | ⟨next, -, rfl⟩) index hb
    · exact hb
    · exact ⟨hb, trivial⟩

theorem markImportant (h : s.Enrolls nodes t) :
    s.Enrolls ((Stylesheet.markImportant s.blocks.length nodes).run t).1
      ((Stylesheet.markImportant s.blocks.length nodes).run t).2 := by
  have hindices (nodes : List Node) (next : Nat) :
      Node.allBlockIndices (Node.markAllImportant ((Node.renewAll nodes).run next).1) =
        Node.allBlockIndices nodes := by
    rw [Node.allBlockIndices_markAllImportant, Node.allBlockIndices_renewAll]
  have hmarked : s.Enrolls nodes ((Stylesheet.markImportant s.blocks.length nodes).run t).2 := by
    refine h.reworks (reworks_markImportant s.blocks.length nodes t) ?_ ?_
    · rintro b b' ⟨next, -, rfl⟩
      exact hindices b.rules next
    · rintro b b' ⟨next, -, rfl⟩ index hb
      exact (hb.renewAll next).markAllImportant
  rw [run_markImportant]
  refine hmarked.perm ?_ (hmarked.hoisted.renewAll _).markAllImportant
  rw [hindices]

end Store.Enrolls

namespace Store

variable {s : Store} {nodes : List Node} {first index : Nat}

/-- The tree of a block that refers to earlier blocks has the block and the trees of these. -/
theorem occurrences_of_getElem? {b : Block} (hb : s.blocks[index]? = some b)
    (hbelow : ∀ i ∈ Node.allBlockIndices b.rules, i < index) :
    (s.occurrences[index]?).getD [index] = index :: s.mediaIn b.rules := by
  have hlength : s.occurrences.length = s.blocks.length :=
    (length_foldl_concat _ s.blocks []).trans (Nat.zero_add _)
  have hindex := (List.getElem?_eq_some_iff.1 hb).1
  have htake : (s.occurrences.take index).length = index :=
    List.length_take_of_le (hlength ▸ Nat.le_of_lt hindex)
  have hlist : s.occurrences[index]? = some ((s.occurrences.take index).length ::
      (Node.allBlockIndices b.rules).flatMap fun i =>
        ((s.occurrences.take index)[i]?).getD [i]) := getElem?_foldl_concat hb
  rw [hlist, Option.getD_some, htake, mediaIn]
  refine congrArg (index :: ·) (List.flatMap_congr fun i hi => ?_)
  rw [List.getElem?_take_of_lt (hbelow i hi)]

/-- The blocks in the tree of a block come before it. -/
theorem bounds_of_mem_mediaIn (h : LayeredFrom first s.blocks)
    (hnodes : Node.ReferWithin first index nodes) (hindex : index ≤ s.blocks.length) :
    ∀ i ∈ s.mediaIn nodes, first ≤ i ∧ i < index := by
  induction index using Nat.strongRecOn generalizing nodes with
  | ind index ih =>
    intro i hi
    obtain ⟨j, hj, hij⟩ := List.mem_flatMap.1 hi
    obtain ⟨hfirst, hlast⟩ := hnodes j hj
    have hb := List.getElem?_eq_getElem (Nat.lt_of_lt_of_le hlast hindex)
    have hbelow := (h j _ hfirst hb).referWithin
    rw [occurrences_of_getElem? hb fun k hk => (hbelow k hk).2] at hij
    rcases List.mem_cons.1 hij with rfl | hinside
    · exact ⟨hfirst, hlast⟩
    · have hj := Nat.le_of_lt (Nat.lt_of_lt_of_le hlast hindex)
      obtain ⟨hlo, hhi⟩ := ih j hlast hbelow hj i hinside
      exact ⟨hlo, Nat.lt_trans hhi hlast⟩

/-- Each block that was enrolled occurs once in the tree of the nodes. What the blocks contribute
besides themselves is what they refer to, so it can be taken away on both sides. -/
theorem Enrolls.mediaIn_perm {t : Store} (h : s.Enrolls nodes t) :
    (t.mediaIn nodes).Perm
      (List.range' s.blocks.length (t.blocks.length - s.blocks.length)) := by
  let tree (index : Nat) : List Nat := (t.occurrences[index]?).getD [index]
  let added := List.range' s.blocks.length (t.blocks.length - s.blocks.length)
  have htree : added.flatMap tree =
      added.flatMap fun index => index :: (t.referred index).flatMap tree := by
    refine List.flatMap_congr fun index hindex => ?_
    obtain ⟨hfirst, hlast⟩ := List.mem_range'_1.1 hindex
    have hle := h.grows.length_le
    have hb := List.getElem?_eq_getElem (by omega : index < t.blocks.length)
    have hbelow := (h.layered index _ hfirst hb).referWithin
    rw [referred_of_getElem? hb]
    exact occurrences_of_getElem? hb fun i hi => (hbelow i hi).2
  have hsplit : (added.flatMap tree).Perm
      (added ++ added.flatMap fun index => (t.referred index).flatMap tree) := by
    have happend := List.map_append_flatMap_perm added id
      fun index => (t.referred index).flatMap tree
    rw [List.map_id] at happend
    exact htree ▸ happend.symm
  have hnodes : t.mediaIn nodes ++ added.flatMap (fun index => (t.referred index).flatMap tree) =
      (Node.allBlockIndices nodes ++ added.flatMap t.referred).flatMap tree := by
    rw [List.flatMap_append, List.flatMap_assoc]
    rfl
  have hboth := (h.once.flatMap_right tree).trans hsplit
  rw [← hnodes] at hboth
  exact (List.perm_append_right_iff _).1 hboth

end Store

end Stylesheet
