import Stylesheet.Proofs.Compile.Growth
import Stylesheet.Proofs.Node.Plain

/-!
# Reading nodes with their blocks

A node refers to media blocks by number, and reads as a plain rule once it is known what each
number stands for. The blocks of a store stand for media rules, each of which is read with the
blocks before it. So what a node reads as depends only on the blocks that it leads to, and not on
the numbers of rulesets.

`rulesOf_eq_readAll` says that this is how nodes are written out.
-/

namespace Stylesheet

/-- What a number reads as that no block has. -/
def Rule.hole : Rule := .media { features := "" } []

namespace Rule

mutual

/-- Mark the declarations of a rule as important, except those of mixin definitions. -/
def markImportant : Rule → Rule
  | .declaration d => .declaration { d with important := true }
  | .ruleset header rules => .ruleset header (markAllImportant rules)
  | .media head rules => .media head (markAllImportant rules)
  | .directive head (some rules) => .directive head (some (markAllImportant rules))
  | rule => rule

/-- Mark the declarations of some rules as important. -/
def markAllImportant : List Rule → List Rule
  | [] => []
  | rule :: rules => markImportant rule :: markAllImportant rules

end

theorem markAllImportant_eq_map (rules : List Rule) :
    markAllImportant rules = rules.map markImportant := by
  induction rules with
  | nil => rfl
  | cons rule rules ih => rw [markAllImportant, ih, List.map_cons]

end Rule

namespace Node

mutual

/-- The plain rule of a node, where `look` says what a block reads as. -/
def read (look : Nat → Rule) : Node → Rule
  | .declaration d => .declaration d
  | .ruleset ⟨_, _, header, rules⟩ => .ruleset header (readAll look rules)
  | .definition ⟨signature, rules, _⟩ => .definition signature (toRules rules)
  | .call c => .call c
  | .inclusion i => .inclusion i
  | .comment c => .comment c
  | .media head rules => .media head (readAll look rules)
  | .block index => look index
  | .directive head none => .directive head none
  | .directive head (some rules) => .directive head (some (readAll look rules))

/-- The plain rules of some nodes. -/
def readAll (look : Nat → Rule) : List Node → List Rule
  | [] => []
  | node :: nodes => read look node :: readAll look nodes

end

variable {look look' : Nat → Rule}

theorem readAll_eq_map (look : Nat → Rule) (nodes : List Node) :
    readAll look nodes = nodes.map (read look) := by
  induction nodes with
  | nil => rfl
  | cons node nodes ih => rw [readAll, ih, List.map_cons]

mutual

/-- A node reads as it is if its blocks are put in their places first. -/
theorem toRule_inline : ∀ (contents : List Node) (n : Node),
    (inline contents n).toRule =
      read (fun index => ((contents[index]?).map toRule).getD .hole) n
  | contents, .block index => by
    rw [inline, read]
    cases contents[index]? <;> rfl
  | contents, .ruleset ⟨_, _, header, rules⟩ =>
    congrArg (Rule.ruleset header) (toRules_inlineAll contents rules)
  | contents, .media head rules => congrArg (Rule.media head) (toRules_inlineAll contents rules)
  | contents, .directive head (some rules) =>
    congrArg (fun rules => Rule.directive head (some rules)) (toRules_inlineAll contents rules)
  | _, .declaration _ | _, .definition ⟨_, _, _⟩ | _, .call _ | _, .inclusion _ | _, .comment _
  | _, .directive _ none => rfl

theorem toRules_inlineAll : ∀ (contents : List Node) (nodes : List Node),
    toRules (inlineAll contents nodes) =
      readAll (fun index => ((contents[index]?).map toRule).getD .hole) nodes
  | _, [] => rfl
  | contents, n :: nodes => by
    rw [inlineAll, toRules, readAll, toRule_inline contents n, toRules_inlineAll contents nodes]

end

mutual

/-- What a node reads as depends only on the blocks that it refers to. -/
theorem read_congr : ∀ n : Node, (∀ index ∈ n.blockIndices, look' index = look index) →
    n.read look' = n.read look
  | .block index, h => h index (List.mem_singleton.2 rfl)
  | .ruleset ⟨_, _, header, rules⟩, h => congrArg (Rule.ruleset header) (readAll_congr rules h)
  | .media head rules, h => congrArg (Rule.media head) (readAll_congr rules h)
  | .directive head (some rules), h =>
    congrArg (fun rules => Rule.directive head (some rules)) (readAll_congr rules h)
  | .declaration _, _ | .definition ⟨_, _, _⟩, _ | .call _, _ | .inclusion _, _ | .comment _, _
  | .directive _ none, _ => rfl

theorem readAll_congr : ∀ nodes : List Node,
    (∀ index ∈ allBlockIndices nodes, look' index = look index) →
      readAll look' nodes = readAll look nodes
  | [], _ => rfl
  | n :: nodes, h => by
    rw [allBlockIndices, List.forall_mem_append] at h
    rw [readAll, readAll, read_congr n h.1, readAll_congr nodes h.2]

end

mutual

@[simp] theorem read_renew : ∀ (n : Node) (next : Nat),
    ((renew n).run next).1.read look = n.read look
  | .ruleset ⟨_, _, header, rules⟩, next =>
    congrArg (Rule.ruleset header) (readAll_renewAll rules (next + 1))
  | .media head rules, next => congrArg (Rule.media head) (readAll_renewAll rules next)
  | .directive head (some rules), next =>
    congrArg (fun rules => Rule.directive head (some rules)) (readAll_renewAll rules next)
  | .declaration _, _ | .definition _, _ | .call _, _ | .inclusion _, _ | .comment _, _
  | .block _, _ | .directive _ none, _ => rfl

@[simp] theorem readAll_renewAll : ∀ (nodes : List Node) (next : Nat),
    readAll look ((renewAll nodes).run next).1 = readAll look nodes
  | [], _ => rfl
  | n :: nodes, next => by
    change read look ((renew n).run next).1 ::
      readAll look ((renewAll nodes).run ((renew n).run next).2).1 = _
    rw [read_renew n, readAll_renewAll nodes, readAll]

end

mutual

/-- A marked node reads as the marked rule, if that is so for the blocks it refers to. -/
theorem read_markImportant : ∀ n : Node,
    (∀ index ∈ n.blockIndices, look' index = (look index).markImportant) →
      n.markImportant.read look' = (n.read look).markImportant
  | .block index, h => h index (List.mem_singleton.2 rfl)
  | .ruleset ⟨_, _, header, rules⟩, h =>
    congrArg (Rule.ruleset header) (readAll_markAllImportant rules h)
  | .media head rules, h => congrArg (Rule.media head) (readAll_markAllImportant rules h)
  | .directive head (some rules), h =>
    congrArg (fun rules => Rule.directive head (some rules)) (readAll_markAllImportant rules h)
  | .declaration _, _ | .definition ⟨_, _, _⟩, _ | .call _, _ | .inclusion _, _ | .comment _, _
  | .directive _ none, _ => rfl

theorem readAll_markAllImportant : ∀ nodes : List Node,
    (∀ index ∈ allBlockIndices nodes, look' index = (look index).markImportant) →
      readAll look' (markAllImportant nodes) = Rule.markAllImportant (readAll look nodes)
  | [], _ => rfl
  | n :: nodes, h => by
    rw [allBlockIndices, List.forall_mem_append] at h
    rw [markAllImportant, readAll, readAll, Rule.markAllImportant, read_markImportant n h.1,
      readAll_markAllImportant nodes h.2]

end

mutual

theorem blockIndices_renew : ∀ (n : Node) (next : Nat),
    ((renew n).run next).1.blockIndices = n.blockIndices
  | .ruleset ⟨_, _, _, rules⟩, next => allBlockIndices_renewAll rules (next + 1)
  | .media _ rules, next => allBlockIndices_renewAll rules next
  | .directive _ (some rules), next => allBlockIndices_renewAll rules next
  | .declaration _, _ | .definition _, _ | .call _, _ | .inclusion _, _ | .comment _, _
  | .block _, _ | .directive _ none, _ => rfl

/-- New numbers for rulesets do not change the blocks that some nodes refer to. -/
theorem allBlockIndices_renewAll : ∀ (nodes : List Node) (next : Nat),
    allBlockIndices ((renewAll nodes).run next).1 = allBlockIndices nodes
  | [], _ => rfl
  | n :: nodes, next => by
    change blockIndices ((renew n).run next).1 ++
      allBlockIndices ((renewAll nodes).run ((renew n).run next).2).1 = _
    rw [blockIndices_renew n, allBlockIndices_renewAll nodes, allBlockIndices]

end

mutual

@[simp] theorem read_ofRule : ∀ (rule : Rule) (next : Nat),
    ((ofRule rule).run next).1.read look = rule
  | .declaration _, _ | .call _, _ | .inclusion _, _ | .comment _, _ | .directive _ none, _ => rfl
  | .ruleset header rules, next =>
    congrArg (Rule.ruleset header) (readAll_ofRules rules (next + 1))
  | .definition signature rules, next =>
    congrArg (Rule.definition signature) (toRules_ofRules rules next)
  | .media head rules, next => congrArg (Rule.media head) (readAll_ofRules rules next)
  | .directive head (some rules), next =>
    congrArg (fun rules => Rule.directive head (some rules)) (readAll_ofRules rules next)

@[simp] theorem readAll_ofRules : ∀ (rules : List Rule) (next : Nat),
    readAll look ((ofRules rules).run next).1 = rules
  | [], _ => rfl
  | rule :: rules, next => by
    change read look ((ofRule rule).run next).1 ::
      readAll look ((ofRules rules).run ((ofRule rule).run next).2).1 = rule :: rules
    rw [read_ofRule rule, readAll_ofRules rules]

end

mutual

theorem blockIndices_ofRule : ∀ (rule : Rule) (next : Nat),
    ((ofRule rule).run next).1.blockIndices = []
  | .declaration _, _ | .definition .., _ | .call _, _ | .inclusion _, _ | .comment _, _
  | .directive _ none, _ => rfl
  | .ruleset _ rules, next => allBlockIndices_ofRules rules (next + 1)
  | .media _ rules, next => allBlockIndices_ofRules rules next
  | .directive _ (some rules), next => allBlockIndices_ofRules rules next

/-- Rules that were only numbered refer to no blocks. -/
theorem allBlockIndices_ofRules : ∀ (rules : List Rule) (next : Nat),
    allBlockIndices ((ofRules rules).run next).1 = []
  | [], _ => rfl
  | rule :: rules, next => by
    change blockIndices ((ofRule rule).run next).1 ++
      allBlockIndices ((ofRules rules).run ((ofRule rule).run next).2).1 = []
    rw [blockIndices_ofRule rule, allBlockIndices_ofRules rules, List.append_nil]

end

end Node

/-- What the numbers of some blocks read as. -/
def readBlocks (blocks : List Block) (index : Nat) : Rule :=
  (((Store.contents { blocks })[index]?).map Node.toRule).getD .hole

/-- What numbers read as if only those below a bound have blocks. -/
def lookBelow (bound : Nat) (look : Nat → Rule) (index : Nat) : Rule :=
  if index < bound then look index else .hole

theorem lookBelow_of_lt {bound index : Nat} (look : Nat → Rule) (h : index < bound) :
    lookBelow bound look index = look index := if_pos h

theorem lookBelow_of_le {bound index : Nat} (look : Nat → Rule) (h : bound ≤ index) :
    lookBelow bound look index = .hole := if_neg (Nat.not_lt.2 h)

theorem Store.rulesOf_eq_readAll (s : Store) (nodes : List Node) :
    s.rulesOf nodes = Node.readAll (readBlocks s.blocks) nodes :=
  Node.toRules_inlineAll s.contents nodes

section Blocks

variable {blocks blocks' : List Block} {b : Block} {index : Nat}

theorem length_contents (blocks : List Block) :
    (Store.contents { blocks }).length = blocks.length := by
  rw [Store.contents, length_foldl_concat, List.length_nil, Nat.zero_add]

theorem readBlocks_of_le (h : blocks.length ≤ index) : readBlocks blocks index = .hole := by
  rw [readBlocks, List.getElem?_eq_none (by rwa [length_contents])]
  rfl

/-- More blocks do not change what the numbers of the ones before them read as. -/
theorem readBlocks_of_extends (h : blocks <+: blocks') (hindex : index < blocks.length) :
    readBlocks blocks' index = readBlocks blocks index := by
  obtain ⟨more, hmore⟩ : Store.contents { blocks } <+: Store.contents { blocks := blocks' } :=
    prefix_foldl_concat h
  rw [readBlocks, readBlocks, ← hmore, List.getElem?_append_left (by rwa [length_contents])]

/-- A new block reads as a media rule, and is read with the blocks before it. -/
theorem readBlocks_concat (blocks : List Block) (b : Block) :
    readBlocks (blocks ++ [b]) blocks.length =
      .media b.head (Node.readAll (readBlocks blocks) b.rules) := by
  have hcontents : Store.contents { blocks := blocks ++ [b] } = Store.contents { blocks } ++
      [.media b.head (Node.inlineAll (Store.contents { blocks }) b.rules)] := List.foldl_append
  rw [readBlocks, hcontents, ← length_contents, List.getElem?_concat_length, Option.map_some,
    Option.getD_some, Node.toRule, Node.toRules_inlineAll]
  rfl

/-- Every block reads as a media rule, and is read with the blocks before it. -/
theorem readBlocks_of_getElem? (h : blocks[index]? = some b) :
    readBlocks blocks index =
      .media b.head (Node.readAll (lookBelow index (readBlocks blocks)) b.rules) := by
  obtain ⟨hindex, -⟩ := List.getElem?_eq_some_iff.1 h
  have hlength : (blocks.take index).length = index := List.length_take_of_le (Nat.le_of_lt hindex)
  have hfront : blocks.take index ++ [b] <+: blocks := by
    have hsplit : blocks.take (index + 1) = blocks.take index ++ [b] := by
      rw [List.take_add_one, h]
      rfl
    exact hsplit ▸ List.take_prefix (index + 1) blocks
  have hlook : readBlocks (blocks.take index) = lookBelow index (readBlocks blocks) := by
    funext i
    by_cases hi : i < index
    · rw [lookBelow_of_lt _ hi,
        readBlocks_of_extends (List.take_prefix index blocks) (hlength.symm ▸ hi)]
    · rw [lookBelow_of_le _ (by omega), readBlocks_of_le (by omega)]
  have hlast := readBlocks_concat (blocks.take index) b
  rw [hlength, hlook] at hlast
  rw [readBlocks_of_extends hfront (by simp [hlength]), hlast]

/-- Blocks that read alike one by one, whatever is read inside them, do so as a whole. -/
theorem readBlocks_congr (h : List.Forall₂ (fun b b' : Block => b'.head = b.head ∧
      ∀ look, Node.readAll look b'.rules = Node.readAll look b.rules) blocks blocks') :
    readBlocks blocks' = readBlocks blocks := by
  funext index
  induction index using Nat.strongRecOn with
  | ind index ih =>
    by_cases hindex : index < blocks.length
    · obtain ⟨b', hb', hhead, hrules⟩ :=
        exists_of_getElem?_left h (List.getElem?_eq_getElem hindex)
      have hlook : lookBelow index (readBlocks blocks') = lookBelow index (readBlocks blocks) := by
        funext i
        by_cases hi : i < index
        · rw [lookBelow_of_lt _ hi, lookBelow_of_lt _ hi, ih i hi]
        · rw [lookBelow, lookBelow, if_neg hi, if_neg hi]
      rw [readBlocks_of_getElem? hb', readBlocks_of_getElem? (List.getElem?_eq_getElem hindex),
        hhead, hrules, hlook]
    · have hle : blocks.length ≤ index := Nat.not_lt.1 hindex
      rw [readBlocks_of_le hle, readBlocks_of_le (h.length_eq ▸ hle)]

/-- New numbers for rulesets do not change what blocks read as. -/
theorem readBlocks_renew (r : Ruleset) (s : Store) :
    readBlocks (r.renew.run s).2.blocks = readBlocks s.blocks := by
  refine readBlocks_congr ((forall₂_blocks_renew r s).imp ?_)
  rintro b b' (rfl | ⟨next, rfl⟩)
  · exact ⟨rfl, fun look => rfl⟩
  · exact ⟨rfl, fun look => Node.readAll_renewAll b.rules next⟩

end Blocks

end Stylesheet
