import Stylesheet.Proofs.Compile.Joining
import Stylesheet.Proofs.Node.Reading

/-!
# Joining plain rules

Plain rules can be joined like nodes: every ruleset gets the paths of its selectors in the context
of the rulesets around it, and media blocks and other at-rules start without a context. A document
and the blocks it leads to are joined one by one, but read as if the plain rules of the document
had been joined as a whole.
-/

namespace Stylesheet

namespace Rule

mutual

/-- Join the selectors of a rule onto a context. -/
def join (context : List Path) : Rule → Except Error Rule
  | .ruleset header rules => do
    let joined ← header.join context
    return .ruleset { header with paths := joined.1 } (← joinAll joined.2 rules)
  | .media head rules => do return .media head (← joinAll [] rules)
  | .directive head (some rules) => do return .directive head (some (← joinAll [] rules))
  | rule => .ok rule

/-- Join the selectors of some rules onto a context. -/
def joinAll (context : List Path) : List Rule → Except Error (List Rule)
  | [] => .ok []
  | rule :: rules => do
    let rule ← join context rule
    return rule :: (← joinAll context rules)

end

variable {context : List Path} {header : Header} {rules joined : List Rule} {rule joinedRule : Rule}

theorem join_ruleset_eq_ok_iff :
    join context (.ruleset header rules) = .ok joinedRule ↔
      ∃ paths inner joined, header.join context = .ok (paths, inner) ∧
        joinAll inner rules = .ok joined ∧
          joinedRule = .ruleset { header with paths } joined := by
  rw [join, bind_eq_ok_iff]
  constructor
  · rintro ⟨⟨paths, inner⟩, hpaths, h⟩
    obtain ⟨joined, hjoined, ⟨⟩⟩ := bind_eq_ok_iff.1 h
    exact ⟨paths, inner, joined, hpaths, hjoined, rfl⟩
  · rintro ⟨paths, inner, joined, hpaths, hjoined, rfl⟩
    exact ⟨(paths, inner), hpaths, bind_eq_ok_iff.2 ⟨joined, hjoined, rfl⟩⟩

theorem join_media_eq_ok_iff {head : MediaHead} :
    join context (.media head rules) = .ok joinedRule ↔
      ∃ joined, joinAll [] rules = .ok joined ∧ joinedRule = .media head joined := by
  rw [join, bind_eq_ok_iff]
  constructor
  · rintro ⟨joined, hjoined, ⟨⟩⟩
    exact ⟨joined, hjoined, rfl⟩
  · rintro ⟨joined, hjoined, rfl⟩
    exact ⟨joined, hjoined, rfl⟩

theorem join_directive_eq_ok_iff {head : DirectiveHead} :
    join context (.directive head (some rules)) = .ok joinedRule ↔
      ∃ joined, joinAll [] rules = .ok joined ∧ joinedRule = .directive head (some joined) := by
  rw [join, bind_eq_ok_iff]
  constructor
  · rintro ⟨joined, hjoined, ⟨⟩⟩
    exact ⟨joined, hjoined, rfl⟩
  · rintro ⟨joined, hjoined, rfl⟩
    exact ⟨joined, hjoined, rfl⟩

theorem joinAll_cons_eq_ok_iff :
    joinAll context (rule :: rules) = .ok joined ↔
      ∃ joinedRule rest, join context rule = .ok joinedRule ∧ joinAll context rules = .ok rest ∧
        joined = joinedRule :: rest := by
  rw [joinAll, bind_eq_ok_iff]
  constructor
  · rintro ⟨joinedRule, hrule, h⟩
    obtain ⟨rest, hrest, ⟨⟩⟩ := bind_eq_ok_iff.1 h
    exact ⟨joinedRule, rest, hrule, hrest, rfl⟩
  · rintro ⟨joinedRule, rest, hrule, hrest, rfl⟩
    exact ⟨joinedRule, hrule, bind_eq_ok_iff.2 ⟨rest, hrest, rfl⟩⟩

/-- A rule without a block stays as it is, whatever the context. -/
theorem join_hole (context : List Path) : join context .hole = .ok .hole := rfl

end Rule

namespace Node

variable {look look' : Nat → Rule}

mutual

/-- A joined node reads as the joined rule, if that is so for the blocks it refers to. -/
theorem join_read : ∀ (n : Node) {context : List Path} {joined : Node},
    (∀ index ∈ n.blockIndices, ∀ context, (look index).join context = .ok (look' index)) →
      join context n = .ok joined → (n.read look).join context = .ok (joined.read look')
  | .ruleset ⟨_, _, header, rules⟩, context, joined, hblocks, hjoin => by
    rw [join] at hjoin
    obtain ⟨⟨paths, inner⟩, hpaths, hjoin⟩ := bind_eq_ok_iff.1 hjoin
    obtain ⟨joinedRules, hrules, ⟨⟩⟩ := bind_eq_ok_iff.1 hjoin
    exact Rule.join_ruleset_eq_ok_iff.2
      ⟨paths, inner, _, hpaths, joinAll_readAll rules hblocks hrules, rfl⟩
  | .media head rules, context, joined, hblocks, hjoin => by
    rw [join] at hjoin
    obtain ⟨joinedRules, hrules, ⟨⟩⟩ := bind_eq_ok_iff.1 hjoin
    exact Rule.join_media_eq_ok_iff.2 ⟨_, joinAll_readAll rules hblocks hrules, rfl⟩
  | .directive head (some rules), context, joined, hblocks, hjoin => by
    rw [join] at hjoin
    obtain ⟨joinedRules, hrules, ⟨⟩⟩ := bind_eq_ok_iff.1 hjoin
    exact Rule.join_directive_eq_ok_iff.2 ⟨_, joinAll_readAll rules hblocks hrules, rfl⟩
  | .block index, context, joined, hblocks, hjoin => by
    obtain ⟨⟩ := hjoin
    exact hblocks index (List.mem_singleton.2 rfl) context
  | .declaration _, _, _, _, hjoin | .definition ⟨_, _, _⟩, _, _, _, hjoin
  | .call _, _, _, _, hjoin | .inclusion _, _, _, _, hjoin | .comment _, _, _, _, hjoin
  | .directive _ none, _, _, _, hjoin => by
    obtain ⟨⟩ := hjoin
    rfl

theorem joinAll_readAll : ∀ (nodes : List Node) {context : List Path} {joined : List Node},
    (∀ index ∈ allBlockIndices nodes, ∀ context,
        (look index).join context = .ok (look' index)) →
      joinAll context nodes = .ok joined →
        Rule.joinAll context (readAll look nodes) = .ok (readAll look' joined)
  | [], _, _, _, hjoin => by
    obtain ⟨⟩ := hjoin
    rfl
  | n :: nodes, context, joined, hblocks, hjoin => by
    rw [joinAll] at hjoin
    obtain ⟨m, hm, hjoin⟩ := bind_eq_ok_iff.1 hjoin
    obtain ⟨rest, hrest, ⟨⟩⟩ := bind_eq_ok_iff.1 hjoin
    rw [allBlockIndices, List.forall_mem_append] at hblocks
    exact Rule.joinAll_cons_eq_ok_iff.2
      ⟨_, _, join_read n hblocks.1 hm, joinAll_readAll nodes hblocks.2 hrest, rfl⟩

end

end Node

namespace Store

variable {s : Store} {nodes : List Node} {b : Block} {index other first last : Nat}

/-- The numbers that are reached once only the blocks before `first` are left to look at. -/
def reachedFrom (s : Store) (nodes : List Node) (first : Nat) : List Nat :=
  (s.blocks.zipIdx.drop first).foldr
    (fun entry reached =>
      if reached.contains entry.2 then Node.allBlockIndices entry.1.rules ++ reached else reached)
    (Node.allBlockIndices nodes)

theorem reachedFrom_zero (s : Store) (nodes : List Node) :
    s.reachedFrom nodes 0 = s.reachable nodes := rfl

/-- One block more is looked at. -/
theorem reachedFrom_of_getElem? (h : s.blocks[index]? = some b) :
    s.reachedFrom nodes index =
      if (s.reachedFrom nodes (index + 1)).contains index then
        Node.allBlockIndices b.rules ++ s.reachedFrom nodes (index + 1)
      else s.reachedFrom nodes (index + 1) := by
  obtain ⟨hindex, rfl⟩ := List.getElem?_eq_some_iff.1 h
  have hdrop : s.blocks.zipIdx.drop index =
      (s.blocks[index], index) :: s.blocks.zipIdx.drop (index + 1) := by
    rw [List.drop_eq_getElem_cons (by simpa using hindex), List.getElem_zipIdx, Nat.zero_add]
  unfold reachedFrom
  rw [hdrop, List.foldr_cons]

/-- What is reached stays reached. -/
theorem reachedFrom_anti (h : first ≤ last) :
    s.reachedFrom nodes last ⊆ s.reachedFrom nodes first := by
  induction h with
  | refl => exact List.Subset.refl _
  | @step last _ ih =>
    refine List.Subset.trans ?_ ih
    cases hb : s.blocks[last]? with
    | none =>
      have hle : s.blocks.zipIdx.length ≤ last := by simpa using List.getElem?_eq_none_iff.1 hb
      unfold reachedFrom
      rw [List.drop_eq_nil_of_le hle, List.drop_eq_nil_of_le (Nat.le_succ_of_le hle)]
      exact List.Subset.refl _
    | some b =>
      rw [reachedFrom_of_getElem? hb]
      split
      · exact List.subset_append_right _ _
      · exact List.Subset.refl _

theorem allBlockIndices_subset_reachedFrom (s : Store) (nodes : List Node) (first : Nat) :
    Node.allBlockIndices nodes ⊆ s.reachedFrom nodes first := by
  have hlast : s.reachedFrom nodes (first + s.blocks.length) = Node.allBlockIndices nodes := by
    unfold reachedFrom
    rw [List.drop_eq_nil_of_le (by simp)]
    rfl
  exact hlast ▸ reachedFrom_anti (Nat.le_add_right first s.blocks.length)

/-- A block that is reached in time reaches the blocks before it that it refers to, in time. -/
theorem mem_reachedFrom_of_mem (hindex : index ∈ s.reachedFrom nodes (index + 1))
    (hb : s.blocks[index]? = some b) (hother : other ∈ Node.allBlockIndices b.rules)
    (hlt : other < index) : other ∈ s.reachedFrom nodes (other + 1) := by
  have hmem : other ∈ s.reachedFrom nodes index := by
    rw [reachedFrom_of_getElem? hb, if_pos (List.contains_iff_mem.2 hindex)]
    exact List.mem_append_left _ hother
  exact reachedFrom_anti (Nat.succ_le_of_lt hlt) hmem

/-- What holds of the numbers in some nodes, and of the numbers in a block if of its own, holds of
all numbers that the nodes lead to. -/
theorem forall_mem_reachable {P : Nat → Prop} (hnodes : ∀ i ∈ Node.allBlockIndices nodes, P i)
    (hblocks : ∀ index b, s.blocks[index]? = some b → P index →
      ∀ i ∈ Node.allBlockIndices b.rules, P i) : ∀ i ∈ s.reachable nodes, P i := by
  have hentries : ∀ entry ∈ s.blocks.zipIdx, s.blocks[entry.2]? = some entry.1 := by
    intro entry hentry
    exact List.mem_zipIdx_iff_getElem?.1 hentry
  unfold reachable
  generalize s.blocks.zipIdx = entries at hentries
  induction entries with
  | nil => exact hnodes
  | cons entry entries ih =>
    obtain ⟨hentry, hrest⟩ := List.forall_mem_cons.1 hentries
    obtain ⟨b, index⟩ := entry
    rw [List.foldr_cons]
    dsimp only
    split
    · rename_i hreached
      have hown := ih hrest index (List.contains_iff_mem.1 hreached)
      exact List.forall_mem_append.2 ⟨hblocks index b hentry hown, ih hrest⟩
    · exact ih hrest

/-- Of the blocks that some nodes lead to, the joined one reads as the joined rule. -/
theorem join_readBlocks {blocks : List Block}
    (hjoin : s.mapReachable nodes Block.join = .ok blocks)
    (hindex : index ∈ s.reachedFrom nodes (index + 1)) (context : List Path) :
    (readBlocks s.blocks index).join context = .ok (readBlocks blocks index) := by
  have hlength := length_of_mapReachable_join hjoin
  induction index using Nat.strongRecOn generalizing context with
  | ind index ih =>
    cases hb : s.blocks[index]? with
    | none =>
      have hle := List.getElem?_eq_none_iff.1 hb
      rw [readBlocks_of_le hle, readBlocks_of_le (hlength.symm ▸ hle), Rule.join_hole]
    | some b =>
      obtain ⟨b', hb', hjoined, -⟩ := exists_of_mapReachable_join hjoin hb
      have hreached : index ∈ s.reachable nodes :=
        reachedFrom_zero s nodes ▸ reachedFrom_anti (Nat.zero_le _) hindex
      obtain ⟨rules, hrules, ⟨⟩⟩ := bind_eq_ok_iff.1 (hjoined hreached)
      rw [readBlocks_of_getElem? hb, readBlocks_of_getElem? hb']
      refine Rule.join_media_eq_ok_iff.2 ⟨_, Node.joinAll_readAll b.rules ?_ hrules, rfl⟩
      -- The blocks inside are the ones before this one, or there are none of their numbers.
      intro other hother context
      by_cases hlt : other < index
      · rw [lookBelow_of_lt _ hlt, lookBelow_of_lt _ hlt]
        exact ih other hlt (mem_reachedFrom_of_mem hindex hb hother hlt) context
      · rw [lookBelow, lookBelow, if_neg hlt, if_neg hlt, Rule.join_hole]

end Store

/-- A document that was joined reads as its plain rules, joined. -/
theorem ensures_join_rulesOf (r : Ruleset) (s : Store) :
    Ensures r.join s
      (fun joined t => ∃ paths inner, r.header.join [] = .ok (paths, inner) ∧
        joined.header = { r.header with paths } ∧
          Rule.joinAll inner (s.rulesOf r.rules) = .ok (t.rulesOf joined.rules))
      fun _ _ => True := by
  have hblocks : readBlocks (r.renew.run s).2.blocks = readBlocks s.blocks := readBlocks_renew r s
  have hrules (look : Nat → Rule) : Node.readAll look (r.renew.run s).1.rules =
      Node.readAll look r.rules := Node.readAll_renewAll r.rules _
  have hheader : (r.renew.run s).1.header = r.header := rfl
  rw [Store.rulesOf_eq_readAll, ← hblocks, ← hrules, ← hheader, ensures_join_iff]
  refine ⟨fun joined blocks hjoined => ?_, fun _ _ => trivial⟩
  obtain ⟨hjoin, hreached⟩ := Ruleset.joinWith_eq_ok_iff.1 hjoined
  obtain ⟨paths, inner, rules, hpaths, hrules, ⟨⟩⟩ := Node.join_ruleset_eq_ok_iff.1 hjoin
  refine ⟨paths, inner, hpaths, rfl, ?_⟩
  rw [Store.rulesOf_eq_readAll]
  refine Node.joinAll_readAll _ (fun index hindex context => ?_) hrules
  exact Store.join_readBlocks hreached
    (Store.allBlockIndices_subset_reachedFrom _ _ (index + 1) hindex) context

end Stylesheet
