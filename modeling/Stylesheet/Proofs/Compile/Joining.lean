import Stylesheet.Compile.Basic
import Stylesheet.Proofs.Compile.Steps

/-!
# Joining as one step

Joining a ruleset gives it new numbers first. What is left then needs no store but the blocks: the
header, the rules and each block that the rules lead to are joined, and it fails if one of them
cannot be joined. `ensures_join_iff` says that joining is just that, so proofs about joined trees
start from `Ruleset.joinWith`.
-/

namespace Stylesheet

/-- A header has no paths and passes its context on, or its paths are the context for its rules. -/
theorem Header.join_cases {header : Header} {context paths inner : List Path}
    (h : header.join context = .ok (paths, inner)) :
    ((header.root || header.selectors.isEmpty) = true ∧ paths = [] ∧ inner = context) ∨
      ((header.root || header.selectors.isEmpty) = false ∧
        Path.join context header.selectors = .ok paths ∧ inner = paths) := by
  unfold Header.join at h
  cases hnone : header.root || header.selectors.isEmpty with
  | true =>
    rw [if_pos hnone] at h
    obtain ⟨⟩ := h
    exact .inl ⟨rfl, rfl, rfl⟩
  | false =>
    rw [hnone, if_neg Bool.false_ne_true] at h
    obtain ⟨joined, hjoined, ⟨⟩⟩ := bind_eq_ok_iff.1 h
    exact .inr ⟨rfl, hjoined, rfl⟩

namespace Store

variable {s t : Store} {nodes nodes' : List Node} {b : Block} {blocks : List Block} {index : Nat}

/-- Which blocks are reached depends only on what the nodes and the blocks refer to. -/
theorem reachable_congr (hnodes : Node.allBlockIndices nodes' = Node.allBlockIndices nodes)
    (hblocks : List.Forall₂ (fun b b' : Block =>
      Node.allBlockIndices b'.rules = Node.allBlockIndices b.rules) s.blocks t.blocks) :
    t.reachable nodes' = s.reachable nodes := by
  unfold reachable
  rw [hnodes]
  generalize Node.allBlockIndices nodes = reached
  generalize s.blocks = blocks at hblocks ⊢
  generalize t.blocks = blocks' at hblocks ⊢
  generalize 0 = start
  induction hblocks generalizing start with
  | nil => rfl
  | cons hb _ ih =>
    rw [List.zipIdx_cons, List.zipIdx_cons, List.foldr_cons, List.foldr_cons, ih]
    dsimp only
    rw [hb]

/-- A block that is reached is joined, and any other stays as it is. -/
theorem exists_of_mapReachable_join (h : s.mapReachable nodes Block.join = .ok blocks)
    (hb : s.blocks[index]? = some b) :
    ∃ b', blocks[index]? = some b' ∧ (index ∈ s.reachable nodes → b.join = .ok b') ∧
      (index ∉ s.reachable nodes → b' = b) := by
  have hentry : s.blocks.zipIdx[index]? = some (b, index) := by
    rw [List.getElem?_zipIdx, hb, Option.map_some, Nat.zero_add]
  obtain ⟨b', hb', hjoined⟩ := exists_of_getElem?_left (mapM_eq_ok_iff.1 h) hentry
  dsimp only at hjoined
  refine ⟨b', hb', fun hmem => ?_, fun hmem => ?_⟩
  · rwa [if_pos (List.contains_iff_mem.2 hmem)] at hjoined
  · rw [if_neg (mt List.contains_iff_mem.1 hmem)] at hjoined
    exact (Except.ok.inj hjoined).symm

theorem forall₂_of_mapReachable_join (h : s.mapReachable nodes Block.join = .ok blocks) :
    List.Forall₂ (fun b b' : Block => b' = b ∨ b.join = .ok b') s.blocks blocks := by
  have hentries : List.Forall₂ (fun (entry : Block × Nat) (b' : Block) =>
      b' = entry.1 ∨ entry.1.join = .ok b') s.blocks.zipIdx blocks := by
    refine (mapM_eq_ok_iff.1 h).imp fun entry b' hentry => ?_
    dsimp only at hentry
    split at hentry
    · exact .inr hentry
    · exact .inl (Except.ok.inj hentry).symm
  have hfst : s.blocks.zipIdx.map Prod.fst = s.blocks := List.zipIdx_map_fst 0 s.blocks
  rw [← hfst]
  exact List.forall₂_map_left_iff.2 hentries

theorem length_of_mapReachable_join (h : s.mapReachable nodes Block.join = .ok blocks) :
    blocks.length = s.blocks.length := by
  exact (forall₂_of_mapReachable_join h).length_eq.symm

/-- The blocks that some nodes lead to can be joined if each of them can. -/
theorem mapReachable_join_ok_of (h : ∀ index b, s.blocks[index]? = some b →
    index ∈ s.reachable nodes → ∃ rules, Node.joinAll [] b.rules = .ok rules) :
    ∃ blocks, s.mapReachable nodes Block.join = .ok blocks := by
  have hentry : ∀ entry ∈ s.blocks.zipIdx, ∃ b,
      (if (s.reachable nodes).contains entry.2 then entry.1.join else pure entry.1) = .ok b ∧
        True := by
    intro entry hmem
    split
    · rename_i hreached
      obtain ⟨rules, hrules⟩ := h entry.2 entry.1 (List.mem_zipIdx_iff_getElem?.1 hmem)
        (List.contains_iff_mem.1 hreached)
      exact ⟨{ entry.1 with rules }, by rw [Block.join, hrules]; rfl, trivial⟩
    · exact ⟨entry.1, rfl, trivial⟩
  obtain ⟨blocks, hblocks, -⟩ := exists_mapM_ok hentry
  exact ⟨blocks, hblocks⟩

end Store

/-- Join the selectors of a ruleset onto nothing, and those of the blocks that it refers to. -/
def Ruleset.joinWith (r : Ruleset) (blocks : List Block) : Except Error (Ruleset × List Block) := do
  let joined ← r.header.join []
  let rules ← Node.joinAll joined.2 r.rules
  let blocks ← Store.mapReachable { blocks } r.rules Block.join
  return ({ r with header := { r.header with paths := joined.1 }, rules }, blocks)

theorem Node.join_ruleset_eq_ok_iff {r : Ruleset} {context : List Path} {n : Node} :
    Node.join context (.ruleset r) = .ok n ↔
      ∃ paths inner rules, r.header.join context = .ok (paths, inner) ∧
        Node.joinAll inner r.rules = .ok rules ∧
          n = .ruleset { r with header := { r.header with paths }, rules } := by
  obtain ⟨serial, source, header, rules⟩ := r
  rw [Node.join, bind_eq_ok_iff]
  constructor
  · rintro ⟨⟨paths, inner⟩, hpaths, h⟩
    obtain ⟨joined, hjoined, ⟨⟩⟩ := bind_eq_ok_iff.1 h
    exact ⟨paths, inner, joined, hpaths, hjoined, rfl⟩
  · rintro ⟨paths, inner, joined, hpaths, hjoined, rfl⟩
    exact ⟨(paths, inner), hpaths, bind_eq_ok_iff.2 ⟨joined, hjoined, rfl⟩⟩

theorem Ruleset.joinWith_eq_ok_iff {r r' : Ruleset} {blocks blocks' : List Block} :
    r.joinWith blocks = .ok (r', blocks') ↔
      Node.join [] (.ruleset r) = .ok (.ruleset r') ∧
        Store.mapReachable { blocks } r.rules Block.join = .ok blocks' := by
  rw [Ruleset.joinWith, bind_eq_ok_iff, Node.join_ruleset_eq_ok_iff]
  constructor
  · rintro ⟨⟨paths, inner⟩, hpaths, h⟩
    obtain ⟨rules, hrules, h⟩ := bind_eq_ok_iff.1 h
    obtain ⟨joined, hjoined, ⟨⟩⟩ := bind_eq_ok_iff.1 h
    exact ⟨⟨paths, inner, rules, hpaths, hrules, rfl⟩, hjoined⟩
  · rintro ⟨⟨paths, inner, rules, hpaths, hrules, ⟨⟩⟩, hjoined⟩
    exact ⟨(paths, inner), hpaths, bind_eq_ok_iff.2 ⟨rules, hrules,
      bind_eq_ok_iff.2 ⟨blocks', hjoined, rfl⟩⟩⟩

/-- Joining is joining with the blocks once everything has new numbers. -/
theorem ensures_join_iff {r : Ruleset} {s : Store} {post : Ruleset → Store → Prop}
    {fail : Error → Store → Prop} :
    Ensures r.join s post fail ↔
      (∀ r' blocks, (r.renew.run s).1.joinWith (r.renew.run s).2.blocks = .ok (r', blocks) →
        post r' { (r.renew.run s).2 with blocks }) ∧
      ∀ e, (r.renew.run s).1.joinWith (r.renew.run s).2.blocks = .error e →
        fail e (r.renew.run s).2 := by
  rw [Ruleset.join, ensures_bind, ensures_lift]
  generalize (r.renew.run s).1 = renewed
  generalize (r.renew.run s).2 = t
  have hblocks : Store.mapReachable { blocks := t.blocks } renewed.rules Block.join =
      t.mapReachable renewed.rules Block.join := rfl
  rw [Ruleset.joinWith, hblocks, ensures_bind]
  cases renewed.header.join [] with
  | error e => simp [ofExcept]
  | ok joined =>
    obtain ⟨paths, inner⟩ := joined
    rw [ensures_ofExcept_of_ok rfl, ok_bind]
    dsimp only
    rw [ensures_bind]
    cases Node.joinAll inner renewed.rules with
    | error e => simp [ofExcept]
    | ok rules =>
      rw [ensures_ofExcept_of_ok rfl, ok_bind, ensures_bind, ensures_get, ensures_bind]
      cases t.mapReachable renewed.rules Block.join with
      | error e => simp [ofExcept]
      | ok blocks =>
        rw [ensures_ofExcept_of_ok rfl, ok_bind]
        constructor
        · intro h
          refine ⟨?_, fun e he => by cases he⟩
          rintro r' blocks' ⟨⟩
          exact h
        · exact fun h => h.1 _ _ rfl

theorem Ruleset.run_join_eq_ok_iff {r r' : Ruleset} {s t : Store} :
    r.join.run.run s = (.ok r', t) ↔
      ∃ blocks, (r.renew.run s).1.joinWith (r.renew.run s).2.blocks = .ok (r', blocks) ∧
        t = { (r.renew.run s).2 with blocks } := by
  constructor
  · intro h
    have hjoin : Ensures r.join s (fun joined u => ∃ blocks,
        (r.renew.run s).1.joinWith (r.renew.run s).2.blocks = .ok (joined, blocks) ∧
          u = { (r.renew.run s).2 with blocks }) fun _ _ => True :=
      ensures_join_iff.2 ⟨fun _ blocks hblocks => ⟨blocks, hblocks, rfl⟩, fun _ _ => trivial⟩
    exact hjoin.of_ok h
  · rintro ⟨blocks, h, rfl⟩
    have hjoin : Ensures r.join s
        (fun joined u => joined = r' ∧ u = { (r.renew.run s).2 with blocks }) fun _ _ => False := by
      refine ensures_join_iff.2 ⟨fun joined others hjoined => ?_, fun e he => ?_⟩
      · rw [h] at hjoined
        obtain ⟨⟩ := hjoined
        exact ⟨rfl, rfl⟩
      · rw [h] at he
        cases he
    obtain ⟨joined, u, hrun, rfl, rfl⟩ := hjoin.exists_ok
    exact hrun

/-- Joining does not fail where the header, the rules and the blocks can be joined. -/
theorem ensures_join_of_ok {r : Ruleset} {s : Store} {paths inner : List Path} {rules : List Node}
    {blocks : List Block} (hpaths : r.header.join [] = .ok (paths, inner))
    (hrules : Node.joinAll inner (r.renew.run s).1.rules = .ok rules)
    (hblocks : (r.renew.run s).2.mapReachable (r.renew.run s).1.rules Block.join = .ok blocks) :
    Ensures r.join s (fun _ _ => True) fun _ _ => False := by
  have hjoin : (r.renew.run s).1.joinWith (r.renew.run s).2.blocks =
      .ok ({ (r.renew.run s).1 with header := { r.header with paths }, rules }, blocks) :=
    Ruleset.joinWith_eq_ok_iff.2
      ⟨Node.join_ruleset_eq_ok_iff.2 ⟨paths, inner, rules, hpaths, hrules, rfl⟩, hblocks⟩
  refine ensures_join_iff.2 ⟨fun _ _ _ => trivial, fun e he => ?_⟩
  rw [hjoin] at he
  cases he

end Stylesheet
