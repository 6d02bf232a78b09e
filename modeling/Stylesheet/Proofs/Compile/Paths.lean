import Stylesheet.Proofs.Compile.Joining
import Stylesheet.Proofs.Node.Headers
import Stylesheet.Proofs.Node.Recast

/-!
# What joining writes

Joining a ruleset writes the paths of the rulesets in it and in the blocks that it leads to.

* If all selectors there have elements then joining succeeds, and all paths that it writes are well
  formed and have no references to parents.
* Nothing else is written but new numbers, and paths are not read. So what comes out does not depend
  on the paths before, and joining it once more gives the same tree again.
-/

namespace Stylesheet

/-- The ruleset with the headers in it changed and without numbers. -/
def Ruleset.recast (change : Header → Header) (r : Ruleset) : Ruleset where
  serial := 0
  source := r.source
  header := change r.header
  rules := Node.recastAll change r.rules

/-- The block with the headers in it changed and without numbers. -/
def Block.recast (change : Header → Header) (b : Block) : Block :=
  { b with rules := Node.recastAll change b.rules }

/-- The headers of the rulesets in a ruleset and in the blocks that it leads to, outside of mixin
definitions. -/
def Store.headersIn (s : Store) (r : Ruleset) : List Header :=
  (Node.ruleset r).headers ++
    (s.reachable r.rules).flatMap fun index =>
      ((s.blocks[index]?).map fun b => Node.allHeaders b.rules).getD []

theorem Store.forall_mem_headersIn_iff {s : Store} {r : Ruleset} {P : Header → Prop} :
    (∀ header ∈ s.headersIn r, P header) ↔
      (∀ header ∈ (Node.ruleset r).headers, P header) ∧
        ∀ index ∈ s.reachable r.rules, ∀ b, s.blocks[index]? = some b →
          ∀ header ∈ Node.allHeaders b.rules, P header := by
  rw [headersIn, List.forall_mem_append]
  refine and_congr_right fun _ => ⟨fun h index hindex b hb header hheader => ?_, fun h => ?_⟩
  · refine h header (List.mem_flatMap.2 ⟨index, hindex, ?_⟩)
    rwa [hb]
  · intro header hheader
    obtain ⟨index, hindex, hheader⟩ := List.mem_flatMap.1 hheader
    cases hb : s.blocks[index]? with
    | none =>
      rw [hb] at hheader
      cases hheader
    | some b =>
      rw [hb] at hheader
      exact h index hindex b hb header hheader

theorem Node.recast_ruleset (change : Header → Header) (r : Ruleset) :
    (Node.ruleset r).recast change = .ruleset (r.recast change) := by
  obtain ⟨serial, source, header, rules⟩ := r
  rfl

/-- Two rulesets, and the blocks of their stores, are the same once their headers are changed and
numbers are left out. -/
structure Agree (change : Header → Header) (r : Ruleset) (s : Store) (r' : Ruleset) (t : Store) :
    Prop where
  ruleset : r'.recast change = r.recast change
  blocks : t.blocks.map (Block.recast change) = s.blocks.map (Block.recast change)

namespace Agree

variable {change : Header → Header} {r q p : Ruleset} {s t u : Store} {b : Block} {index : Nat}

theorem trans (h : Agree change r s q t) (h' : Agree change q t p u) : Agree change r s p u :=
  ⟨h'.ruleset.trans h.ruleset, h'.blocks.trans h.blocks⟩

theorem symm (h : Agree change r s q t) : Agree change q t r s :=
  ⟨h.ruleset.symm, h.blocks.symm⟩

/-- Renewing changes nothing but numbers. -/
theorem renew (change : Header → Header) (r : Ruleset) (s : Store) :
    Agree change r s (r.renew.run s).1 (r.renew.run s).2 where
  ruleset := congrArg (fun rules => (⟨0, r.source, change r.header, rules⟩ : Ruleset))
    (Node.recastAll_renewAll r.rules s.nextSerial)
  blocks := by
    refine map_eq_map_of_forall₂ ((forall₂_blocks_renew r s).imp ?_)
    rintro b b' (rfl | ⟨next, rfl⟩)
    · rfl
    · exact congrArg (Block.mk b.head) (Node.recastAll_renewAll b.rules next)

theorem forall₂_blocks (h : Agree change r s q t) :
    List.Forall₂ (fun b c : Block => c.recast change = b.recast change) s.blocks t.blocks := by
  have hsame : List.Forall₂ Eq (t.blocks.map (Block.recast change))
      (s.blocks.map (Block.recast change)) := h.blocks ▸ List.forall₂_refl _
  exact (List.forall₂_map_right_iff.1 (List.forall₂_map_left_iff.1 hsame)).flip

theorem allBlockIndices_rules (h : Agree change r s q t) :
    Node.allBlockIndices q.rules = Node.allBlockIndices r.rules := by
  have hsame := congrArg (fun r : Ruleset => Node.allBlockIndices r.rules) h.ruleset
  simpa only [Ruleset.recast, Node.allBlockIndices_recastAll] using hsame

/-- The same blocks are reached in both. -/
theorem reachable_rules (h : Agree change r s q t) :
    t.reachable q.rules = s.reachable r.rules := by
  refine Store.reachable_congr h.allBlockIndices_rules (h.forall₂_blocks.imp fun b c hsame => ?_)
  have hindices := congrArg (fun b : Block => Node.allBlockIndices b.rules) hsame
  simpa only [Block.recast, Node.allBlockIndices_recastAll] using hindices

theorem headersIn (h : Agree change r s q t) :
    (t.headersIn q).map change = (s.headersIn r).map change := by
  have hindex (index : Nat) :
      (((t.blocks[index]?).map fun b => Node.allHeaders b.rules).getD []).map change =
        (((s.blocks[index]?).map fun b => Node.allHeaders b.rules).getD []).map change := by
    cases hb : s.blocks[index]? with
    | none =>
      have hle := h.forall₂_blocks.length_eq ▸ List.getElem?_eq_none_iff.1 hb
      rw [List.getElem?_eq_none_iff.2 hle]
    | some b =>
      obtain ⟨c, hc, hsame⟩ := exists_of_getElem?_left h.forall₂_blocks hb
      have hheaders := congrArg (fun b : Block => Node.allHeaders b.rules) hsame
      rw [hc, Option.map_some, Option.map_some, Option.getD_some, Option.getD_some]
      simpa only [Block.recast, Node.allHeaders_recastAll] using hheaders
  rw [Store.headersIn, Store.headersIn, List.map_append, List.map_append, ← Node.headers_recast,
    ← Node.headers_recast, Node.recast_ruleset, Node.recast_ruleset, h.ruleset, h.reachable_rules,
    List.map_flatMap, List.map_flatMap, funext hindex]

/-- The same mixin definitions are in both. -/
theorem definitions (h : Agree change r s q t) :
    Node.allDefinitions q.rules = Node.allDefinitions r.rules ∧
      t.blocks.map (fun b => Node.allDefinitions b.rules) =
        s.blocks.map fun b => Node.allDefinitions b.rules := by
  constructor
  · have hsame := congrArg (fun r : Ruleset => Node.allDefinitions r.rules) h.ruleset
    simpa only [Ruleset.recast, Node.allDefinitions_recastAll] using hsame
  · refine map_eq_map_of_forall₂ (h.forall₂_blocks.imp fun b c hsame => ?_)
    have hdefinitions := congrArg (fun b : Block => Node.allDefinitions b.rules) hsame
    simpa only [Block.recast, Node.allDefinitions_recastAll] using hdefinitions

end Agree

namespace Block

variable {b c b' : Block}

theorem join_eq_ok_iff :
    b.join = .ok b' ↔ ∃ rules, Node.joinAll [] b.rules = .ok rules ∧ b' = { b with rules } := by
  rw [Block.join, bind_eq_ok_iff]
  constructor
  · rintro ⟨rules, hrules, ⟨⟩⟩
    exact ⟨rules, hrules, rfl⟩
  · rintro ⟨rules, hrules, rfl⟩
    exact ⟨rules, hrules, rfl⟩

theorem recast_unjoined_of_join (h : b.join = .ok b') :
    b'.recast .unjoined = b.recast .unjoined := by
  obtain ⟨rules, hrules, rfl⟩ := join_eq_ok_iff.1 h
  exact congrArg (Block.mk b.head) (Node.recastAll_unjoined_of_joinAll b.rules hrules)

theorem join_congr (hsame : c.recast .unjoined = b.recast .unjoined) (h : b.join = .ok b') :
    ∃ c', c.join = .ok c' ∧ c'.recast id = b'.recast id := by
  obtain ⟨rules, hrules, rfl⟩ := join_eq_ok_iff.1 h
  obtain ⟨head, others⟩ := c
  obtain ⟨rfl, hothers⟩ := Block.mk.inj hsame
  obtain ⟨joined, hjoined, hrecast⟩ := Node.joinAll_congr hothers hrules
  exact ⟨⟨b.head, joined⟩, join_eq_ok_iff.2 ⟨joined, hjoined, rfl⟩,
    congrArg (Block.mk b.head) hrecast⟩

theorem exists_join (h : ∀ header ∈ Node.allHeaders b.rules, header.HasElements) :
    ∃ b', b.join = .ok b' ∧ ∀ header ∈ Node.allHeaders b'.rules,
      (∀ path ∈ header.paths, path.WellFormed) ∧ header.Joined := by
  obtain ⟨rules, hrules, hwell⟩ := Node.exists_joinAll b.rules (List.forall_mem_nil _) h
  refine ⟨{ b with rules }, join_eq_ok_iff.2 ⟨rules, hrules, rfl⟩, fun header hheader => ?_⟩
  exact ⟨hwell header hheader,
    Node.joined_of_joinAll b.rules (List.forall_mem_nil _) hrules header hheader⟩

end Block

section Joining

variable {r r' q : Ruleset} {s t u : Store} {blocks : List Block}

/-- Joining with the blocks writes paths only. -/
theorem agree_of_joinWith (h : r.joinWith s.blocks = .ok (r', blocks)) :
    Agree .unjoined r s r' { s with blocks } := by
  obtain ⟨hnode, hblocks⟩ := Ruleset.joinWith_eq_ok_iff.1 h
  refine ⟨?_, ?_⟩
  · have hsame := Node.recast_unjoined_of_join _ hnode
    rw [Node.recast_ruleset, Node.recast_ruleset] at hsame
    exact Node.ruleset.inj hsame
  · refine map_eq_map_of_forall₂ ((Store.forall₂_of_mapReachable_join hblocks).imp ?_)
    rintro b b' (rfl | hjoin)
    · rfl
    · exact Block.recast_unjoined_of_join hjoin

/-- Rulesets that differ in paths and numbers only are joined alike, and so are the blocks that they
lead to. -/
theorem joinWith_congr (h : r.joinWith s.blocks = .ok (r', blocks))
    (hsame : Agree .unjoined r s q u) :
    ∃ q' others, q.joinWith u.blocks = .ok (q', others) ∧ q'.recast id = r'.recast id ∧
      ∀ index ∈ s.reachable r.rules, ∀ b, blocks[index]? = some b →
        ∃ c, others[index]? = some c ∧ c.recast id = b.recast id := by
  obtain ⟨hnode, hblocks⟩ := Ruleset.joinWith_eq_ok_iff.1 h
  have hruleset : (Node.ruleset q).recast .unjoined = (Node.ruleset r).recast .unjoined := by
    rw [Node.recast_ruleset, Node.recast_ruleset, hsame.ruleset]
  obtain ⟨m, hm, hrecast⟩ := Node.join_congr hruleset hnode
  obtain ⟨paths, inner, rules, -, -, rfl⟩ := Node.join_ruleset_eq_ok_iff.1 hm
  rw [Node.recast_ruleset, Node.recast_ruleset] at hrecast
  -- A block that is reached in one of the stores is reached in the other, and is joined there.
  have hreached {index : Nat} {c : Block} (hc : u.blocks[index]? = some c)
      (hindex : index ∈ s.reachable r.rules) : ∃ c' b, c.join = .ok c' ∧
        blocks[index]? = some b ∧ c'.recast id = b.recast id := by
    obtain ⟨b, hb, hcb⟩ := exists_of_getElem?_right hsame.forall₂_blocks hc
    obtain ⟨b', hb', hjoin, -⟩ := Store.exists_of_mapReachable_join hblocks hb
    obtain ⟨c', hc', hcb'⟩ := Block.join_congr hcb (hjoin hindex)
    exact ⟨c', b', hc', hb', hcb'⟩
  obtain ⟨others, hothers⟩ : ∃ others,
      Store.mapReachable { blocks := u.blocks } q.rules Block.join = .ok others := by
    refine Store.mapReachable_join_ok_of fun index c hc hindex => ?_
    obtain ⟨c', -, hc', -⟩ := hreached hc (hsame.reachable_rules ▸ hindex)
    obtain ⟨rules, hrules, -⟩ := Block.join_eq_ok_iff.1 hc'
    exact ⟨rules, hrules⟩
  refine ⟨_, others, Ruleset.joinWith_eq_ok_iff.2 ⟨hm, hothers⟩, Node.ruleset.inj hrecast, ?_⟩
  intro index hindex b' hb'
  obtain ⟨b, hb, -⟩ := exists_of_getElem?_right (Store.forall₂_of_mapReachable_join hblocks) hb'
  obtain ⟨c, hc, -⟩ := exists_of_getElem?_left hsame.forall₂_blocks hb
  obtain ⟨c', d, hjoin, hd, hcd⟩ := hreached hc hindex
  obtain ⟨other, hother, hjoined, -⟩ := Store.exists_of_mapReachable_join hothers hc
  have hboth := hjoined (hsame.reachable_rules.symm ▸ hindex)
  rw [hjoin] at hboth
  obtain ⟨⟩ := hboth
  rw [hb'] at hd
  obtain ⟨⟩ := hd
  exact ⟨c', hother, hcd⟩

/-- If all selectors have elements then joining with the blocks succeeds, and it gives well-formed
paths without references. -/
theorem exists_joinWith (h : ∀ header ∈ s.headersIn r, header.HasElements) :
    ∃ r' blocks, r.joinWith s.blocks = .ok (r', blocks) ∧
      ∀ header ∈ Store.headersIn { s with blocks } r',
        (∀ path ∈ header.paths, path.WellFormed) ∧ header.Joined := by
  obtain ⟨hown, hreached⟩ := Store.forall_mem_headersIn_iff.1 h
  obtain ⟨m, hm, hwell⟩ := Node.exists_join (.ruleset r) (List.forall_mem_nil _) hown
  have hjoined := Node.joined_of_join (.ruleset r) (List.forall_mem_nil _) hm
  obtain ⟨paths, inner, rules, -, -, rfl⟩ := Node.join_ruleset_eq_ok_iff.1 hm
  obtain ⟨blocks, hblocks⟩ := Store.mapReachable_join_ok_of fun index b hb hindex => by
    obtain ⟨b', hb', -⟩ := Block.exists_join (hreached index hindex b hb)
    obtain ⟨rules, hrules, -⟩ := Block.join_eq_ok_iff.1 hb'
    exact ⟨rules, hrules⟩
  have hjoin := Ruleset.joinWith_eq_ok_iff.2 ⟨hm, hblocks⟩
  refine ⟨_, blocks, hjoin, Store.forall_mem_headersIn_iff.2 ⟨?_, ?_⟩⟩
  · exact fun header hheader => ⟨hwell header hheader, hjoined header hheader⟩
  · intro index hindex b' hb'
    rw [(agree_of_joinWith hjoin).reachable_rules] at hindex
    obtain ⟨b, hb, -⟩ := exists_of_getElem?_right (Store.forall₂_of_mapReachable_join hblocks) hb'
    obtain ⟨c, hc, hjoined, -⟩ := Store.exists_of_mapReachable_join hblocks hb
    obtain ⟨d, hd, hheaders⟩ := Block.exists_join (hreached index hindex b hb)
    rw [hjoined hindex] at hd
    rw [hb'] at hc
    obtain ⟨⟩ := hc
    obtain ⟨⟩ := hd
    exact hheaders

theorem agree_of_join (h : r.join.run.run s = (.ok r', t)) : Agree .unjoined r s r' t := by
  obtain ⟨blocks, hjoin, rfl⟩ := Ruleset.run_join_eq_ok_iff.1 h
  exact (Agree.renew .unjoined r s).trans (agree_of_joinWith hjoin)

/-- A block that is not reached keeps its paths. -/
theorem recast_id_of_not_reached (h : r.join.run.run s = (.ok r', t)) {index : Nat} {b : Block}
    (hindex : index ∉ s.reachable r.rules) (hb : s.blocks[index]? = some b) :
    ∃ c, t.blocks[index]? = some c ∧ c.recast id = b.recast id := by
  obtain ⟨blocks, hjoin, rfl⟩ := Ruleset.run_join_eq_ok_iff.1 h
  have hrenew := Agree.renew id r s
  obtain ⟨c, hc, hsame⟩ := exists_of_getElem?_left hrenew.forall₂_blocks hb
  obtain ⟨d, hd, -, hkeep⟩ :=
    Store.exists_of_mapReachable_join (Ruleset.joinWith_eq_ok_iff.1 hjoin).2 hc
  exact ⟨d, hd, hkeep (hrenew.reachable_rules.symm ▸ hindex) ▸ hsame⟩

/-- What joining gives does not depend on the paths and numbers that were there. -/
theorem join_congr (h : r.join.run.run s = (.ok r', t)) (hsame : Agree .unjoined r s q u) :
    ∃ q' v, q.join.run.run u = (.ok q', v) ∧ q'.recast id = r'.recast id ∧
      ∀ index ∈ t.reachable r'.rules, ∀ b, t.blocks[index]? = some b →
        ∃ c, v.blocks[index]? = some c ∧ c.recast id = b.recast id := by
  have hreachable := (agree_of_join h).reachable_rules
  obtain ⟨blocks, hjoin, rfl⟩ := Ruleset.run_join_eq_ok_iff.1 h
  have hrenewed := (Agree.renew .unjoined r s).symm.trans
    (hsame.trans (Agree.renew .unjoined q u))
  obtain ⟨q', others, hjoined, hruleset, hreached⟩ := joinWith_congr hjoin hrenewed
  refine ⟨q', _, Ruleset.run_join_eq_ok_iff.2 ⟨others, hjoined, rfl⟩, hruleset, ?_⟩
  rw [hreachable, ← (Agree.renew id r s).reachable_rules]
  exact hreached

/-- Joining once more changes nothing but numbers. -/
theorem join_join (h : r.join.run.run s = (.ok r', t)) :
    ∃ r'' u, r'.join.run.run t = (.ok r'', u) ∧ Agree id r' t r'' u := by
  obtain ⟨r'', u, hagain, hruleset, hreached⟩ := join_congr h (agree_of_join h)
  refine ⟨r'', u, hagain, hruleset, ?_⟩
  have hlength := (agree_of_join hagain).forall₂_blocks.length_eq
  refine map_eq_map_of_forall₂ (List.forall₂_iff_get.2 ⟨hlength, fun index hb hc => ?_⟩)
  have hget : t.blocks[index]? = some (t.blocks.get ⟨index, hb⟩) := List.getElem?_eq_getElem hb
  have hother : ∃ c, u.blocks[index]? = some c ∧
      c.recast id = (t.blocks.get ⟨index, hb⟩).recast id := by
    by_cases hindex : index ∈ t.reachable r'.rules
    · exact hreached index hindex _ hget
    · exact recast_id_of_not_reached hagain hindex hget
  obtain ⟨c, hc', hsame⟩ := hother
  obtain ⟨_, rfl⟩ := List.getElem?_eq_some_iff.1 hc'
  exact hsame

end Joining

/-- A ruleset can be joined if all selectors in it and in the blocks that it leads to have elements.
All paths that it gets then have a selector, all their selectors have elements, and there are no
references to parents in them. Each selector without a reference ends a path. -/
theorem Ruleset.join_paths_wellFormed {r : Ruleset} {s : Store}
    (h : ∀ header ∈ s.headersIn r, header.HasElements) :
    ∃ r' t, r.join.run.run s = (.ok r', t) ∧ ∀ header ∈ t.headersIn r',
      (∀ path ∈ header.paths, path.WellFormed ∧ path.Free) ∧
      (header.root = false → ∀ selector ∈ header.selectors, selector.hasParent = false →
        ∃ path ∈ header.paths, path.getLast? = some selector) := by
  have hrenewed : (r.renew.run s).2.headersIn (r.renew.run s).1 = s.headersIn r := by
    have hsame := (Agree.renew id r s).headersIn
    rwa [List.map_id, List.map_id] at hsame
  rw [← hrenewed] at h
  obtain ⟨r', blocks, hjoin, hheaders⟩ := exists_joinWith h
  refine ⟨r', _, run_join_eq_ok_iff.2 ⟨blocks, hjoin, rfl⟩, fun header hheader => ?_⟩
  obtain ⟨hwell, hjoined⟩ := hheaders header hheader
  exact ⟨fun path hpath => ⟨hwell path hpath, hjoined.free path hpath⟩, hjoined.last⟩

/-- A ruleset with a reference in it and a media block that it leads to twice. -/
theorem Ruleset.join_paths_wellFormed_shared_block :
    let hover : Selector := { elements := [{ value := "&" }, { value := ":hover" }] }
    let name (text : String) : Header := { selectors := [{ elements := [{ value := text }] }] }
    let r : Ruleset :=
      ⟨1, none, name ".a", [.ruleset ⟨2, none, { selectors := [hover] }, []⟩, .block 0,
        .directive { name := "layer" } (some [.block 0])]⟩
    let s : Store :=
      { nextSerial := 4
        blocks := [⟨{ features := "print" }, [.ruleset ⟨3, none, name ".b", []⟩]⟩] }
    (∀ header ∈ s.headersIn r, header.HasElements) ∧
      ∃ r' t, r.join.run.run s = (.ok r', t) ∧ ∀ header ∈ t.headersIn r',
        (∀ path ∈ header.paths, path.WellFormed ∧ path.Free) ∧
        (header.root = false → ∀ selector ∈ header.selectors, selector.hasParent = false →
          ∃ path ∈ header.paths, path.getLast? = some selector) := by
  intro hover name r s
  have h : ∀ header ∈ s.headersIn r, header.HasElements := by decide +kernel
  exact ⟨h, join_paths_wellFormed h⟩

/-- Joining a ruleset writes paths outside of mixin definitions, and nothing else but numbers. What
it writes does not depend on the paths that were there, so joining once more gives the same ruleset
and the same blocks again. -/
theorem Ruleset.join_writes_only_paths {r r' : Ruleset} {s t : Store}
    (h : r.join.run.run s = (.ok r', t)) :
    Agree .unjoined r s r' t ∧
    (Node.allDefinitions r'.rules = Node.allDefinitions r.rules ∧
      t.blocks.map (fun b => Node.allDefinitions b.rules) =
        s.blocks.map fun b => Node.allDefinitions b.rules) ∧
    (∀ q u, Agree .unjoined r s q u → ∃ q' v, q.join.run.run u = (.ok q', v) ∧
      q'.recast id = r'.recast id ∧
      ∀ index ∈ t.reachable r'.rules, ∀ b, t.blocks[index]? = some b →
        ∃ c, v.blocks[index]? = some c ∧ c.recast id = b.recast id) ∧
    ∃ r'' v, r'.join.run.run t = (.ok r'', v) ∧ Agree id r' t r'' v :=
  ⟨agree_of_join h, (agree_of_join h).definitions, fun _ _ hsame => join_congr h hsame, join_join h⟩

/-- A ruleset with a path from elsewhere, a mixin definition with a path of its own, and a media
block. -/
theorem Ruleset.join_writes_only_paths_over_old :
    let name (text : String) : Selector := { elements := [{ value := text }] }
    let old : List Path := [[name ".old"]]
    let mixin : Definition :=
      ⟨{ name := name ".m" }, [.ruleset ⟨4, none, { selectors := [name ".n"], paths := old }, []⟩],
        none⟩
    let r : Ruleset :=
      ⟨1, none, { selectors := [name ".a"], paths := old }, [.definition mixin, .block 0]⟩
    let s : Store :=
      { nextSerial := 5
        blocks :=
          [⟨{ features := "print" }, [.ruleset ⟨3, none, { selectors := [name ".b"] }, []⟩]⟩] }
    ∃ r' t r'' u, r.join.run.run s = (.ok r', t) ∧ r'.header.paths = [[name ".a"]] ∧
      Agree .unjoined r s r' t ∧ Node.allDefinitions r'.rules = [mixin] ∧
      r'.join.run.run t = (.ok r'', u) ∧ Agree id r' t r'' u := by
  intro name old mixin r s
  have hpaths : (r.join.run.run s).1.toOption.map (·.header.paths) = some [[name ".a"]] := by
    decide +kernel
  cases hrun : r.join.run.run s with
  | mk result t =>
    rw [hrun] at hpaths
    cases result with
    | error e => cases hpaths
    | ok r' =>
      obtain ⟨hsame, ⟨hdefinitions, -⟩, -, r'', u, hagain, hid⟩ := join_writes_only_paths hrun
      exact ⟨r', t, r'', u, rfl, Option.some.inj hpaths, hsame, hdefinitions, hagain, hid⟩

end Stylesheet
