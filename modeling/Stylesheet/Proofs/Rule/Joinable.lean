import Stylesheet.Proofs.Node.Headers
import Stylesheet.Proofs.Node.Layers
import Stylesheet.Proofs.Rule.Literal

/-!
# Literal documents can be joined

Every selector of a literal rule has an element, so joining finds paths for it in every context of
well-formed paths. A document that reads as literal rules has only such rulesets, and so have the
blocks that it leads to.
-/

namespace Stylesheet

namespace Node

variable {look : Nat → Rule}

mutual

theorem hasElements_of_isLiteral : ∀ n : Node, (n.read look).IsLiteral →
    ∀ header ∈ n.headers, header.HasElements
  | .ruleset ⟨_, _, _, rules⟩, h =>
    List.forall_mem_cons.2 ⟨fun σ hσ => (h.1 σ hσ).2, hasElements_of_allLiteral rules h.2⟩
  | .media _ rules, h | .directive _ (some rules), h => hasElements_of_allLiteral rules h
  | .declaration _, _ | .definition _, _ | .call _, _ | .inclusion _, _ | .comment _, _
  | .block _, _ | .directive _ none, _ => List.forall_mem_nil _

/-- The selectors in what reads as literal rules have elements. -/
theorem hasElements_of_allLiteral : ∀ nodes : List Node, Rule.AllLiteral (readAll look nodes) →
    ∀ header ∈ allHeaders nodes, header.HasElements
  | [], _ => List.forall_mem_nil _
  | n :: nodes, h => List.forall_mem_append.2
    ⟨hasElements_of_isLiteral n h.1, hasElements_of_allLiteral nodes h.2⟩

end

mutual

theorem isLiteral_look : ∀ n : Node, (n.read look).IsLiteral →
    ∀ i ∈ n.blockIndices, (look i).IsLiteral
  | .block _, h, _, hi => List.mem_singleton.1 hi ▸ h
  | .ruleset ⟨_, _, _, rules⟩, h, i, hi => allLiteral_look rules h.2 i hi
  | .media _ rules, h, i, hi | .directive _ (some rules), h, i, hi => allLiteral_look rules h i hi

/-- The blocks in what reads as literal rules read as literal rules. -/
theorem allLiteral_look : ∀ nodes : List Node, Rule.AllLiteral (readAll look nodes) →
    ∀ i ∈ allBlockIndices nodes, (look i).IsLiteral
  | n :: nodes, h, i, hi =>
    (List.mem_append.1 hi).elim (isLiteral_look n h.1 i) (allLiteral_look nodes h.2 i)

end

end Node

theorem LayeredFrom.renew {first : Nat} {s : Store} (h : LayeredFrom first s.blocks)
    (r : Ruleset) : LayeredFrom first (r.renew.run s).2.blocks := by
  intro index b' hfirst hb'
  obtain ⟨b, hb, hrenew⟩ := exists_of_getElem?_right (forall₂_blocks_renew r s) hb'
  rcases hrenew with rfl | ⟨next, rfl⟩
  · exact h index b' hfirst hb
  · exact (h index b hfirst hb).renewAll next

/-- A literal document can be joined. -/
theorem ensures_join_of_allLiteral {r : Ruleset} {s : Store} (hheader : r.header.HasElements)
    (hlayered : LayeredFrom 0 s.blocks) (hliteral : Rule.AllLiteral (s.rulesOf r.rules)) :
    Ensures r.join s (fun _ _ => True) fun _ _ => False := by
  have hnone := List.forall_mem_nil Path.WellFormed
  have hrules : (r.renew.run s).1.rules = ((Node.renewAll r.rules).run s.nextSerial).1 := rfl
  have hsame : (r.renew.run s).1.header = r.header := rfl
  rw [Store.rulesOf_eq_readAll, ← readBlocks_renew r s,
    ← Node.readAll_renewAll r.rules s.nextSerial, ← hrules] at hliteral
  rw [← hsame] at hheader
  have hrenewed := hlayered.renew r
  obtain ⟨paths, inner, hpaths, hinner⟩ := Header.join_wellFormed hheader hnone
  obtain ⟨joined, hjoined, -⟩ :=
    Node.exists_joinAll _ hinner (Node.hasElements_of_allLiteral _ hliteral)
  have hreached : ∀ i ∈ (r.renew.run s).2.reachable (r.renew.run s).1.rules,
      (readBlocks (r.renew.run s).2.blocks i).IsLiteral := by
    refine Store.forall_mem_reachable (Node.allLiteral_look _ hliteral) ?_
    intro index b hb hindex
    rw [hrenewed.readBlocks_eq (Nat.zero_le _) hb] at hindex
    exact Node.allLiteral_look b.rules hindex
  obtain ⟨blocks, hblocks⟩ := Store.mapReachable_join_ok_of fun index b hb hmem => by
    have hindex := hreached index hmem
    rw [hrenewed.readBlocks_eq (Nat.zero_le _) hb] at hindex
    obtain ⟨rules, hrules, -⟩ :=
      Node.exists_joinAll b.rules hnone (Node.hasElements_of_allLiteral b.rules hindex)
    exact ⟨rules, hrules⟩
  exact ensures_join_of_ok hpaths hjoined hblocks

end Stylesheet
