import Stylesheet.Proofs.Compile.Joining
import Stylesheet.Proofs.Node.Recast
import Stylesheet.Proofs.Path.References
import Stylesheet.Proofs.Path.WellFormed

/-!
# The headers of a joined tree

A node has a header for each ruleset in it. Mixin definitions are left out, since joining does not
enter them. If all selectors in these headers have elements then the node can be joined onto
well-formed paths, and all paths that this writes into headers are well formed. No joined path has a
reference to a parent, and each selector without a reference ends a path, whatever the selectors
are.

In either case the invariant is about the context: the paths of a ruleset are the context of the
rulesets in it.
-/

namespace Stylesheet

/-- A selector without a reference is put at the end of a path. -/
theorem Path.exists_getLast?_of_join {context joined : List Path} {selectors : List Selector}
    {s : Selector} (h : Path.join context selectors = .ok joined) (hs : s ∈ selectors)
    (hparent : s.hasParent = false) : ∃ path ∈ joined, path.getLast? = some s := by
  obtain ⟨groups, hgroups, ⟨⟩⟩ := bind_eq_ok_iff.1 h
  obtain ⟨group, hgroup, hone⟩ := exists_of_mem_left (mapM_eq_ok_iff.1 hgroups) hs
  rw [Path.joinOne, hparent, if_neg Bool.false_ne_true] at hone
  obtain ⟨⟩ := hone
  cases context with
  | nil => exact ⟨[s], List.mem_flatten.2 ⟨_, hgroup, List.mem_singleton.2 rfl⟩, rfl⟩
  | cons parent parents =>
    exact ⟨parent ++ [s], List.mem_flatten.2 ⟨_, hgroup, List.mem_cons_self⟩,
      List.getLast?_concat⟩

namespace Header

variable {header : Header} {context paths inner : List Path}

/-- The paths that a header gets are in the context for its rules. -/
theorem paths_subset_of_join (h : header.join context = .ok (paths, inner)) : paths ⊆ inner := by
  rcases join_cases h with ⟨-, rfl, -⟩ | ⟨-, -, rfl⟩
  · exact List.nil_subset inner
  · exact List.Subset.refl inner

theorem free_join (hcontext : ∀ parent ∈ context, parent.Free)
    (h : header.join context = .ok (paths, inner)) : ∀ path ∈ inner, path.Free := by
  rcases join_cases h with ⟨-, -, rfl⟩ | ⟨-, hjoin, rfl⟩
  · exact hcontext
  · exact Path.free_join hcontext hjoin

/-- The header has paths as joining gives them: there are no references to parents in them, and each
selector without a reference is the last one of a path. -/
structure Joined (header : Header) : Prop where
  free : ∀ path ∈ header.paths, path.Free
  last : header.root = false → ∀ s ∈ header.selectors, s.hasParent = false →
    ∃ path ∈ header.paths, path.getLast? = some s

theorem joined_of_join (hcontext : ∀ parent ∈ context, parent.Free)
    (h : header.join context = .ok (paths, inner)) : Joined { header with paths } := by
  refine ⟨fun path hpath => ?_, fun hroot s hs hparent => ?_⟩
  · exact free_join hcontext h path (paths_subset_of_join h hpath)
  · rcases join_cases h with ⟨hnone, -, -⟩ | ⟨-, hjoin, -⟩
    · rw [hroot, Bool.false_or, List.isEmpty_iff] at hnone
      rw [hnone] at hs
      cases hs
    · exact Path.exists_getLast?_of_join hjoin hs hparent

end Header

namespace Node

mutual

/-- The headers of the rulesets in a node, outside of mixin definitions. -/
def headers : Node → List Header
  | .ruleset ⟨_, _, header, rules⟩ => header :: allHeaders rules
  | .media _ rules => allHeaders rules
  | .directive _ (some rules) => allHeaders rules
  | _ => []

/-- The headers of the rulesets in some nodes, outside of mixin definitions. -/
def allHeaders : List Node → List Header
  | [] => []
  | node :: nodes => headers node ++ allHeaders nodes

end

variable {n : Node} {nodes : List Node}

theorem mem_allHeaders_iff {header : Header} :
    header ∈ allHeaders nodes ↔ ∃ n ∈ nodes, header ∈ n.headers := by
  induction nodes with
  | nil => simp [allHeaders]
  | cons n nodes ih => simp [allHeaders, ih]

variable {change : Header → Header}

mutual

theorem headers_recast : ∀ n : Node, (n.recast change).headers = n.headers.map change
  | .ruleset ⟨_, _, header, rules⟩ => congrArg (change header :: ·) (allHeaders_recastAll rules)
  | .media _ rules | .directive _ (some rules) => allHeaders_recastAll rules
  | .declaration _ | .definition _ | .call _ | .inclusion _ | .comment _ | .block _
  | .directive _ none => rfl

theorem allHeaders_recastAll : ∀ nodes : List Node,
    allHeaders (recastAll change nodes) = (allHeaders nodes).map change
  | [] => rfl
  | n :: nodes => by
    rw [recastAll, allHeaders, allHeaders, headers_recast n, allHeaders_recastAll nodes,
      List.map_append]

end

mutual

/-- A node whose selectors have elements can be joined onto well-formed paths, and gets only
well-formed paths. -/
theorem exists_join : ∀ (n : Node) {context : List Path},
    (∀ parent ∈ context, parent.WellFormed) → (∀ header ∈ n.headers, header.HasElements) →
      ∃ m, join context n = .ok m ∧ ∀ header ∈ m.headers, ∀ path ∈ header.paths, path.WellFormed
  | .ruleset ⟨serial, source, header, rules⟩, context, hcontext, h => by
    obtain ⟨hheader, hrules⟩ := List.forall_mem_cons.1 h
    obtain ⟨paths, inner, hpaths, hinner⟩ := Header.join_wellFormed hheader hcontext
    obtain ⟨joined, hjoined, hwell⟩ := exists_joinAll rules hinner hrules
    refine ⟨.ruleset ⟨serial, source, { header with paths }, joined⟩, ?_,
      List.forall_mem_cons.2 ⟨fun path hpath => ?_, hwell⟩⟩
    · rw [join, hpaths, ok_bind]
      dsimp only
      rw [hjoined]
      rfl
    · exact hinner path (Header.paths_subset_of_join hpaths hpath)
  | .media head rules, _, _, h => by
    obtain ⟨joined, hjoined, hwell⟩ := exists_joinAll rules (List.forall_mem_nil _) h
    exact ⟨.media head joined, by rw [join, hjoined]; rfl, hwell⟩
  | .directive head (some rules), _, _, h => by
    obtain ⟨joined, hjoined, hwell⟩ := exists_joinAll rules (List.forall_mem_nil _) h
    exact ⟨.directive head (some joined), by rw [join, hjoined]; rfl, hwell⟩
  | .declaration _, _, _, _ | .definition _, _, _, _ | .call _, _, _, _ | .inclusion _, _, _, _
  | .comment _, _, _, _ | .block _, _, _, _ | .directive _ none, _, _, _ =>
    ⟨_, rfl, List.forall_mem_nil _⟩

theorem exists_joinAll : ∀ (nodes : List Node) {context : List Path},
    (∀ parent ∈ context, parent.WellFormed) → (∀ header ∈ allHeaders nodes, header.HasElements) →
      ∃ joined, joinAll context nodes = .ok joined ∧
        ∀ header ∈ allHeaders joined, ∀ path ∈ header.paths, path.WellFormed
  | [], _, _, _ => ⟨[], rfl, List.forall_mem_nil _⟩
  | n :: nodes, _, hcontext, h => by
    rw [allHeaders, List.forall_mem_append] at h
    obtain ⟨m, hm, hwell⟩ := exists_join n hcontext h.1
    obtain ⟨rest, hrest, hmore⟩ := exists_joinAll nodes hcontext h.2
    refine ⟨m :: rest, by rw [joinAll, hm, ok_bind, hrest]; rfl, ?_⟩
    exact List.forall_mem_append.2 ⟨hwell, hmore⟩

end

mutual

/-- The headers in a joined node have paths as joining gives them, if the context has no references.
-/
theorem joined_of_join : ∀ (n : Node) {context : List Path} {m : Node},
    (∀ parent ∈ context, parent.Free) → join context n = .ok m →
      ∀ header ∈ m.headers, header.Joined
  | .ruleset r, context, m, hcontext, h => by
    obtain ⟨paths, inner, joined, hpaths, hjoined, rfl⟩ := join_ruleset_eq_ok_iff.1 h
    obtain ⟨serial, source, header, rules⟩ := r
    exact List.forall_mem_cons.2 ⟨Header.joined_of_join hcontext hpaths,
      joined_of_joinAll rules (Header.free_join hcontext hpaths) hjoined⟩
  | .media _ rules, _, _, _, h | .directive _ (some rules), _, _, _, h => by
    rw [join] at h
    obtain ⟨joined, hjoined, ⟨⟩⟩ := bind_eq_ok_iff.1 h
    exact joined_of_joinAll rules (List.forall_mem_nil _) hjoined
  | .declaration _, _, _, _, h | .definition _, _, _, _, h | .call _, _, _, _, h
  | .inclusion _, _, _, _, h | .comment _, _, _, _, h | .block _, _, _, _, h
  | .directive _ none, _, _, _, h => by
    obtain ⟨⟩ := h
    exact List.forall_mem_nil _

theorem joined_of_joinAll : ∀ (nodes : List Node) {context : List Path} {joined : List Node},
    (∀ parent ∈ context, parent.Free) → joinAll context nodes = .ok joined →
      ∀ header ∈ allHeaders joined, header.Joined
  | [], _, _, _, h => by
    obtain ⟨⟩ := h
    exact List.forall_mem_nil _
  | n :: nodes, context, joined, hcontext, h => by
    rw [joinAll] at h
    obtain ⟨m, hm, h⟩ := bind_eq_ok_iff.1 h
    obtain ⟨rest, hrest, ⟨⟩⟩ := bind_eq_ok_iff.1 h
    exact List.forall_mem_append.2
      ⟨joined_of_join n hcontext hm, joined_of_joinAll nodes hcontext hrest⟩

end

section Sound

variable {fit : Fit} {bound : Nat}

/-- The headers in a sound node fit. -/
theorem Sound.headers (h : n.Sound fit bound) : ∀ header ∈ n.headers, fit.header header := by
  have hall : ∀ {nodes : List Node}, (∀ n ∈ nodes, ∀ header ∈ n.headers, fit.header header) →
      ∀ header ∈ allHeaders nodes, fit.header header := by
    intro nodes h header hheader
    obtain ⟨n, hn, hheader⟩ := mem_allHeaders_iff.1 hheader
    exact h n hn header hheader
  induction h with
  | @ruleset r hheader _ _ ih =>
    obtain ⟨serial, source, header, rules⟩ := r
    exact List.forall_mem_cons.2 ⟨hheader, hall ih⟩
  | media _ _ ih => exact hall ih
  | @directive head rules _ _ ih =>
    cases rules with
    | none => exact List.forall_mem_nil _
    | some rules => exact hall (ih rules rfl)
  | _ => exact List.forall_mem_nil _

/-- Sound nodes can be joined onto well-formed paths. -/
theorem AllSound.joinAll_ok (h : AllSound .hasElements bound nodes) {context : List Path}
    (hcontext : ∀ parent ∈ context, parent.WellFormed) :
    ∃ joined, joinAll context nodes = .ok joined := by
  obtain ⟨joined, hjoined, -⟩ := exists_joinAll nodes hcontext fun header hheader => by
    obtain ⟨n, hn, hheader⟩ := mem_allHeaders_iff.1 hheader
    exact (h n hn).headers header hheader
  exact ⟨joined, hjoined⟩

end Sound

end Node

end Stylesheet
