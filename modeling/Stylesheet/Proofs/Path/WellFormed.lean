import Stylesheet.Node.Join
import Stylesheet.Proofs.Node.Sound
import Stylesheet.Proofs.Path.Flat

/-!
# Joined paths are well formed

A path is well formed if it has a selector and every selector in it has an element.
Joining selectors with elements onto well-formed paths gives well-formed paths and
never fails, also where there is no context at all.
-/

namespace Stylesheet

/-- The path has a selector, and all its selectors have elements. -/
def Path.WellFormed (path : Path) : Prop := path ≠ [] ∧ path.Solid

/-- All selectors of the header have elements. -/
def Header.HasElements (header : Header) : Prop := ∀ s ∈ header.selectors, s.elements ≠ []

instance : DecidablePred Header.HasElements :=
  fun header => inferInstanceAs (Decidable (∀ s ∈ header.selectors, s.elements ≠ []))

/-- All selectors have elements, whatever the lists of rules are. -/
def Fit.hasElements : Fit where
  header := Header.HasElements
  rules := fun _ => True
  course := .any

namespace Path

variable {context paths : List Path} {s : Selector}

theorem solid_keepCombinator (c : Combinator) {path : Path} (h : path.Solid) :
    (keepCombinator c path).Solid := by
  cases path with
  | nil => exact h
  | cons first rest => exact Solid.cons (by simp) fun t ht => h t (by simp [ht])

theorem multiply_solid (hcontext : ∀ parent ∈ context, parent.WellFormed)
    (hpaths : ∀ path ∈ paths, path.Solid) (c : Combinator) :
    ∃ multiplied, multiply context s c paths = .ok multiplied ∧
      ∀ path ∈ multiplied, path.Solid := by
  by_cases hc : context = []
  · subst hc
    refine ⟨paths.map (keepCombinator c), rfl, ?_⟩
    intro path hpath
    obtain ⟨q, hq, rfl⟩ := List.mem_map.1 hpath
    exact solid_keepCombinator c (hpaths q hq)
  · obtain ⟨multiplied, hm, hbuilt⟩ := multiply_ok (s := s) c hc hcontext ⟨hpaths, rfl⟩
    exact ⟨multiplied, hm, hbuilt.1⟩

theorem weave_solid (hcontext : ∀ parent ∈ context, parent.WellFormed)
    (hpaths : ∀ path ∈ paths, path.Solid) (pending es : List Element) :
    ∃ woven, weave context s pending paths es = .ok woven ∧ ∀ path ∈ woven, path.Solid := by
  induction es generalizing pending paths with
  | nil => exact ⟨_, rfl, (built_extendAll pending ⟨hpaths, rfl⟩).1⟩
  | cons e es ih =>
    by_cases he : e.isParent = true
    · obtain ⟨multiplied, hm, hsolid⟩ := multiply_solid (s := s) hcontext
        (built_extendAll pending ⟨hpaths, rfl⟩).1 e.combinator
      obtain ⟨woven, hw, hwoven⟩ := ih hsolid []
      exact ⟨woven, by simp only [weave, he, if_true, hm, ok_bind, hw], hwoven⟩
    · obtain ⟨woven, hw, hwoven⟩ := ih hpaths (pending ++ [e])
      refine ⟨woven, ?_, hwoven⟩
      rw [weave, if_neg he, hw]

theorem joinOne_wellFormed (hcontext : ∀ parent ∈ context, parent.WellFormed)
    (hs : s.elements ≠ []) :
    ∃ joined, joinOne context s = .ok joined ∧ ∀ path ∈ joined, path.WellFormed := by
  have hsolid : Solid [s] := Solid.cons hs solid_nil
  cases hparent : s.hasParent with
  | true =>
    have hstart : ∀ path ∈ ([[]] : List Path), path.Solid := by simp [solid_nil]
    obtain ⟨woven, hw, hwoven⟩ := weave_solid (s := s) hcontext hstart [] s.elements
    refine ⟨woven.filter (!·.isEmpty), ?_, ?_⟩
    · simp only [joinOne, hparent, if_true, hw, ok_bind]
      rfl
    · intro path hpath
      obtain ⟨hmem, hne⟩ := List.mem_filter.1 hpath
      exact ⟨by simpa using hne, hwoven path hmem⟩
  | false =>
    by_cases hc : context = []
    · subst hc
      refine ⟨[[s]], by simp [joinOne, hparent], ?_⟩
      intro path hpath
      obtain rfl := List.mem_singleton.1 hpath
      exact ⟨by simp, hsolid⟩
    · refine ⟨context.map (· ++ [s]), by simp [joinOne, hparent, hc], ?_⟩
      intro path hpath
      obtain ⟨parent, hp, rfl⟩ := List.mem_map.1 hpath
      exact ⟨by simp, Solid.append (hcontext parent hp).2 hsolid⟩

/-- Joining selectors with elements onto well-formed paths gives well-formed paths. -/
theorem join_wellFormed (hcontext : ∀ parent ∈ context, parent.WellFormed)
    {selectors : List Selector} (h : ∀ s ∈ selectors, s.elements ≠ []) :
    ∃ joined, join context selectors = .ok joined ∧ ∀ path ∈ joined, path.WellFormed := by
  obtain ⟨groups, hgroups, hall⟩ :=
    exists_mapM_ok fun s hs => joinOne_wellFormed hcontext (h s hs)
  refine ⟨groups.flatten, ?_, ?_⟩
  · simp only [join, hgroups, ok_bind]
    rfl
  · intro path hpath
    obtain ⟨group, hgroup, hmem⟩ := List.mem_flatten.1 hpath
    obtain ⟨s, -, hwell⟩ := exists_of_mem_right hall hgroup
    exact hwell path hmem

end Path

theorem Header.join_wellFormed {header : Header} (h : header.HasElements) {context : List Path}
    (hcontext : ∀ parent ∈ context, parent.WellFormed) :
    ∃ paths inner, header.join context = .ok (paths, inner) ∧
      ∀ path ∈ inner, path.WellFormed := by
  unfold Header.join
  split
  · exact ⟨[], context, rfl, hcontext⟩
  · obtain ⟨joined, hjoined, hwell⟩ := Path.join_wellFormed hcontext h
    exact ⟨joined, joined, by rw [hjoined]; rfl, hwell⟩

end Stylesheet
