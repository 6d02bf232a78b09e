import Stylesheet.Path.Printer
import Stylesheet.Proofs.Path.WellFormed

/-!
# Joining level by level

Rulesets are nested to any depth, and the selectors of each level are joined onto the
paths of the level around it. How those paths are cut into selectors makes no
difference: contexts with the same chains give paths with the same chains, at every
depth. The text of a path is the text of its chain, so the printed selectors are the
same as well.

In particular every path may be collapsed into one selector before the next level is
joined.
-/

namespace Stylesheet.Path

/-- Join the selectors of one level after the other, from the outermost on. -/
def joinLevels (context : List Path) (levels : List (List Selector)) : Except Error (List Path) :=
  levels.foldlM join context

/-- The path as one selector. -/
def collapse (path : Path) : Path := [{ elements := path.flat }]

/-- Join the selectors of one level after the other, each onto paths of one selector. -/
def joinCollapsed (context : List Path) (levels : List (List Selector)) :
    Except Error (List Path) :=
  levels.foldlM (fun paths => join (paths.map collapse)) context

section Text

variable (compact : Bool)

/-- Behind a cut an element is printed as it reads there. -/
theorem leadCss_false (e : Element) :
    leadCss compact false e.combinator ++ e.value = e.afterCut.css compact := by
  obtain ⟨c, value⟩ := e
  cases c <;> rfl

theorem selectorCss_false (s : Selector) :
    selectorCss compact false s = String.join (s.innerElements.map (Element.css compact)) := by
  unfold selectorCss Selector.innerElements
  cases s.elements with
  | nil => rfl
  | cons e es => rw [List.map_cons, String.join_cons, ← leadCss_false]

theorem join_selectorCss_false (path : Path) :
    String.join (path.map (selectorCss compact false)) =
      String.join ((path.flatMap Selector.innerElements).map (Element.css compact)) := by
  induction path with
  | nil => rfl
  | cons s path ih =>
    rw [List.map_cons, String.join_cons, List.flatMap_cons, List.map_append, String.join_append,
      selectorCss_false, ih]

/-- The text of a path is the text of its chain. -/
theorem css_collapse {path : Path} (h : path.WellFormed) :
    path.collapse.css compact = path.css compact := by
  obtain ⟨s, rest, rfl⟩ := List.exists_cons_of_ne_nil h.1
  obtain ⟨e, es, he⟩ := List.exists_cons_of_ne_nil (h.2 s (by simp))
  rw [css, join_selectorCss_false]
  simp [collapse, css, selectorCss, flat, he, String.append_assoc]

end Text

section Chains

theorem forall₂_tuples {α β : Type} {R : α → β → Prop} {xs : List α} {ys : List β}
    (h : List.Forall₂ R xs ys) (n : Nat) :
    List.Forall₂ (List.Forall₂ R) (tuples xs n) (tuples ys n) := by
  induction n with
  | zero => exact .cons .nil .nil
  | succ n ih =>
    exact List.rel_flatMap h fun x y hxy => List.rel_map (fun l m hlm => .cons hxy hlm) ih

/-- What is substituted for a reference counts by its chain only. -/
theorem substitute_congr {parents parents' : List Path}
    (h : List.Forall₂ (fun p p' : Path => p'.flat = p.flat) parents parents')
    (front : List Element) (references : List (Combinator × List Element)) :
    substitute front references parents' = substitute front references parents := by
  unfold substitute
  congr 1
  induction h generalizing references with
  | nil => rw [List.zip_nil_right]
  | cons hflat _ ih =>
    cases references with
    | nil => rfl
    | cons reference references =>
      rw [List.zip_cons_cons, List.zip_cons_cons, List.flatMap_cons, List.flatMap_cons, ih]
      dsimp only
      rw [hflat]

variable {context context' : List Path}

/-- Two contexts that differ at most in how their paths are cut. -/
structure SameChains (context context' : List Path) : Prop where
  left : ∀ path ∈ context, path.WellFormed
  right : ∀ path ∈ context', path.WellFormed
  flat_eq : context.map flat = context'.map flat

namespace SameChains

theorem forall₂ (h : SameChains context context') :
    List.Forall₂ (fun p p' : Path => p'.flat = p.flat) context context' := by
  have heq := h.flat_eq
  rw [← List.forall₂_eq_eq_eq, List.forall₂_map_left_iff, List.forall₂_map_right_iff] at heq
  exact heq.imp fun _ _ hflat => hflat.symm

theorem collapse (h : SameChains context context') :
    SameChains context (context'.map Path.collapse) := by
  refine ⟨h.left, ?_, ?_⟩
  · intro path hpath
    obtain ⟨p, hp, rfl⟩ := List.mem_map.1 hpath
    obtain ⟨hne, hsolid⟩ := h.right p hp
    exact ⟨by simp [Path.collapse], Solid.cons (hsolid.flat_ne_nil hne) solid_nil⟩
  · rw [h.flat_eq, List.map_map]
    refine List.map_congr_left fun p _ => ?_
    rw [Function.comp_apply, Path.collapse, flat_singleton]

theorem length_eq (h : SameChains context context') : context.length = context'.length := by
  simpa using congrArg List.length h.flat_eq

theorem css_eq (h : SameChains context context') (compact : Bool) :
    context.map (css compact) = context'.map (css compact) := by
  have hcollapse : ∀ {paths : List Path}, (∀ path ∈ paths, path.WellFormed) →
      paths.map (css compact) =
        (paths.map flat).map fun chain => css compact [{ elements := chain }] := by
    intro paths hpaths
    rw [List.map_map]
    exact List.map_congr_left fun path hpath => (css_collapse compact (hpaths path hpath)).symm
  rw [hcollapse h.left, hcollapse h.right, h.flat_eq]

/-- One selector, joined onto contexts with the same chains, gives paths with the same chains. -/
theorem flat_joinOne (h : SameChains context context') (s : Selector) :
    (joinOne context s).map (List.map flat) = (joinOne context' s).map (List.map flat) := by
  -- Without a context nothing is substituted, and the two sides are the same.
  by_cases hnil : context = []
  · have hnil' : context' = [] := by simpa [hnil] using h.flat_eq.symm
    rw [hnil, hnil']
  have hnil' : context' ≠ [] := by
    rintro rfl
    exact hnil (by simpa using h.flat_eq)
  cases hs : s.hasParent with
  | true =>
    obtain ⟨paths, hpaths, hflat⟩ := joinOne_of_hasParent hs hnil h.left
    obtain ⟨paths', hpaths', hflat'⟩ := joinOne_of_hasParent hs hnil' h.right
    rw [hpaths, hpaths', Except.map, Except.map, hflat, hflat']
    refine congrArg Except.ok (map_eq_map_of_forall₂ ?_).symm
    exact (forall₂_tuples h.forall₂ _).imp fun _ _ htuple => substitute_congr htuple _ _
  | false =>
    obtain ⟨paths, hpaths, hflat⟩ := joinOne_of_not_hasParent hs hnil h.left
    obtain ⟨paths', hpaths', hflat'⟩ := joinOne_of_not_hasParent hs hnil' h.right
    rw [hpaths, hpaths', Except.map, Except.map, hflat, hflat']
    refine congrArg Except.ok (map_eq_map_of_forall₂ (h.forall₂.imp ?_)).symm
    intro p p' hp
    rw [hp]

/-- So do several selectors. -/
theorem join (h : SameChains context context') {selectors : List Selector}
    (hselectors : ∀ s ∈ selectors, s.elements ≠ []) :
    ∃ joined joined', Path.join context selectors = .ok joined ∧
      Path.join context' selectors = .ok joined' ∧ SameChains joined joined' := by
  obtain ⟨joined, hjoined, hwell⟩ := join_wellFormed h.left hselectors
  obtain ⟨joined', hjoined', hwell'⟩ := join_wellFormed h.right hselectors
  refine ⟨joined, joined', hjoined, hjoined', hwell, hwell', ?_⟩
  have hgroups : (selectors.mapM (joinOne context)).map (List.map (List.map flat)) =
      (selectors.mapM (joinOne context')).map (List.map (List.map flat)) := by
    rw [← mapM_eq_map_mapM (fun _ => rfl), ← mapM_eq_map_mapM (fun _ => rfl)]
    exact congrArg (List.mapM · selectors) (funext h.flat_joinOne)
  obtain ⟨groups, hm, ⟨⟩⟩ := bind_eq_ok_iff.1 hjoined
  obtain ⟨groups', hm', ⟨⟩⟩ := bind_eq_ok_iff.1 hjoined'
  rw [hm, hm'] at hgroups
  rw [List.map_flatten, List.map_flatten, Except.ok.inj hgroups]

/-- So do several levels, by any way of joining that keeps the chains at each level. -/
theorem foldlM {step : List Path → List Selector → Except Error (List Path)}
    (hstep : ∀ (context context' : List Path) (selectors : List Selector),
      SameChains context context' → (∀ s ∈ selectors, s.elements ≠ []) →
        ∃ joined joined', Path.join context selectors = .ok joined ∧
          step context' selectors = .ok joined' ∧ SameChains joined joined')
    (h : SameChains context context') {levels : List (List Selector)}
    (hlevels : ∀ selectors ∈ levels, ∀ s ∈ selectors, s.elements ≠ []) :
    ∃ paths paths', joinLevels context levels = .ok paths ∧
      levels.foldlM step context' = .ok paths' ∧ SameChains paths paths' := by
  induction levels generalizing context context' with
  | nil => exact ⟨context, context', rfl, rfl, h⟩
  | cons selectors levels ih =>
    obtain ⟨hfirst, hrest⟩ := List.forall_mem_cons.1 hlevels
    obtain ⟨joined, joined', hjoined, hjoined', hsame⟩ := hstep _ _ _ h hfirst
    obtain ⟨paths, paths', hpaths, hpaths', hall⟩ := ih hsame hrest
    refine ⟨paths, paths', ?_, ?_, hall⟩
    · rw [joinLevels, List.foldlM_cons, hjoined, ok_bind]
      exact hpaths
    · rw [List.foldlM_cons, hjoined', ok_bind, hpaths']

end SameChains

end Chains

/-- Joining is associative with nesting: contexts whose paths have the same chains give, level by
level and to any depth, the same number of paths with the same chains and the same texts. So does
collapsing all paths into one selector each before every level. Joining never fails here. -/
theorem joinLevels_eq_of_flat_eq {context context' : List Path}
    (hcontext : ∀ path ∈ context, path ≠ [] ∧ ∀ s ∈ path, s.elements ≠ [])
    (hcontext' : ∀ path ∈ context', path ≠ [] ∧ ∀ s ∈ path, s.elements ≠ [])
    (hflat : context.map flat = context'.map flat) (levels : List (List Selector))
    (hlevels : ∀ selectors ∈ levels, ∀ s ∈ selectors, s.elements ≠ []) :
    ∃ paths paths' collapsed, joinLevels context levels = .ok paths ∧
      joinLevels context' levels = .ok paths' ∧ joinCollapsed context levels = .ok collapsed ∧
      (paths.length = paths'.length ∧ paths.map flat = paths'.map flat ∧
        ∀ compact, paths.map (css compact) = paths'.map (css compact)) ∧
      (paths.length = collapsed.length ∧ paths.map flat = collapsed.map flat ∧
        ∀ compact, paths.map (css compact) = collapsed.map (css compact)) := by
  have hsame : SameChains context context' := ⟨hcontext, hcontext', hflat⟩
  have hself : SameChains context context := ⟨hcontext, hcontext, rfl⟩
  obtain ⟨paths, paths', hpaths, hpaths', h⟩ :=
    hsame.foldlM (fun _ _ _ h hs => h.join hs) hlevels
  obtain ⟨_, collapsed, hagain, hcollapsed, h'⟩ :=
    hself.foldlM (fun _ _ _ h hs => h.collapse.join hs) hlevels
  obtain rfl : paths = _ := Except.ok.inj (hpaths.symm.trans hagain)
  exact ⟨paths, paths', collapsed, hpaths, hpaths', hcollapsed,
    ⟨h.length_eq, h.flat_eq, h.css_eq⟩, h'.length_eq, h'.flat_eq, h'.css_eq⟩

/-- The paths `.a .b`, in two selectors, and `.c`. -/
def cutPaths : List Path :=
  [[{ elements := [⟨.compound, ".a"⟩] }, { elements := [⟨.compound, ".b"⟩] }],
    [{ elements := [⟨.compound, ".c"⟩] }]]

/-- The same paths in one selector each. -/
def wholePaths : List Path :=
  [[{ elements := [⟨.compound, ".a"⟩, ⟨.descendant, ".b"⟩] }],
    [{ elements := [⟨.compound, ".c"⟩] }]]

/-- The selector `& + &` around the selector `.d &:e`. -/
def twoLevels : List (List Selector) :=
  [[{ elements := [⟨.compound, "&"⟩, ⟨.sibling, "&"⟩] }],
    [{ elements := [⟨.compound, ".d"⟩, ⟨.descendant, "&"⟩, ⟨.compound, ":e"⟩] }]]

theorem joinLevels_eq_of_flat_eq_two_levels :
    (joinLevels cutPaths twoLevels).map (List.map (css false)) =
      .ok [".d .a .b + .a .b:e", ".d .a .b + .c:e", ".d .c + .a .b:e", ".d .c + .c:e"] ∧
    ∃ paths paths' collapsed, joinLevels cutPaths twoLevels = .ok paths ∧
      joinLevels wholePaths twoLevels = .ok paths' ∧
      joinCollapsed cutPaths twoLevels = .ok collapsed ∧
      (paths.length = paths'.length ∧ paths.map flat = paths'.map flat ∧
        ∀ compact, paths.map (css compact) = paths'.map (css compact)) ∧
      (paths.length = collapsed.length ∧ paths.map flat = collapsed.map flat ∧
        ∀ compact, paths.map (css compact) = collapsed.map (css compact)) :=
  ⟨rfl, joinLevels_eq_of_flat_eq (by decide) (by decide) (by decide) twoLevels (by decide)⟩

end Stylesheet.Path
