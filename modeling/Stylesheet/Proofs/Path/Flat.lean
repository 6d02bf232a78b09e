import Mathlib.Algebra.Group.Nat.Defs
import Stylesheet.Path.Join
import Stylesheet.Proofs.Except

/-!
# The closed form of joining

How a path is cut into selectors decides where joined elements go, but not what
is matched. The flat form of a path forgets the cuts: it lists all elements, and
writes out the descent that a cut stands for.

In the flat form joining is plain substitution. A selector without a parent
reference goes behind every context path. In a selector with `n` references the
references are replaced by `n` context paths in all ways, in the order of tuples
in which the first reference changes slowest. Neither fails on a context whose
paths are not empty and whose selectors have elements.
-/

namespace Stylesheet

namespace Element

/-- The element as it reads behind a cut, where the empty combinator means descent. -/
def afterCut (e : Element) : Element :=
  if e.combinator = .compound then { e with combinator := .descendant } else e

end Element

namespace Selector

/-- The elements of a selector that does not stand first in a path. -/
def innerElements (s : Selector) : List Element :=
  match s.elements with
  | [] => []
  | e :: es => e.afterCut :: es

/-- Elements that are added behind others are not first, and stay as they are. -/
theorem innerElements_append {s t : Selector} {more : List Element}
    (hs : s.elements ≠ []) (ht : t.elements = s.elements ++ more) :
    t.innerElements = s.innerElements ++ more := by
  obtain ⟨e, es, he⟩ := List.exists_cons_of_ne_nil hs
  simp [innerElements, ht, he]

end Selector

namespace Path

/-- The elements of a path as one chain. -/
def flat : Path → List Element
  | [] => []
  | s :: rest => s.elements ++ rest.flatMap Selector.innerElements

/-- Every selector of the path has elements. -/
def Solid (path : Path) : Prop := ∀ s ∈ path, s.elements ≠ []

/-- A chain with another combinator in front. -/
def retie (c : Combinator) : List Element → List Element
  | [] => []
  | e :: es => ⟨c, e.value⟩ :: es

/-- All tuples of a length over a list. The first component changes slowest. -/
def tuples {α : Type} (xs : List α) : Nat → List (List α)
  | 0 => [[]]
  | n + 1 => xs.flatMap fun x => (tuples xs n).map (x :: ·)

/-- What stands in front of the first reference of a chain, and each reference with what stands
between it and the next. -/
def cut : List Element → List Element × List (Combinator × List Element)
  | [] => ([], [])
  | e :: es =>
    if e.isParent then ([], (e.combinator, (cut es).1) :: (cut es).2)
    else (e :: (cut es).1, (cut es).2)

/-- The chain that consists of a front and of references, each with what follows it. -/
def assemble (front : List Element) (references : List (Combinator × List Element)) :
    List Element :=
  front ++ references.flatMap fun (c, segment) => ⟨c, "&"⟩ :: segment

/-- The chain in which each reference is replaced by the context path at its place. -/
def substitute (front : List Element) (references : List (Combinator × List Element))
    (parents : List Path) : List Element :=
  front ++ (references.zip parents).flatMap fun ((c, segment), parent) =>
    retie c parent.flat ++ segment

@[simp] theorem flat_nil : flat [] = [] := rfl

@[simp] theorem flat_singleton (s : Selector) : flat [s] = s.elements := by simp [flat]

theorem flat_append {path : Path} (h : path ≠ []) (more : Path) :
    flat (path ++ more) = path.flat ++ more.flatMap Selector.innerElements := by
  obtain ⟨s, rest, rfl⟩ := List.exists_cons_of_ne_nil h
  simp [flat]

theorem Solid.append {path more : Path} (h : path.Solid) (hm : more.Solid) :
    Solid (path ++ more) := by
  intro s hs
  rcases List.mem_append.1 hs with hs | hs
  · exact h s hs
  · exact hm s hs

theorem Solid.cons {s : Selector} {path : Path} (hs : s.elements ≠ []) (h : path.Solid) :
    Solid (s :: path) := by
  intro t ht
  rcases List.mem_cons.1 ht with rfl | ht
  · exact hs
  · exact h t ht

theorem solid_nil : Solid [] := by
  intro s hs
  cases hs

theorem Solid.flat_ne_nil {path : Path} (h : path.Solid) (hne : path ≠ []) : path.flat ≠ [] := by
  obtain ⟨s, rest, rfl⟩ := List.exists_cons_of_ne_nil hne
  simp [flat, h s (by simp)]

theorem length_tuples {α : Type} (xs : List α) (n : Nat) :
    (tuples xs n).length = xs.length ^ n := by
  induction n with
  | zero => rfl
  | succ n ih =>
    simp only [tuples, List.length_flatMap, List.length_map, ih]
    rw [List.map_const', List.sum_replicate_nat, Nat.pow_succ, Nat.mul_comm]

theorem length_of_mem_tuples {α : Type} {xs tuple : List α} {n : Nat} (h : tuple ∈ tuples xs n) :
    tuple.length = n ∧ ∀ x ∈ tuple, x ∈ xs := by
  induction n generalizing tuple with
  | zero => simp_all [tuples]
  | succ n ih =>
    obtain ⟨x, hx, htuple⟩ := List.mem_flatMap.1 h
    obtain ⟨rest, hrest, rfl⟩ := List.mem_map.1 htuple
    obtain ⟨hlength, hmem⟩ := ih hrest
    refine ⟨by simp [hlength], ?_⟩
    intro y hy
    rcases List.mem_cons.1 hy with rfl | hy
    · exact hx
    · exact hmem y hy

/-- Cutting a chain loses nothing. -/
theorem assemble_cut (es : List Element) : assemble (cut es).1 (cut es).2 = es := by
  induction es with
  | nil => rfl
  | cons e es ih =>
    by_cases he : e.isParent
    · have hvalue : e.value = "&" := by simpa [Element.isParent] using he
      have helement : (⟨e.combinator, "&"⟩ : Element) = e := by rw [← hvalue]
      simp only [assemble] at ih
      simp [cut, he, assemble, helement, ih]
    · simp only [assemble] at ih
      simp [cut, he, assemble, ih]

theorem not_isParent_of_mem_cut {es : List Element} :
    (∀ e ∈ (cut es).1, e.isParent = false) ∧
      ∀ r ∈ (cut es).2, ∀ e ∈ r.2, e.isParent = false := by
  induction es with
  | nil => simp [cut]
  | cons e es ih =>
    by_cases he : e.isParent
    · refine ⟨by simp [cut, he], ?_⟩
      intro r hr
      rw [cut, if_pos he] at hr
      rcases List.mem_cons.1 hr with rfl | hr
      · exact ih.1
      · exact ih.2 r hr
    · simp only [cut, he]
      refine ⟨?_, ih.2⟩
      intro f hf
      rcases List.mem_cons.1 hf with rfl | hf
      · simpa using he
      · exact ih.1 f hf

theorem cut_ne_nil_of_hasParent {s : Selector} (h : s.hasParent) : (cut s.elements).2 ≠ [] := by
  obtain ⟨e, he, hp⟩ := List.any_eq_true.1 h
  intro hnil
  have hes := assemble_cut s.elements
  rw [hnil] at hes
  simp only [assemble, List.flatMap_nil, List.append_nil] at hes
  have := not_isParent_of_mem_cut.1 e (hes ▸ he)
  simp [hp] at this

section Steps

variable {path parent : Path} {context paths : List Path} {s : Selector}

theorem extend_concat (elements : List Element) (front : Path) (last : Selector) :
    extend elements (front ++ [last]) = front ++ [last.derive (last.elements ++ elements)] := by
  induction front with
  | nil => rfl
  | cons t front ih =>
    cases front with
    | nil => rfl
    | cons u front => exact congrArg (t :: ·) ih

/-- Elements behind the last selector of a path go behind its chain, whatever follows as selectors
of its own. -/
theorem flat_concat_append (front more : Path) {last t : Selector} {elements : List Element}
    (hlast : last.elements ≠ []) (ht : t.elements = last.elements ++ elements) :
    flat (front ++ t :: more) =
      flat (front ++ [last]) ++ elements ++ more.flatMap Selector.innerElements := by
  cases front with
  | nil => simp [flat, ht]
  | cons u front =>
    simp [flat, Selector.innerElements_append hlast ht, List.append_assoc]

/-- Added elements end up at the end of the chain. -/
theorem flat_extend {elements : List Element} (hne : elements ≠ []) (h : path.Solid) :
    (extend elements path).flat = path.flat ++ elements ∧ (extend elements path).Solid := by
  rcases List.eq_nil_or_concat path with rfl | ⟨front, last, rfl⟩
  · exact ⟨by simp [extend], Solid.cons hne solid_nil⟩
  · rw [List.concat_eq_append] at h ⊢
    have hlast : last.elements ≠ [] := h last (by simp)
    rw [extend_concat]
    refine ⟨?_, ?_⟩
    · simpa using flat_concat_append front []
        (t := last.derive (last.elements ++ elements)) hlast rfl
    · exact Solid.append (fun u hu => h u (by simp [hu]))
        (Solid.cons (by simp [hne]) solid_nil)

/-- A context path that replaces a reference goes behind the chain so far, with the combinator of
the reference in front. -/
theorem attach_ok (c : Combinator) (h : path.Solid) (hp : parent.Solid) (hne : parent ≠ []) :
    ∃ joined, attach s c path parent = .ok joined ∧ joined.Solid ∧
      joined.flat = path.flat ++ retie c parent.flat := by
  obtain ⟨head, more, rfl⟩ := List.exists_cons_of_ne_nil hne
  obtain ⟨first, others, hhead⟩ := List.exists_cons_of_ne_nil (hp head (by simp))
  have hmore : Solid more := fun u hu => hp u (by simp [hu])
  refine ⟨path.dropLast ++ s.derive (lastElements path ++ ⟨c, first.value⟩ :: others) :: more,
    by simp only [attach, hhead], ?_, ?_⟩
  · exact Solid.append (fun u hu => h u (List.dropLast_subset path hu)) (Solid.cons (by simp) hmore)
  · rcases List.eq_nil_or_concat path with rfl | ⟨front, last, rfl⟩
    · simp [flat, lastElements, hhead, retie]
    · rw [List.concat_eq_append] at h ⊢
      have hlast : last.elements ≠ [] := h last (by simp)
      have hjoint : lastElements (front ++ [last]) ++ ⟨c, first.value⟩ :: others =
          last.elements ++ ⟨c, first.value⟩ :: others := by simp [lastElements]
      rw [List.dropLast_concat, flat_concat_append front more hlast hjoint]
      simp [flat, hhead, retie]

/-- Paths on the way to being joined: cut well, and with the given chains. -/
def Built (paths : List Path) (chains : List (List Element)) : Prop :=
  (∀ path ∈ paths, path.Solid) ∧ paths.map flat = chains

theorem built_extendAll {chains : List (List Element)} (elements : List Element)
    (h : Built paths chains) :
    Built (extendAll elements paths) (chains.map (· ++ elements)) := by
  obtain ⟨hsolid, rfl⟩ := h
  by_cases he : elements = []
  · subst he
    exact ⟨by simpa [extendAll] using hsolid, by simp [extendAll]⟩
  · have hall : extendAll elements paths = paths.map (extend elements) := by
      simp [extendAll, he]
    rw [hall]
    refine ⟨?_, ?_⟩
    · intro path hpath
      obtain ⟨q, hq, rfl⟩ := List.mem_map.1 hpath
      exact (flat_extend he (hsolid q hq)).2
    · simp only [List.map_map]
      refine List.map_congr_left ?_
      intro q hq
      exact (flat_extend he (hsolid q hq)).1

/-- Replacing a reference multiplies the paths by the context, which changes fastest. -/
theorem multiply_ok {chains : List (List Element)} (c : Combinator) (hc : context ≠ [])
    (hcontext : ∀ parent ∈ context, parent ≠ [] ∧ parent.Solid) (h : Built paths chains) :
    ∃ multiplied, multiply context s c paths = .ok multiplied ∧
      Built multiplied
        (chains.flatMap fun chain => context.map fun parent => chain ++ retie c parent.flat) := by
  obtain ⟨hsolid, rfl⟩ := h
  -- One path gives one joined path for each context path, in their order.
  have hone : ∀ path ∈ paths, ∃ joined, context.mapM (attach s c path) = .ok joined ∧
      (∀ q ∈ joined, q.Solid) ∧
      joined.map flat = context.map fun parent => path.flat ++ retie c parent.flat := by
    intro path hpath
    obtain ⟨joined, hjoined, hall⟩ := exists_mapM_ok (f := attach s c path) (l := context)
      (R := fun parent q => q.Solid ∧ q.flat = path.flat ++ retie c parent.flat)
      fun parent hparent => attach_ok c (hsolid path hpath) (hcontext parent hparent).2
        (hcontext parent hparent).1
    refine ⟨joined, hjoined, ?_, map_eq_map_of_forall₂ (hall.imp fun _ _ hq => hq.2)⟩
    intro q hq
    obtain ⟨_, _, hqs⟩ := exists_of_mem_right hall hq
    exact hqs.1
  obtain ⟨groups, hgroups, hall⟩ := exists_mapM_ok hone
  refine ⟨groups.flatten, ?_, ?_, ?_⟩
  · simp only [multiply, List.isEmpty_iff, hc, if_false, hgroups, ok_bind]
    rfl
  · intro q hq
    obtain ⟨group, hgroup, hqg⟩ := List.mem_flatten.1 hq
    obtain ⟨_, _, hjoined⟩ := exists_of_mem_right hall hgroup
    exact hjoined.1 q hqg
  · rw [List.map_flatten, map_eq_map_of_forall₂ (hall.imp fun _ _ hg => hg.2), List.flatMap_map]
    exact List.flatMap_def.symm

/-- Going through the rest of a selector gives, for each path so far and each tuple of context
paths, the path's chain with the rest substituted behind it. -/
theorem weave_ok {chains : List (List Element)} (pending es : List Element) (hc : context ≠ [])
    (hcontext : ∀ parent ∈ context, parent ≠ [] ∧ parent.Solid) (h : Built paths chains) :
    ∃ woven, weave context s pending paths es = .ok woven ∧
      Built woven (chains.flatMap fun chain =>
        (tuples context (cut es).2.length).map fun parents =>
          chain ++ pending ++ substitute (cut es).1 (cut es).2 parents) := by
  induction es generalizing pending paths chains with
  | nil =>
    refine ⟨_, rfl, ?_⟩
    have hend := built_extendAll pending h
    rw [List.map_eq_flatMap] at hend
    simpa [cut, tuples, substitute] using hend
  | cons e es ih =>
    by_cases he : e.isParent
    · obtain ⟨multiplied, hm, hbuilt⟩ :=
        multiply_ok (s := s) e.combinator hc hcontext (built_extendAll pending h)
      obtain ⟨woven, hw, hwoven⟩ := ih [] hbuilt
      refine ⟨woven, by simp only [weave, he, if_true, hm, ok_bind, hw], ?_⟩
      have hcut : cut (e :: es) = ([], (e.combinator, (cut es).1) :: (cut es).2) := by
        simp [cut, he]
      rw [hcut]
      simpa [tuples, substitute, List.flatMap_map, List.map_flatMap, List.flatMap_assoc,
        Function.comp_def, List.append_assoc] using hwoven
    · obtain ⟨woven, hw, hwoven⟩ := ih (pending ++ [e]) h
      refine ⟨woven, by simp only [weave, he, hw]; rfl, ?_⟩
      have hcut : cut (e :: es) = (e :: (cut es).1, (cut es).2) := by
        simp [cut, he]
      rw [hcut]
      simpa [substitute, List.append_assoc] using hwoven

end Steps

section Join

variable {context : List Path}

/-- With a reference in it, a substituted chain is never empty. -/
theorem substitute_ne_nil {references : List (Combinator × List Element)} {parents : List Path}
    (front : List Element) (hr : references ≠ []) (hlength : parents.length = references.length)
    (hparents : ∀ parent ∈ parents, parent ≠ [] ∧ parent.Solid) :
    substitute front references parents ≠ [] := by
  obtain ⟨⟨c, segment⟩, rest, rfl⟩ := List.exists_cons_of_ne_nil hr
  obtain ⟨parent, more, rfl⟩ : ∃ parent more, parents = parent :: more := by
    cases parents with
    | nil => simp at hlength
    | cons parent more => exact ⟨parent, more, rfl⟩
  obtain ⟨hne, hsolid⟩ := hparents parent (by simp)
  obtain ⟨e, es, he⟩ := List.exists_cons_of_ne_nil (hsolid.flat_ne_nil hne)
  simp [substitute, he, retie]

theorem joinOne_of_hasParent {s : Selector} (h : s.hasParent) (hc : context ≠ [])
    (hcontext : ∀ parent ∈ context, parent ≠ [] ∧ parent.Solid) :
    ∃ paths, joinOne context s = .ok paths ∧
      paths.map flat = (tuples context (cut s.elements).2.length).map
        (substitute (cut s.elements).1 (cut s.elements).2) := by
  have hstart : Built [[]] [[]] := ⟨by simp [solid_nil], by simp⟩
  obtain ⟨woven, hw, -, hflat⟩ := weave_ok (s := s) [] s.elements hc hcontext hstart
  simp only [List.flatMap_singleton, List.nil_append] at hflat
  -- No woven path is empty, so none is left out.
  have hall : woven.filter (!·.isEmpty) = woven := by
    refine List.filter_eq_self.2 ?_
    intro path hpath
    have hchain : path.flat ∈ woven.map flat := List.mem_map_of_mem hpath
    rw [hflat] at hchain
    obtain ⟨parents, hparents, heq⟩ := List.mem_map.1 hchain
    obtain ⟨hlength, hmem⟩ := length_of_mem_tuples hparents
    have hne := substitute_ne_nil (cut s.elements).1 (cut_ne_nil_of_hasParent h) hlength
      fun parent hparent => hcontext parent (hmem parent hparent)
    cases path with
    | nil => exact absurd heq hne
    | cons t rest => rfl
  refine ⟨woven, ?_, hflat⟩
  simp only [joinOne, h, if_true, hw, ok_bind, hall]
  rfl

theorem joinOne_of_not_hasParent {s : Selector} (h : s.hasParent = false) (hc : context ≠ [])
    (hcontext : ∀ parent ∈ context, parent ≠ [] ∧ parent.Solid) :
    ∃ paths, joinOne context s = .ok paths ∧
      paths.map flat = context.map fun parent => parent.flat ++ s.innerElements := by
  refine ⟨context.map (· ++ [s]), by simp [joinOne, h, hc], ?_⟩
  rw [List.map_map]
  refine List.map_congr_left ?_
  intro parent hparent
  simp [flat_append (hcontext parent hparent).1]

/-- Joining in closed form. A selector without a reference gives one path for each context path,
in their order, with the selector's elements behind the chain of the context path. A selector that
reads `s₀ &₁ s₁ ... &ᵣ sᵣ` gives one path for each tuple of `r` context paths, the first component
changing slowest, in which the tuple replaces the references. Several selectors give the results of
each of them one after the other, and joining never fails. -/
theorem join_closed_form (hc : context ≠ [])
    (hcontext : ∀ parent ∈ context, parent ≠ [] ∧ ∀ s ∈ parent, s.elements ≠ []) :
    (∀ s : Selector, s.hasParent = false →
      ∃ paths, joinOne context s = .ok paths ∧ paths.length = context.length ∧
        paths.map flat = context.map fun parent => parent.flat ++ s.innerElements) ∧
    (∀ s : Selector, s.hasParent = true →
      ∃ front references, s.elements = assemble front references ∧
        (∀ e ∈ front, e.isParent = false) ∧ (∀ r ∈ references, ∀ e ∈ r.2, e.isParent = false) ∧
        1 ≤ references.length ∧
        ∃ paths, joinOne context s = .ok paths ∧
          paths.length = context.length ^ references.length ∧
          paths.map flat =
            (tuples context references.length).map (substitute front references)) ∧
    ∀ selectors : List Selector, ∃ results,
      List.Forall₂ (fun s paths => joinOne context s = .ok paths) selectors results ∧
        join context selectors = .ok results.flatten := by
  refine ⟨?_, ?_, ?_⟩
  · intro s h
    obtain ⟨paths, hpaths, hflat⟩ := joinOne_of_not_hasParent h hc hcontext
    refine ⟨paths, hpaths, ?_, hflat⟩
    simpa using congrArg List.length hflat
  · intro s h
    obtain ⟨paths, hpaths, hflat⟩ := joinOne_of_hasParent h hc hcontext
    refine ⟨(cut s.elements).1, (cut s.elements).2, (assemble_cut s.elements).symm,
      not_isParent_of_mem_cut.1, not_isParent_of_mem_cut.2,
      List.length_pos_iff.2 (cut_ne_nil_of_hasParent h), paths, hpaths, ?_, hflat⟩
    simpa [length_tuples] using congrArg List.length hflat
  · intro selectors
    obtain ⟨results, hresults, -⟩ := exists_mapM_ok (f := joinOne context) (l := selectors)
      (R := fun _ _ => True) (by
        intro s _
        cases h : s.hasParent with
        | false =>
          obtain ⟨paths, hpaths, -⟩ := joinOne_of_not_hasParent h hc hcontext
          exact ⟨paths, hpaths, trivial⟩
        | true =>
          obtain ⟨paths, hpaths, -⟩ := joinOne_of_hasParent h hc hcontext
          exact ⟨paths, hpaths, trivial⟩)
    refine ⟨results, mapM_eq_ok_iff.1 hresults, ?_⟩
    rw [join, hresults, ok_bind]
    rfl

/-- Two references under two context paths, one of which is cut. -/
theorem join_closed_form_two_paths :
    ([[⟨[⟨.compound, ".a"⟩], false⟩, ⟨[⟨.compound, ".b"⟩], false⟩],
      [⟨[⟨.child, ".c"⟩, ⟨.compound, ":hover"⟩], false⟩]] : List Path) ≠ [] ∧
    ∃ front references,
      [⟨.compound, ".x"⟩, ⟨.child, "&"⟩, ⟨.compound, "-y"⟩, ⟨.sibling, "&"⟩] =
        assemble front references ∧
      (∀ e ∈ front, e.isParent = false) ∧ (∀ r ∈ references, ∀ e ∈ r.2, e.isParent = false) ∧
      1 ≤ references.length ∧
      ∃ paths,
        joinOne [[⟨[⟨.compound, ".a"⟩], false⟩, ⟨[⟨.compound, ".b"⟩], false⟩],
            [⟨[⟨.child, ".c"⟩, ⟨.compound, ":hover"⟩], false⟩]]
          ⟨[⟨.compound, ".x"⟩, ⟨.child, "&"⟩, ⟨.compound, "-y"⟩, ⟨.sibling, "&"⟩], false⟩ =
          .ok paths ∧
        paths.length = 2 ^ references.length ∧
        paths.map flat =
          (tuples [[⟨[⟨.compound, ".a"⟩], false⟩, ⟨[⟨.compound, ".b"⟩], false⟩],
            [⟨[⟨.child, ".c"⟩, ⟨.compound, ":hover"⟩], false⟩]] references.length).map
            (substitute front references) :=
  ⟨by decide, (join_closed_form (by decide) (by decide)).2.1
    ⟨[⟨.compound, ".x"⟩, ⟨.child, "&"⟩, ⟨.compound, "-y"⟩, ⟨.sibling, "&"⟩], false⟩ rfl⟩

end Join

end Path

end Stylesheet
