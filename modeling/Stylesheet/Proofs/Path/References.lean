import Stylesheet.Path.Join
import Stylesheet.Proofs.Except

/-!
# References in joined paths

Joining replaces all references to a parent, so paths that were joined have none, and none is
empty. There is no path at all if and only if there is no context and all that is joined onto
nothing is references.
-/

namespace Stylesheet

/-- All elements of the selector are references, and there is one. -/
def Selector.IsReference (s : Selector) : Prop :=
  s.hasParent = true ∧ ∀ e ∈ s.elements, e.isParent = true

namespace Path

/-- No element of the path is a reference. -/
def Free (path : Path) : Prop := ∀ s ∈ path, ∀ e ∈ s.elements, e.isParent = false

variable {context paths joined : List Path} {path parent : Path} {s : Selector}
variable {elements pending es : List Element}

section Free

theorem free_nil : Free [] := by
  intro s hs
  cases hs

theorem Free.cons (hs : ∀ e ∈ s.elements, e.isParent = false) (h : path.Free) :
    Free (s :: path) := by
  intro t ht
  rcases List.mem_cons.1 ht with rfl | ht
  · exact hs
  · exact h t ht

theorem Free.append {more : Path} (h : path.Free) (hmore : more.Free) : Free (path ++ more) := by
  intro s hs
  rcases List.mem_append.1 hs with hs | hs
  · exact h s hs
  · exact hmore s hs

theorem Free.tail (h : Free (s :: path)) : path.Free := fun t ht => h t (by simp [ht])

theorem Free.lastElements (h : path.Free) : ∀ e ∈ path.lastElements, e.isParent = false := by
  unfold Path.lastElements
  cases hlast : path.getLast? with
  | none =>
    intro e he
    cases he
  | some s => exact h s (List.mem_of_getLast? hlast)

theorem Free.extend (h : path.Free) (helements : ∀ e ∈ elements, e.isParent = false) :
    (path.extend elements).Free := by
  fun_induction Path.extend elements path with
  | case1 => exact .cons helements free_nil
  | case2 s => exact .cons (List.forall_mem_append.2 ⟨h s (by simp), helements⟩) free_nil
  | case3 s t rest ih => exact .cons (h s (by simp)) (ih h.tail)

theorem free_extendAll (h : ∀ path ∈ paths, path.Free)
    (helements : ∀ e ∈ elements, e.isParent = false) :
    ∀ path ∈ extendAll elements paths, path.Free := by
  unfold extendAll
  split
  · exact h
  · intro path hpath
    obtain ⟨q, hq, rfl⟩ := List.mem_map.1 hpath
    exact (h q hq).extend helements

theorem Free.keepCombinator (c : Combinator) (h : path.Free) : (path.keepCombinator c).Free := by
  cases path with
  | nil => exact free_nil
  | cons first rest =>
    refine .cons (List.forall_mem_append.2 ⟨h first (by simp), ?_⟩) h.tail
    intro e he
    obtain rfl := List.mem_singleton.1 he
    show ("" == "&") = false
    decide

/-- What replaces a reference has none of its own. -/
theorem Free.attach {c : Combinator} {attached : Path} (h : path.Free) (hparent : parent.Free)
    (hattach : attach s c path parent = .ok attached) : attached.Free := by
  unfold Path.attach at hattach
  have hfront : Free path.dropLast := fun t ht => h t (List.dropLast_subset path ht)
  cases parent with
  | nil =>
    obtain ⟨⟩ := hattach
    split
    · exact free_nil
    · exact hfront.append (.cons h.lastElements free_nil)
  | cons head more =>
    have hhead := hparent head (by simp)
    dsimp only at hattach
    cases helements : head.elements with
    | nil =>
      rw [helements] at hattach
      cases hattach
    | cons first others =>
      rw [helements] at hattach hhead
      obtain ⟨⟩ := hattach
      obtain ⟨hfirst, hothers⟩ := List.forall_mem_cons.1 hhead
      have hnew : ∀ e ∈ (⟨c, first.value⟩ : Element) :: others, e.isParent = false :=
        List.forall_mem_cons.2 ⟨hfirst, hothers⟩
      exact hfront.append (.cons (List.forall_mem_append.2 ⟨h.lastElements, hnew⟩) hparent.tail)

theorem free_multiply {c : Combinator} (hcontext : ∀ parent ∈ context, parent.Free)
    (h : ∀ path ∈ paths, path.Free) (hmultiply : multiply context s c paths = .ok joined) :
    ∀ path ∈ joined, path.Free := by
  unfold multiply at hmultiply
  split at hmultiply
  · obtain ⟨⟩ := hmultiply
    intro path hpath
    obtain ⟨q, hq, rfl⟩ := List.mem_map.1 hpath
    exact (h q hq).keepCombinator c
  · obtain ⟨groups, hgroups, ⟨⟩⟩ := bind_eq_ok_iff.1 hmultiply
    intro path hpath
    obtain ⟨group, hgroup, hmem⟩ := List.mem_flatten.1 hpath
    obtain ⟨q, hq, hattached⟩ := exists_of_mem_right (mapM_eq_ok_iff.1 hgroups) hgroup
    obtain ⟨parent, hparent, hattach⟩ := exists_of_mem_right (mapM_eq_ok_iff.1 hattached) hmem
    exact (h q hq).attach (hcontext parent hparent) hattach

theorem free_weave (hcontext : ∀ parent ∈ context, parent.Free)
    (hpending : ∀ e ∈ pending, e.isParent = false) (h : ∀ path ∈ paths, path.Free)
    (hweave : weave context s pending paths es = .ok joined) : ∀ path ∈ joined, path.Free := by
  induction es generalizing pending paths with
  | nil =>
    obtain ⟨⟩ := hweave
    exact free_extendAll h hpending
  | cons e es ih =>
    rw [weave] at hweave
    split at hweave
    · obtain ⟨multiplied, hmultiplied, hweave⟩ := bind_eq_ok_iff.1 hweave
      refine ih (fun e he => by cases he) ?_ hweave
      exact free_multiply hcontext (free_extendAll h hpending) hmultiplied
    · rename_i he
      refine ih (List.forall_mem_append.2 ⟨hpending, ?_⟩) h hweave
      exact List.forall_mem_singleton.2 (by simpa using he)

theorem free_joinOne (hcontext : ∀ parent ∈ context, parent.Free)
    (hjoin : joinOne context s = .ok joined) : ∀ path ∈ joined, path.Free := by
  unfold joinOne at hjoin
  split at hjoin
  · obtain ⟨woven, hwoven, ⟨⟩⟩ := bind_eq_ok_iff.1 hjoin
    have hfree := free_weave hcontext (fun e he => by cases he)
      (List.forall_mem_singleton.2 free_nil) hwoven
    exact fun path hpath => hfree path (List.mem_filter.1 hpath).1
  · rename_i hparent
    have hs : Free [s] := by
      refine .cons (fun e he => ?_) free_nil
      exact eq_false_of_ne_true (List.any_eq_false.1 (eq_false_of_ne_true hparent) e he)
    obtain ⟨⟩ := hjoin
    split
    · exact List.forall_mem_singleton.2 hs
    · intro path hpath
      obtain ⟨parent, hp, rfl⟩ := List.mem_map.1 hpath
      exact (hcontext parent hp).append hs

/-- Joined paths have no references. -/
theorem free_join {selectors : List Selector} (hcontext : ∀ parent ∈ context, parent.Free)
    (hjoin : join context selectors = .ok joined) : ∀ path ∈ joined, path.Free := by
  obtain ⟨groups, hgroups, ⟨⟩⟩ := bind_eq_ok_iff.1 hjoin
  intro path hpath
  obtain ⟨group, hgroup, hmem⟩ := List.mem_flatten.1 hpath
  obtain ⟨s, -, hs⟩ := exists_of_mem_right (mapM_eq_ok_iff.1 hgroups) hgroup
  exact free_joinOne hcontext hs path hmem

end Free

section Empty

theorem extend_ne_nil (elements : List Element) (path : Path) : path.extend elements ≠ [] := by
  fun_cases Path.extend elements path <;> simp

theorem keepCombinator_eq_nil_iff {c : Combinator} : path.keepCombinator c = [] ↔ path = [] := by
  cases path <;> simp [Path.keepCombinator]

/-- Joined paths are not empty. -/
theorem ne_nil_of_mem_joinOne (hjoin : joinOne context s = .ok joined) (hpath : path ∈ joined) :
    path ≠ [] := by
  unfold joinOne at hjoin
  split at hjoin
  · obtain ⟨woven, -, ⟨⟩⟩ := bind_eq_ok_iff.1 hjoin
    simpa using (List.mem_filter.1 hpath).2
  · obtain ⟨⟩ := hjoin
    split at hpath
    · simp_all
    · obtain ⟨parent, -, rfl⟩ := List.mem_map.1 hpath
      simp

theorem ne_nil_of_mem_join {selectors : List Selector}
    (hjoin : join context selectors = .ok joined) (hpath : path ∈ joined) : path ≠ [] := by
  obtain ⟨groups, hgroups, ⟨⟩⟩ := bind_eq_ok_iff.1 hjoin
  obtain ⟨group, hgroup, hmem⟩ := List.mem_flatten.1 hpath
  obtain ⟨s, -, hs⟩ := exists_of_mem_right (mapM_eq_ok_iff.1 hgroups) hgroup
  exact ne_nil_of_mem_joinOne hs hmem

theorem extendAll_singleton (elements : List Element) (path : Path) :
    ∃ extended, extendAll elements [path] = [extended] ∧
      (extended = [] ↔ path = [] ∧ elements = []) := by
  by_cases h : elements = []
  · exact ⟨path, by simp [extendAll, h], by simp [h]⟩
  · refine ⟨path.extend elements, by simp [extendAll, h], ?_⟩
    simp [extend_ne_nil elements path, h]

/-- Without a context a selector gives one path, which is empty only if nothing but references
went into it. -/
theorem weave_nil (s : Selector) (pending : List Element) (path : Path) (es : List Element) :
    ∃ woven, weave [] s pending [path] es = .ok [woven] ∧
      (woven = [] ↔ path = [] ∧ pending = [] ∧ ∀ e ∈ es, e.isParent = true) := by
  induction es generalizing pending path with
  | nil =>
    obtain ⟨extended, hextended, hiff⟩ := extendAll_singleton pending path
    exact ⟨extended, congrArg Except.ok hextended, by simpa using hiff⟩
  | cons e es ih =>
    by_cases he : e.isParent = true
    · obtain ⟨extended, hextended, hiff⟩ := extendAll_singleton pending path
      obtain ⟨woven, hwoven, hempty⟩ := ih [] (extended.keepCombinator e.combinator)
      refine ⟨woven, ?_, ?_⟩
      · rw [weave, if_pos he, hextended]
        exact hwoven
      · rw [hempty, keepCombinator_eq_nil_iff, hiff, List.forall_mem_cons]
        simp [he, and_assoc]
    · obtain ⟨woven, hwoven, hempty⟩ := ih (pending ++ [e]) path
      refine ⟨woven, ?_, ?_⟩
      · rw [weave, if_neg he]
        exact hwoven
      · rw [hempty, List.forall_mem_cons]
        simp [he]

theorem attach_ne_nil {c : Combinator} {attached : Path} (hparent : parent ≠ [])
    (hattach : attach s c path parent = .ok attached) : attached ≠ [] := by
  obtain ⟨head, more, rfl⟩ := List.exists_cons_of_ne_nil hparent
  unfold Path.attach at hattach
  dsimp only at hattach
  cases helements : head.elements with
  | nil =>
    rw [helements] at hattach
    cases hattach
  | cons first others =>
    rw [helements] at hattach
    obtain ⟨⟩ := hattach
    simp

/-- A context that has paths gives paths for each reference, and none of them is empty. -/
theorem multiply_ne_nil {c : Combinator} (hne : context ≠ [])
    (hcontext : ∀ parent ∈ context, parent ≠ []) (hpaths : paths ≠ [])
    (hmultiply : multiply context s c paths = .ok joined) :
    joined ≠ [] ∧ ∀ path ∈ joined, path ≠ [] := by
  unfold multiply at hmultiply
  rw [if_neg (by simpa using hne)] at hmultiply
  obtain ⟨groups, hgroups, ⟨⟩⟩ := bind_eq_ok_iff.1 hmultiply
  have hall := mapM_eq_ok_iff.1 hgroups
  constructor
  · obtain ⟨path, rest, rfl⟩ := List.exists_cons_of_ne_nil hpaths
    obtain ⟨parent, parents, rfl⟩ := List.exists_cons_of_ne_nil hne
    obtain ⟨group, hgroup, hattached⟩ := exists_of_mem_left hall (List.mem_cons_self ..)
    obtain ⟨attached, hmem, -⟩ :=
      exists_of_mem_left (mapM_eq_ok_iff.1 hattached) (List.mem_cons_self ..)
    exact List.ne_nil_of_mem (List.mem_flatten.2 ⟨group, hgroup, hmem⟩)
  · intro path hpath
    obtain ⟨group, hgroup, hmem⟩ := List.mem_flatten.1 hpath
    obtain ⟨q, -, hattached⟩ := exists_of_mem_right hall hgroup
    obtain ⟨parent, hparent, hattach⟩ := exists_of_mem_right (mapM_eq_ok_iff.1 hattached) hmem
    exact attach_ne_nil (hcontext parent hparent) hattach

/-- With a context that has paths, a selector gives paths, none of which is empty. -/
theorem weave_ne_nil (hne : context ≠ []) (hcontext : ∀ parent ∈ context, parent ≠ [])
    (hpaths : paths ≠ [])
    (hsome : (∀ path ∈ paths, path ≠ []) ∨ pending ≠ [] ∨ es ≠ [])
    (hweave : weave context s pending paths es = .ok joined) :
    joined ≠ [] ∧ ∀ path ∈ joined, path ≠ [] := by
  induction es generalizing pending paths with
  | nil =>
    obtain ⟨⟩ := hweave
    unfold extendAll
    split
    · rename_i hp
      exact ⟨hpaths, by simpa [List.isEmpty_iff.1 hp] using hsome⟩
    · refine ⟨by simpa using hpaths, ?_⟩
      intro path hpath
      obtain ⟨q, -, rfl⟩ := List.mem_map.1 hpath
      exact extend_ne_nil pending q
  | cons e es ih =>
    rw [weave] at hweave
    split at hweave
    · obtain ⟨multiplied, hmultiplied, hweave⟩ := bind_eq_ok_iff.1 hweave
      have hextended : extendAll pending paths ≠ [] := by
        unfold extendAll
        split
        · exact hpaths
        · simpa using hpaths
      obtain ⟨hnonempty, hall⟩ := multiply_ne_nil hne hcontext hextended hmultiplied
      exact ih hnonempty (.inl hall) hweave
    · exact ih hpaths (.inr (.inl (by simp))) hweave

theorem joinOne_eq_nil_iff (hcontext : ∀ parent ∈ context, parent ≠ [])
    (hjoin : joinOne context s = .ok joined) :
    joined = [] ↔ context = [] ∧ s.IsReference := by
  unfold joinOne at hjoin
  split at hjoin
  · rename_i hparent
    obtain ⟨woven, hwoven, ⟨⟩⟩ := bind_eq_ok_iff.1 hjoin
    by_cases hnil : context = []
    · subst hnil
      obtain ⟨path, hpath, hempty⟩ := weave_nil s [] [] s.elements
      obtain rfl : [path] = woven := Except.ok.inj (hpath.symm.trans hwoven)
      simpa [Selector.IsReference, hparent] using hempty
    · have hne : s.elements ≠ [] := by
        intro hnone
        rw [Selector.hasParent, hnone] at hparent
        cases hparent
      obtain ⟨hsome, hall⟩ := weave_ne_nil hnil hcontext (by simp) (.inr (.inr hne)) hwoven
      obtain ⟨path, rest, rfl⟩ := List.exists_cons_of_ne_nil hsome
      simp [hnil, hall path (by simp)]
  · rename_i hparent
    obtain ⟨⟩ := hjoin
    split <;> simp_all [Selector.IsReference]

/-- No path comes of joining selectors if and only if there is no context and all of them are
references. -/
theorem join_eq_nil_iff {selectors : List Selector} (hne : selectors ≠ [])
    (hcontext : ∀ parent ∈ context, parent ≠ [])
    (hjoin : join context selectors = .ok joined) :
    joined = [] ↔ context = [] ∧ ∀ s ∈ selectors, s.IsReference := by
  obtain ⟨groups, hgroups, ⟨⟩⟩ := bind_eq_ok_iff.1 hjoin
  have hall := mapM_eq_ok_iff.1 hgroups
  rw [List.flatten_eq_nil_iff]
  constructor
  · intro hempty
    have hreference : ∀ s ∈ selectors, context = [] ∧ s.IsReference := by
      intro s hs
      obtain ⟨group, hgroup, hjoined⟩ := exists_of_mem_left hall hs
      exact (joinOne_eq_nil_iff hcontext hjoined).1 (hempty group hgroup)
    obtain ⟨s, hs⟩ := List.exists_mem_of_ne_nil selectors hne
    exact ⟨(hreference s hs).1, fun t ht => (hreference t ht).2⟩
  · rintro ⟨hnil, hreference⟩ group hgroup
    obtain ⟨s, hs, hjoined⟩ := exists_of_mem_right hall hgroup
    exact (joinOne_eq_nil_iff hcontext hjoined).2 ⟨hnil, hreference s hs⟩

end Empty

end Path

end Stylesheet
