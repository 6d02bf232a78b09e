import Stylesheet.Proofs.Compile.Reported
import Stylesheet.Proofs.Compile.Sound

/-!
# Putting in sources

Replacing imports puts in the rules of the sources. It changes no block and no
remembered answer, and it needs no more levels of nesting than there are: what the
rules get higher is taken off the sources that are left, since each source is put in
once.
-/

namespace Stylesheet

variable {fit : Fit} {s t u : Store} {sc : Scope} {bound : Nat} {nodes : List Node}

/-- What putting in sources changes: numbers, events and the imported paths. -/
structure Store.Loads (s t : Store) : Prop where
  blocks : t.blocks = s.blocks
  memo : t.memo = s.memo
  grows : s.Grows t

theorem Store.Loads.refl (s : Store) : s.Loads s := ⟨rfl, rfl, .refl s⟩

theorem Store.Quiet.loads (h : s.Quiet t) : s.Loads t := ⟨h.blocks, h.memo, h.grows⟩

theorem Store.Loads.trans (h : s.Loads t) (h' : t.Loads u) : s.Loads u :=
  ⟨h'.blocks.trans h.blocks, h'.memo.trans h.memo, h.grows.trans h'.grows⟩

theorem Store.Loads.sound (h : s.Loads t) (hs : s.Sound fit) : t.Sound fit where
  blocks := by rw [h.blocks]; exact hs.blocks
  memo := by rw [h.memo, h.blocks]; exact hs.memo

theorem Store.Loads.heights_eq (h : s.Loads t) (nodes : List Node) :
    t.heights nodes = s.heights nodes := by
  rw [Store.heights, Store.heights, Store.blockHeights, Store.blockHeights, h.blocks]

/-- From `s` to `t`, some good nodes of a given height were put in place of imports, and what they
are higher was taken off the sources that are left. -/
structure PutsIn (good : Node → Prop) (height : Nat) (sc : Scope) (s : Store)
    (nodes : List Node) (t : Store) : Prop where
  loads : s.Loads t
  good : ∀ n ∈ nodes, good n
  room : t.heights nodes + sc.unread t ≤ height + sc.unread s

section PuttingIn

variable {good : Node → Prop}

/-- Loading before and after leaves no less room. -/
theorem PutsIn.between {height : Nat} {v : Store} (h : PutsIn good height sc t nodes u)
    (hbefore : s.Loads t) (hafter : u.Loads v) : PutsIn good height sc s nodes v where
  loads := (hbefore.trans h.loads).trans hafter
  good := h.good
  room := by
    have hless := sc.unread_le_of_grows hbefore.grows
    have hless' := sc.unread_le_of_grows hafter.grows
    have hsame := hafter.heights_eq nodes
    have hroom := h.room
    omega

theorem PutsIn.append {height height' : Nat} {more : List Node}
    (h : PutsIn good height sc s nodes t) (h' : PutsIn good height' sc t more u) :
    PutsIn good (max height height') sc s (nodes ++ more) u where
  loads := h.loads.trans h'.loads
  good := List.forall_mem_append.2 ⟨h.good, h'.good⟩
  room := by
    have hheights : u.heights (nodes ++ more) = max (u.heights nodes) (u.heights more) :=
      Node.heights_append _ nodes more
    have hsame := h'.loads.heights_eq nodes
    have hless := sc.unread_le_of_grows h.loads.grows
    have hless' := sc.unread_le_of_grows h'.loads.grows
    have hroom := h.room
    have hroom' := h'.room
    omega

theorem ensures_replaceImports {replace : Import → CompileM (List Node)}
    (hreplace : ∀ i s, Ensures (replace i) s (PutsIn good 0 sc s) fun e _ => e.isReported = true)
    (hnodes : ∀ n ∈ nodes, good n) (s : Store) :
    Ensures (replaceImports replace nodes) s (PutsIn good (s.heights nodes) sc s)
      fun e _ => e.isReported = true := by
  induction nodes generalizing s with
  | nil => exact ⟨.refl s, hnodes, Nat.le_refl _⟩
  | cons node nodes ih =>
    obtain ⟨hnode, hrest⟩ := List.forall_mem_cons.1 hnodes
    have hkept : PutsIn good (Node.height s.blockHeights node) sc s [node] s :=
      ⟨.refl s, List.forall_mem_singleton.2 hnode, by simp [Store.heights, Node.heights]⟩
    cases node with
    | inclusion i =>
      refine ensures_bind.2 ((hreplace i s).mono ?_ fun _ _ he => he)
      intro replacement t hput
      refine ensures_bind.2 ((ih hrest t).mono ?_ fun _ _ he => he)
      intro rest u hput'
      rw [hput.loads.heights_eq] at hput'
      exact hput.append hput'
    | _ =>
      exact ensures_bind.2 ((ih hrest s).mono (fun _ _ hput => hkept.append hput) fun _ _ he => he)

/-- Imports and the nodes of all sources are good. -/
structure Scope.Imports (sc : Scope) (good : Node → Prop) : Prop where
  inclusion : ∀ i, good (.inclusion i)
  sources : ∀ table, sc.sources = some table → ∀ entry ∈ table, ∀ next,
    ∀ n ∈ ((Node.ofRules entry.2).run next).1, good n

/-- Putting in a source takes its height off what is left of the sources. -/
theorem ensures_importCompile (h : sc.Imports good) (i : Import) (s : Store) :
    Ensures (i.compile sc) s (PutsIn good 0 sc s) fun e _ => e.isReported = true := by
  have hkept : ∀ (sc : Scope) (i : Import) (s : Store), sc.Imports good →
      PutsIn good 0 sc s [.inclusion i] s := fun sc i s h =>
    ⟨.refl s, List.forall_mem_singleton.2 (h.inclusion i), Nat.le_refl _⟩
  induction sc, i using Import.compile.induct generalizing s with
  | case1 sc i hcss =>
    rw [Import.compile_of_css hcss]
    exact hkept sc i s h
  | case2 sc i hcss hi =>
    rw [Import.compile_of_importing hcss hi]
    rfl
  | case3 sc i hcss hi hs =>
    rw [Import.compile_of_no_sources hcss hi hs]
    exact hkept sc i s h
  | case4 sc i hcss hi sources hs hlookup =>
    rw [Import.compile_of_not_found hcss hi hs hlookup]
    rfl
  | case5 sc i hcss hi sources hs rules hlookup ih =>
    rw [Import.compile_of_found hcss hi hs hlookup, ensures_bind, ensures_lift]
    by_cases hpath : i.path ∈ s.imported
    · rw [run_load_of_imported hpath]
      exact ⟨⟨rfl, rfl, (s.quiet_record _).grows⟩, by simp, Nat.le_refl _⟩
    · have hmem : (i.path, rules) ∈ sources := by
        obtain ⟨before, after, rfl, -⟩ := List.lookup_eq_some_iff.1 hlookup
        simp
      obtain ⟨next, t, hload, hblocks, hinherited, hmemo, himported, -⟩ :=
        run_load_of_new hpath rules
      have hloads : s.Loads t := ⟨hblocks, hmemo, hblocks ▸ List.prefix_rfl, hinherited,
        himported ▸ List.suffix_cons i.path s.imported⟩
      rw [hload]
      refine (ensures_replaceImports (ih · ⟨h.inclusion, h.sources⟩)
        (h.sources sources hs _ hmem next) t).mono ?_ fun _ _ he => he
      intro nodes u hput
      refine ⟨hloads.trans hput.loads, hput.good, ?_⟩
      have hless : sc.unread t + Rule.heights rules ≤ sc.unread s := by
        rw [Scope.unread, Scope.unread, hs, himported]
        exact Sources.unread_add_heights_le hlookup hpath
      have hheights : t.heights ((Node.ofRules rules).run next).1 = Rule.heights rules :=
        Node.heights_ofRules rules next
      have hroom : u.heights nodes + sc.unread u ≤
          t.heights ((Node.ofRules rules).run next).1 + sc.unread t := hput.room
      omega

/-- The home frame of a ruleset is as high as its rules, but for the sources put in. -/
theorem ensures_homeFrame (h : sc.Imports good) {r : Ruleset} (hr : ∀ n ∈ r.rules, good n)
    (selectors : List Selector) (s : Store) :
    Ensures (r.homeFrame sc selectors) s
      (fun home t => home.header = { r.header with selectors, paths := [] } ∧
        PutsIn good (s.heights r.rules) sc s home.rules t)
      fun e _ => e.isReported = true := by
  refine ensures_bind.2 (ensures_lift.2 ?_)
  have hquiet := KeepsBooks.build { r.header with selectors, paths := [] } r.rules
    (some r.serial) s
  split
  · -- The sources are the same inside the ruleset as outside of it.
    have himport : ∀ (frame : Ruleset) (i : Import) s',
        Ensures (i.compile (sc.enter frame selectors)) s' (PutsIn good 0 sc s')
          fun e _ => e.isReported = true := by
      intro frame i s'
      have hinside : (sc.enter frame selectors).Imports good := ⟨h.inclusion, h.sources⟩
      refine (ensures_importCompile hinside i s').mono ?_ fun _ _ he => he
      exact fun nodes u hput => ⟨hput.loads, hput.good, hput.room⟩
    refine ensures_bind.2 ((ensures_replaceImports (himport _) hr _).mono ?_ fun _ _ he => he)
    intro rules u hput
    rw [hquiet.loads.heights_eq] at hput
    refine ensures_rebuild fun home v hheader hrules hv => ?_
    rw [hrules]
    exact ⟨hheader, hput.between hquiet.loads hv.loads⟩
  · refine ⟨rfl, hquiet.loads, hr, ?_⟩
    have hless := sc.unread_le_of_grows hquiet.grows
    have hsame := hquiet.loads.heights_eq r.rules
    exact Nat.add_le_add (Nat.le_of_eq hsame) hless

end PuttingIn

end Stylesheet
