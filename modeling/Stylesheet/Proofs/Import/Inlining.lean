import Stylesheet.Proofs.Compile.Steps
import Stylesheet.Proofs.Import.Unfolding
import Stylesheet.Proofs.Node.Plain

/-!
# Importing is exact

Imports are replaced by a search through the sources. Paths that are being imported are on a
stack, and a path that comes up again on its own stack is an error; paths that were imported are
noted, and are passed over when they come up again. So a path that is noted and not on the stack
is done: everything that it leads to was written out before, and is noted too.

From this it follows that the search fails exactly where a source is missing or leads back to
itself, also where a part of the cycle was reached before, and that it writes every source that
can be reached where its path comes up first.
-/

namespace Stylesheet

namespace Sources

/-- Everything that the path leads to can be written out, and is noted. -/
def Done (table : Sources) (noted : List String) (path : String) : Prop :=
  ∃ file inside, table.lookup path = some file ∧ table.Unfolds file inside ∧
    ∀ p ∈ Unfolding.allPaths inside, p ∈ noted

/-- Every path that is noted and not being imported is done. -/
def Settled (table : Sources) (stack noted : List String) : Prop :=
  ∀ path ∈ noted, path ∉ stack → table.Done noted path

/-- The rules of a path, without the imports among them. -/
def keptOf (table : Sources) (path : String) : List Rule :=
  Rule.kept ((table.lookup path).getD [])

/-- Importing turns the rules into others, where some paths are noted already. The rules written out
are `tree`, and the paths that are new are `order`. -/
structure Inlines (table : Sources) (noted : List String) (rules : List Rule)
    (tree : List Unfolding) (order : List String) (result : List Rule) : Prop where
  unfolds : table.Unfolds rules tree
  result_eq : result = Unfolding.allFirsts noted tree
  nodup : order.Nodup
  fresh : ∀ path ∈ order, path ∉ noted
  mem_iff : ∀ path, path ∈ order ++ noted ↔ path ∈ Unfolding.allPaths tree ++ noted
  perm : result.Perm (Rule.kept rules ++ order.flatMap table.keptOf)

variable {table : Sources} {noted order stack : List String} {rules result : List Rule}
  {tree : List Unfolding} {rule : Rule} {path : String}

theorem Done.mono {noted' : List String} (h : table.Done noted path)
    (hsub : ∀ p ∈ noted, p ∈ noted') : table.Done noted' path := by
  obtain ⟨file, inside, hfile, hinside, hnoted⟩ := h
  exact ⟨file, inside, hfile, hinside, fun p hp => hsub p (hnoted p hp)⟩

/-- A path that starts to be imported is noted and on the stack, so nothing else changes. -/
theorem Settled.push (h : table.Settled stack noted) (path : String) :
    table.Settled (path :: stack) (path :: noted) := by
  intro p hp hstack
  rw [List.mem_cons, not_or] at hstack
  have hnoted : p ∈ noted := (List.mem_cons.1 hp).resolve_left hstack.1
  exact (h p hnoted hstack.2).mono fun q hq => List.mem_cons_of_mem _ hq

/-- A path that was imported in full is done. -/
theorem Settled.pop (h : table.Settled (path :: stack) noted) (hdone : table.Done noted path) :
    table.Settled stack noted := by
  intro p hp hstack
  by_cases hpath : p = path
  · exact hpath ▸ hdone
  · exact h p hp (by simp [hpath, hstack])

namespace Inlines

theorem nil (table : Sources) (noted : List String) : table.Inlines noted [] [] [] [] :=
  ⟨.nil, rfl, .nil, List.forall_mem_nil _, fun _ => Iff.rfl, .nil⟩

/-- What some rules come to is followed by what the rest of the rules come to. -/
theorem append {rules' result' : List Rule} {tree' : List Unfolding} {order' : List String}
    (h : table.Inlines noted rules tree order result)
    (h' : table.Inlines (order.reverse ++ noted) rules' tree' order' result') :
    table.Inlines noted (rules ++ rules') (tree ++ tree') (order ++ order')
      (result ++ result') where
  unfolds := h.unfolds.append h'.unfolds
  result_eq := by
    have hbefore : ∀ p, p ∈ order.reverse ++ noted ↔ p ∈ Unfolding.allPaths tree ++ noted := by
      intro p
      rw [← h.mem_iff, List.mem_append, List.mem_append, List.mem_reverse]
    rw [Unfolding.allFirsts_append, h.result_eq, h'.result_eq, Unfolding.allFirsts_congr hbefore]
  nodup := by
    refine List.nodup_append.2 ⟨h.nodup, h'.nodup, ?_⟩
    rintro p hp _ hp' rfl
    exact h'.fresh p hp' (List.mem_append_left _ (List.mem_reverse.2 hp))
  fresh := by
    refine List.forall_mem_append.2 ⟨h.fresh, fun p hp hnoted => ?_⟩
    exact h'.fresh p hp (List.mem_append_right _ hnoted)
  mem_iff := by
    intro p
    have hfirst := h.mem_iff p
    have hrest := h'.mem_iff p
    simp only [Unfolding.allPaths_append, List.mem_append, List.mem_reverse] at hfirst hrest ⊢
    grind
  perm := by
    have hkept : Rule.kept (rules ++ rules') = Rule.kept rules ++ Rule.kept rules' :=
      List.filter_append rules rules'
    rw [hkept, List.flatMap_append]
    refine (h.perm.append h'.perm).trans ?_
    rw [List.append_assoc, List.append_assoc]
    exact List.Perm.append_left _ (List.perm_append_comm_assoc _ _ _)

theorem plain (table : Sources) (noted : List String) (h : rule.importedPath? = none) :
    table.Inlines noted [rule] [.plain rule] [] [rule] where
  unfolds := .plain h .nil
  result_eq := rfl
  nodup := .nil
  fresh := List.forall_mem_nil _
  mem_iff := fun _ => Iff.rfl
  perm := by rw [Rule.kept_cons_of_none h]; rfl

/-- A path that is done expands to nothing. -/
theorem again (hrule : rule.importedPath? = some path) (hpath : path ∈ noted)
    (hdone : table.Done noted path) : ∃ tree, table.Inlines noted [rule] tree [] [] := by
  obtain ⟨file, inside, hfile, hinside, hnoted⟩ := hdone
  refine ⟨[.source path inside], .source hrule hfile hinside .nil, ?_, .nil, List.forall_mem_nil _,
    fun p => ?_, ?_⟩
  · rw [Unfolding.allFirsts, Unfolding.firsts, if_pos hpath]
    rfl
  · simp only [Unfolding.allPaths, Unfolding.paths, List.nil_append, List.append_nil,
      List.mem_append, List.mem_cons]
    refine ⟨.inr, ?_⟩
    rintro ((rfl | hp) | hp)
    · exact hpath
    · exact hnoted p hp
    · exact hp
  · rw [Rule.kept_cons_of_some hrule]
    rfl

/-- A path that is new expands to what its source comes to. -/
theorem source {file : List Rule} (hrule : rule.importedPath? = some path) (hpath : path ∉ noted)
    (hfile : table.lookup path = some file)
    (h : table.Inlines (path :: noted) file tree order result) :
    table.Inlines noted [rule] [.source path tree] (path :: order) result where
  unfolds := .source hrule hfile h.unfolds .nil
  result_eq := by
    rw [Unfolding.allFirsts, Unfolding.firsts, if_neg hpath, h.result_eq]
    exact (List.append_nil _).symm
  nodup := by
    refine List.nodup_cons.2 ⟨fun hp => ?_, h.nodup⟩
    exact h.fresh path hp List.mem_cons_self
  fresh := by
    refine List.forall_mem_cons.2 ⟨hpath, fun p hp hnoted => ?_⟩
    exact h.fresh p hp (List.mem_cons_of_mem _ hnoted)
  mem_iff := by
    intro p
    have hmem := h.mem_iff p
    simp only [Unfolding.allPaths, Unfolding.paths, List.append_nil, List.mem_append,
      List.mem_cons] at hmem ⊢
    grind
  perm := by
    have hkept : table.keptOf path = Rule.kept file := by rw [keptOf, hfile]; rfl
    rw [Rule.kept_cons_of_some hrule, List.flatMap_cons, hkept]
    exact h.perm

/-- No import is left among the rules. -/
theorem importedPath?_eq_none (h : table.Inlines noted rules tree order result)
    (hrule : rule ∈ result) : rule.importedPath? = none := by
  have hkept : ∀ {rules : List Rule}, rule ∈ Rule.kept rules → rule.importedPath? = none :=
    fun hmem => Option.isNone_iff_eq_none.1 (List.mem_filter.1 hmem).2
  rcases List.mem_append.1 (h.perm.mem_iff.1 hrule) with hmem | hmem
  · exact hkept hmem
  · obtain ⟨path, -, hmem⟩ := List.mem_flatMap.1 hmem
    exact hkept hmem

end Inlines

end Sources

/-- Whether importing leaves a node where it is. -/
def Node.stays : Node → Bool
  | .inclusion i => i.css
  | _ => true

/-- The error is about an import. -/
def Error.isImportFailed : Error → Bool
  | .importFailed .. => true
  | _ => false

section Search

variable {sc : Scope} {table : Sources} {s : Store}

/-- The nodes are what importing turns the rules into, from one store to another. -/
def Replaces (table : Sources) (stack : List String) (s : Store) (rules : List Rule)
    (result : List Node) (t : Store) : Prop :=
  ∃ tree order, table.Inlines s.imported rules tree order (Node.toRules result) ∧
    t.imported = order.reverse ++ s.imported ∧ table.Settled stack t.imported

theorem ensures_replaceImports_inlines {replace : Import → CompileM (List Node)}
    {stack : List String}
    (h : ∀ i s, table.Settled stack s.imported →
      Ensures (replace i) s (Replaces table stack s [.inclusion i])
        fun e _ => e.isImportFailed = true)
    (nodes : List Node) (hs : table.Settled stack s.imported) :
    Ensures (replaceImports replace nodes) s (Replaces table stack s (Node.toRules nodes))
      fun e _ => e.isImportFailed = true := by
  induction nodes generalizing s with
  | nil => exact ⟨[], [], .nil table s.imported, rfl, hs⟩
  | cons node nodes ih =>
    by_cases hnode : ∃ i, node = .inclusion i
    · obtain ⟨i, rfl⟩ := hnode
      rw [replaceImports, ensures_bind]
      refine (h i s hs).mono ?_ fun _ _ he => he
      rintro first t ⟨tree, order, hfirst, himported, ht⟩
      rw [ensures_bind]
      refine (ih ht).mono ?_ fun _ _ he => he
      rintro rest t' ⟨tree', order', hrest, himported', ht'⟩
      rw [himported] at hrest
      refine ⟨tree ++ tree', order ++ order', ?_, ?_, ht'⟩
      · rw [Node.toRules_append]
        exact hfirst.append hrest
      · rw [himported', himported, List.reverse_append, List.append_assoc]
    · have hstep : replaceImports replace (node :: nodes) =
          (do return node :: (← replaceImports replace nodes)) := by
        cases node with
        | inclusion i => exact absurd ⟨i, rfl⟩ hnode
        | _ => rfl
      have hrule : node.toRule.importedPath? = none := by
        cases node with
        | inclusion i => exact absurd ⟨i, rfl⟩ hnode
        | ruleset r => cases r; rfl
        | definition d => cases d; rfl
        | directive head rules => cases rules <;> rfl
        | _ => rfl
      rw [hstep, ensures_bind]
      refine (ih hs).mono ?_ fun _ _ he => he
      rintro rest t ⟨tree, order, hrest, himported, ht⟩
      exact ⟨_, order, (Sources.Inlines.plain table s.imported hrule).append hrest, himported, ht⟩

/-- A single import is replaced by what its path comes to. -/
theorem ensures_importCompile_inlines (hsources : sc.sources = some table) (i : Import)
    (hs : table.Settled sc.importing s.imported) :
    Ensures (i.compile sc) s (Replaces table sc.importing s [.inclusion i])
      fun e _ => e.isImportFailed = true := by
  induction sc, i using Import.compile.induct generalizing s with
  | case1 sc i hcss =>
    rw [Import.compile_of_css hcss]
    exact ⟨_, [], .plain table s.imported (if_pos hcss), rfl, hs⟩
  | case2 sc i hcss hi =>
    rw [Import.compile_of_importing hcss hi]
    rfl
  | case3 sc i hcss hi hnone =>
    rw [hsources] at hnone
    cases hnone
  | case4 sc i hcss hi sources hsome hlookup =>
    rw [Import.compile_of_not_found hcss hi hsome hlookup]
    rfl
  | case5 sc i hcss hi sources hsome file hfile ih =>
    obtain rfl : table = sources := Option.some.inj (hsources.symm.trans hsome)
    have hrule : (Rule.inclusion i).importedPath? = some i.path :=
      Rule.importedPath?_inclusion hcss
    rw [Import.compile_of_found hcss hi hsome hfile, ensures_bind, ensures_lift]
    by_cases hnoted : i.path ∈ s.imported
    · rw [run_load_of_imported hnoted]
      obtain ⟨tree, htree⟩ := Sources.Inlines.again hrule hnoted (hs i.path hnoted hi)
      exact ⟨tree, [], htree, rfl, hs⟩
    · obtain ⟨next, t, hload, -, -, -, himported, -, -⟩ := run_load_of_new hnoted file
      rw [hload]
      have ht : table.Settled (i.path :: sc.importing) t.imported := by
        rw [himported]
        exact hs.push i.path
      refine (ensures_replaceImports_inlines (fun j s hs => ih j hsources hs) _ ht).mono ?_
        fun _ _ he => he
      rintro result t' ⟨tree, order, hinlines, himported', ht'⟩
      rw [Node.toRules_ofRules, himported] at hinlines
      refine ⟨[.source i.path tree], i.path :: order, .source hrule hnoted hfile hinlines, ?_, ?_⟩
      · rw [himported', himported, List.reverse_cons, List.append_assoc]
        rfl
      · refine ht'.pop ⟨file, tree, hfile, hinlines.unfolds, fun p hp => ?_⟩
        have hmem := (hinlines.mem_iff p).2 (List.mem_append_left _ hp)
        rw [himported', himported]
        simpa only [List.mem_append, List.mem_reverse] using hmem

theorem ensures_replaceImports_of_ok {replace : Import → CompileM (List Node)} {nodes : List Node}
    (h : ∀ i, .inclusion i ∈ nodes → ∀ s,
      Ensures (replace i) s (fun _ _ => True) fun _ _ => False) :
    Ensures (replaceImports replace nodes) s (fun _ _ => True) fun _ _ => False := by
  induction nodes generalizing s with
  | nil => trivial
  | cons node nodes ih =>
    have hrest : ∀ s, Ensures (replaceImports replace nodes) s (fun _ _ => True) fun _ _ => False :=
      fun s => ih fun i hi => h i (List.mem_cons_of_mem _ hi)
    cases node with
    | inclusion i =>
      rw [replaceImports, ensures_bind]
      refine (h i List.mem_cons_self s).mono (fun first t _ => ?_) fun _ _ he => he
      exact ensures_bind.2 (hrest t)
    | _ => exact ensures_bind.2 (hrest s)

/-- What an import in a source leads to, the import of that source leads to. -/
theorem Sources.Reaches.of_inside {i j : Import} {file : List Rule} {path : String}
    (hcss : ¬ i.css = true) (hfile : table.lookup i.path = some file)
    (hj : .inclusion j ∈ file) (h : table.Reaches [.inclusion j] path) :
    Relation.TransGen table.Imports i.path path ∧ table.Reaches [.inclusion i] path := by
  obtain ⟨start, hstart, hreach⟩ := h
  have hsub : [Rule.inclusion j] ⊆ file := List.cons_subset.2 ⟨hj, List.nil_subset _⟩
  have hstep : table.Imports i.path start := ⟨file, hfile, List.filterMap_subset _ hsub hstart⟩
  exact ⟨.head' hstep hreach, i.path, Rule.mem_importedPaths_inclusion hcss, .head hstep hreach⟩

/-- Where every source is there and none leads back to itself, the search does not fail. A path on
the stack does not come up again, since it would lead back to itself. -/
theorem ensures_importCompile_of_acyclic (hsources : sc.sources = some table) (i : Import)
    (hi : ∀ path, table.Reaches [.inclusion i] path →
      (table.lookup path).isSome = true ∧ ¬ Relation.TransGen table.Imports path path)
    (hstack : ∀ path ∈ sc.importing, ¬ table.Reaches [.inclusion i] path) :
    Ensures (i.compile sc) s (fun _ _ => True) fun _ _ => False := by
  have hself : ∀ {i : Import}, ¬ i.css = true → table.Reaches [.inclusion i] i.path :=
    fun hcss => ⟨_, Rule.mem_importedPaths_inclusion hcss, .refl⟩
  induction sc, i using Import.compile.induct generalizing s with
  | case1 sc i hcss =>
    rw [Import.compile_of_css hcss]
    trivial
  | case2 sc i hcss himporting => exact absurd (hself hcss) (hstack i.path himporting)
  | case3 sc i hcss himporting hnone =>
    rw [hsources] at hnone
    cases hnone
  | case4 sc i hcss himporting sources hsome hlookup =>
    obtain rfl : table = sources := Option.some.inj (hsources.symm.trans hsome)
    have hfound := (hi i.path (hself hcss)).1
    rw [hlookup] at hfound
    cases hfound
  | case5 sc i hcss himporting sources hsome file hfile ih =>
    obtain rfl : table = sources := Option.some.inj (hsources.symm.trans hsome)
    rw [Import.compile_of_found hcss himporting hsome hfile, ensures_bind, ensures_lift]
    by_cases hnoted : i.path ∈ s.imported
    · rw [run_load_of_imported hnoted]
      trivial
    · obtain ⟨next, t, hload, -⟩ := run_load_of_new hnoted file
      rw [hload]
      refine ensures_replaceImports_of_ok fun j hj s => ?_
      have hmem : Rule.inclusion j ∈ file := by
        rw [← Node.toRules_ofRules file next, Node.toRules_eq_map]
        exact List.mem_map_of_mem hj
      refine ih j hsources (fun path hpath => hi path (hpath.of_inside hcss hfile hmem).2) ?_
      intro path hpath hreach
      obtain ⟨hback, houter⟩ := hreach.of_inside hcss hfile hmem
      rcases List.mem_cons.1 hpath with rfl | hpath
      · exact (hi i.path (hself hcss)).2 hback
      · exact hstack path hpath houter

/-- The nodes that are not replaced stay as they are, in their order. -/
theorem ensures_replaceImports_sublist (sc : Scope) (nodes : List Node) (s : Store) :
    Ensures (replaceImports (Import.compile sc) nodes) s
      (fun result _ => (nodes.filter Node.stays).Sublist result) fun _ _ => True := by
  induction nodes generalizing s with
  | nil => exact List.Sublist.refl []
  | cons node nodes ih =>
    cases node with
    | inclusion i =>
      rw [replaceImports]
      by_cases hcss : i.css = true
      · have hstays : (Node.inclusion i).stays = true := hcss
        rw [Import.compile_of_css hcss, pure_bind, List.filter_cons_of_pos hstays, ensures_bind]
        exact (ih s).mono (fun rest _ hrest => hrest.cons_cons _) fun _ _ _ => trivial
      · have hgoes : ¬ (Node.inclusion i).stays = true := hcss
        rw [List.filter_cons_of_neg hgoes, ensures_bind]
        refine ensures_of_forall (fun first t => ensures_bind.2 ?_) fun _ _ => trivial
        exact (ih t).mono (fun rest _ hrest => hrest.trans (List.sublist_append_right _ _))
          fun _ _ _ => trivial
    | _ =>
      refine ensures_bind.2 ((ih s).mono (fun rest _ hrest => ?_) fun _ _ _ => trivial)
      exact hrest.cons_cons _

/-- Importing is exact. With sources of which none was imported yet, imports can be replaced exactly
if every source that they lead to is there and none leads back to itself; otherwise this fails with
an error about an import. The result has no import left but those for the reader of the output. It
is the tree of the imports written out, with the rules of each source where its path comes up first;
so each source that can be reached is there once, and nothing else is. -/
theorem replaceImports_exact (hsources : sc.sources = some table) (hstack : sc.importing = [])
    (hnoted : s.imported = []) (nodes : List Node) :
    ((∃ result t, (replaceImports (Import.compile sc) nodes).run.run s = (.ok result, t)) ↔
      (∀ path, table.Reaches (Node.toRules nodes) path → (table.lookup path).isSome = true) ∧
        ∀ path, table.Reaches (Node.toRules nodes) path →
          ¬ Relation.TransGen table.Imports path path) ∧
    (∀ e t, (replaceImports (Import.compile sc) nodes).run.run s = (.error e, t) →
      e.isImportFailed = true) ∧
    ∀ result t, (replaceImports (Import.compile sc) nodes).run.run s = (.ok result, t) →
      (∀ i, .inclusion i ∈ result → i.css = true) ∧ (nodes.filter Node.stays).Sublist result ∧
      (∃ tree, table.Unfolds (Node.toRules nodes) tree ∧
        Node.toRules result = Unfolding.allFirsts [] tree) ∧
      ∃ order : List String, order.Nodup ∧
        (∀ path, path ∈ order ↔ table.Reaches (Node.toRules nodes) path) ∧
        (Node.toRules result).Perm
          (Rule.kept (Node.toRules nodes) ++ order.flatMap table.keptOf) := by
  have hsettled : table.Settled sc.importing s.imported := by
    rw [hnoted]
    exact List.forall_mem_nil _
  have hsearch := ensures_replaceImports_inlines
    (fun i _ hs => ensures_importCompile_inlines hsources i hs) nodes hsettled
  refine ⟨⟨?_, ?_⟩, fun e t hrun => hsearch.of_error hrun, fun result t hrun => ?_⟩
  · rintro ⟨result, t, hrun⟩
    obtain ⟨tree, order, hinlines, -, -⟩ := hsearch.of_ok hrun
    exact ⟨fun path hpath => (hinlines.unfolds.sources_of_reaches hpath).1,
      fun path hpath => (hinlines.unfolds.sources_of_reaches hpath).2⟩
  · rintro ⟨hfound, hacyclic⟩
    have hok : Ensures (replaceImports (Import.compile sc) nodes) s (fun _ _ => True)
        fun _ _ => False := by
      refine ensures_replaceImports_of_ok fun i hi s => ?_
      have hsub : [Rule.inclusion i] ⊆ Node.toRules nodes := by
        rw [Node.toRules_eq_map]
        exact List.cons_subset.2 ⟨List.mem_map_of_mem hi, List.nil_subset _⟩
      refine ensures_importCompile_of_acyclic hsources i (fun path hpath => ?_) ?_
      · exact ⟨hfound path (hpath.mono hsub), hacyclic path (hpath.mono hsub)⟩
      · rw [hstack]
        exact List.forall_mem_nil _
    cases hrun : (replaceImports (Import.compile sc) nodes).run.run s with
    | mk outcome t =>
      cases outcome with
      | ok result => exact ⟨result, t, rfl⟩
      | error e => exact (hok.of_error hrun).elim
  · obtain ⟨tree, order, hinlines, -, -⟩ := hsearch.of_ok hrun
    rw [hnoted] at hinlines
    refine ⟨fun i hi => ?_, (ensures_replaceImports_sublist sc nodes s).of_ok hrun,
      ⟨tree, hinlines.unfolds, hinlines.result_eq⟩, order, hinlines.nodup, fun path => ?_,
      hinlines.perm⟩
    · have hmem : Rule.inclusion i ∈ Node.toRules result := by
        rw [Node.toRules_eq_map]
        exact List.mem_map_of_mem hi
      by_contra hcss
      have hnone := hinlines.importedPath?_eq_none hmem
      rw [Rule.importedPath?_inclusion hcss] at hnone
      cases hnone
    · have hmem := hinlines.mem_iff path
      rw [List.append_nil, List.append_nil] at hmem
      exact hmem.trans hinlines.unfolds.mem_allPaths_iff

/-- Two sources that import a third: it is there once, although it is reached twice. -/
theorem replaceImports_exact_diamond :
    let table : Sources := [
      ("a", [.inclusion { path := "c" }, .comment { text := "a" }]),
      ("b", [.inclusion { path := "c" }, .comment { text := "b" }]),
      ("c", [.comment { text := "c" }])]
    let nodes : List Node := [.inclusion { path := "a" }, .inclusion { path := "b" }]
    ∃ result t, (replaceImports (Import.compile { sources := some table }) nodes).run.run {} =
        (.ok result, t) ∧
      (∀ i, .inclusion i ∈ result → i.css = true) ∧
      ∃ order : List String, order.Nodup ∧
        (∀ path, path ∈ order ↔ table.Reaches (Node.toRules nodes) path) ∧
        (Node.toRules result).Perm (order.flatMap table.keptOf) := by
  intro table nodes
  have hok : ((replaceImports (Import.compile { sources := some table }) nodes).run.run
      {}).1.toOption.isSome = true := by decide +kernel
  obtain ⟨-, -, hexact⟩ := replaceImports_exact
    (rfl : Scope.sources { sources := some table } = some table) rfl
    (rfl : Store.imported {} = []) nodes
  cases hrun : (replaceImports (Import.compile { sources := some table }) nodes).run.run {} with
  | mk outcome t =>
    rw [hrun] at hok
    cases outcome with
    | error e => cases hok
    | ok result =>
      obtain ⟨hcss, -, -, order, hnodup, hreach, hperm⟩ := hexact result t hrun
      exact ⟨result, t, rfl, hcss, order, hnodup, hreach, hperm⟩

end Search

end Stylesheet
