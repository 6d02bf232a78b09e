import Mathlib.Logic.Relation
import Stylesheet.Compile.Scope

/-!
# The sources behind an import

An import of a path leads on to the imports in the source of that path, and so on. Where every
source is there and none leads back to itself, the imports among some rules can be written out in
full: each of them becomes the source of its path, in which the imports are written out as well.
This tree has a source as often as there are ways to come to it.

What importing keeps of the tree are the rules of each source where its path stands first. The
order is that of a walk through the tree which goes into a source before it goes on to what
follows.
-/

namespace Stylesheet

namespace Rule

/-- The path that a rule imports. An import for the reader of the output imports nothing here. -/
def importedPath? : Rule → Option String
  | .inclusion i => if i.css then none else some i.path
  | _ => none

/-- The paths that some rules import, not counting imports inside the rules. -/
def importedPaths (rules : List Rule) : List String := rules.filterMap importedPath?

/-- The rules that importing leaves where they are. -/
def kept (rules : List Rule) : List Rule := rules.filter (·.importedPath?.isNone)

variable {rule : Rule} {rules : List Rule}

theorem importedPath?_inclusion {i : Import} (h : ¬ i.css = true) :
    (Rule.inclusion i).importedPath? = some i.path := if_neg h

theorem importedPaths_cons_of_none (h : rule.importedPath? = none) :
    importedPaths (rule :: rules) = importedPaths rules := List.filterMap_cons_none h

theorem importedPaths_cons_of_some {path : String} (h : rule.importedPath? = some path) :
    importedPaths (rule :: rules) = path :: importedPaths rules := List.filterMap_cons_some h

theorem mem_importedPaths_inclusion {i : Import} (h : ¬ i.css = true) :
    i.path ∈ importedPaths [.inclusion i] := by
  rw [importedPaths_cons_of_some (importedPath?_inclusion h)]
  exact List.mem_cons_self

theorem kept_cons_of_none (h : rule.importedPath? = none) :
    kept (rule :: rules) = rule :: kept rules := by
  rw [kept, List.filter_cons_of_pos (by rw [h]; rfl), kept]

theorem kept_cons_of_some {path : String} (h : rule.importedPath? = some path) :
    kept (rule :: rules) = kept rules := by
  rw [kept, List.filter_cons_of_neg (by rw [h]; exact Bool.false_ne_true), kept]

end Rule

/-- A rule where the imports are written out: one that stays, or the source of a path. -/
inductive Unfolding where
  | plain (rule : Rule)
  | source (path : String) (inside : List Unfolding)

namespace Unfolding

mutual

/-- The paths of the sources, each before those inside it. -/
def paths : Unfolding → List String
  | .plain _ => []
  | .source path inside => path :: allPaths inside

/-- The paths of the sources in the order of the walk, as often as they come up. -/
def allPaths : List Unfolding → List String
  | [] => []
  | u :: us => paths u ++ allPaths us

end

mutual

/-- The rules that stay, and those of each source where its path comes up first. The paths of
`before` came up earlier. -/
def firsts (before : List String) : Unfolding → List Rule
  | .plain rule => [rule]
  | .source path inside => if path ∈ before then [] else allFirsts (path :: before) inside

/-- The rules that stay, and those of each source where its path comes up first in the walk. -/
def allFirsts (before : List String) : List Unfolding → List Rule
  | [] => []
  | u :: us => firsts before u ++ allFirsts (paths u ++ before) us

end

mutual

theorem firsts_congr : ∀ {u : Unfolding} {before before' : List String},
    (∀ path, path ∈ before' ↔ path ∈ before) → firsts before' u = firsts before u
  | .plain _, _, _, _ => by rw [firsts, firsts]
  | .source path inside, before, before', h => by
    have hinside : allFirsts (path :: before') inside = allFirsts (path :: before) inside :=
      allFirsts_congr fun p => by rw [List.mem_cons, List.mem_cons, h]
    rw [firsts, firsts, hinside]
    simp only [h]

/-- Of the paths that came up earlier it only counts which they are. -/
theorem allFirsts_congr : ∀ {us : List Unfolding} {before before' : List String},
    (∀ path, path ∈ before' ↔ path ∈ before) → allFirsts before' us = allFirsts before us
  | [], _, _, _ => by rw [allFirsts, allFirsts]
  | u :: us, before, before', h => by
    have hrest : allFirsts (paths u ++ before') us = allFirsts (paths u ++ before) us :=
      allFirsts_congr fun p => by rw [List.mem_append, List.mem_append, h]
    rw [allFirsts, allFirsts, hrest, firsts_congr h]

end

theorem allPaths_append (us vs : List Unfolding) :
    allPaths (us ++ vs) = allPaths us ++ allPaths vs := by
  induction us with
  | nil => rfl
  | cons u us ih => rw [List.cons_append, allPaths, allPaths, ih, List.append_assoc]

theorem allFirsts_append (us vs : List Unfolding) (before : List String) :
    allFirsts before (us ++ vs) = allFirsts before us ++ allFirsts (allPaths us ++ before) vs := by
  induction us generalizing before with
  | nil => rfl
  | cons u us ih =>
    have hbefore : allFirsts (allPaths us ++ (paths u ++ before)) vs =
        allFirsts (allPaths (u :: us) ++ before) vs := by
      refine allFirsts_congr fun path => ?_
      simp only [allPaths, List.mem_append, or_left_comm, or_assoc]
    rw [List.cons_append, allFirsts, allFirsts, ih, hbefore, List.append_assoc]

end Unfolding

namespace Sources

/-- The source of the first path imports the second. -/
def Imports (table : Sources) (path path' : String) : Prop :=
  ∃ file, table.lookup path = some file ∧ path' ∈ Rule.importedPaths file

/-- The path is imported by the rules, or by a source that they lead to. -/
def Reaches (table : Sources) (rules : List Rule) (path : String) : Prop :=
  ∃ start ∈ Rule.importedPaths rules, Relation.ReflTransGen table.Imports start path

/-- What some of the rules lead to, all of them lead to. -/
theorem Reaches.mono {table : Sources} {rules rules' : List Rule} {path : String}
    (h : table.Reaches rules path) (hsub : rules ⊆ rules') : table.Reaches rules' path := by
  obtain ⟨start, hstart, hreach⟩ := h
  exact ⟨start, List.filterMap_subset _ hsub hstart, hreach⟩

/-- The tree is what comes of the rules where the imports are written out. -/
inductive Unfolds (table : Sources) : List Rule → List Unfolding → Prop
  | nil : Unfolds table [] []
  | plain {rule : Rule} {rules : List Rule} {tree : List Unfolding}
      (hrule : rule.importedPath? = none) (hrest : Unfolds table rules tree) :
      Unfolds table (rule :: rules) (.plain rule :: tree)
  | source {rule : Rule} {rules file : List Rule} {path : String} {inside tree : List Unfolding}
      (hrule : rule.importedPath? = some path) (hfile : table.lookup path = some file)
      (hinside : Unfolds table file inside) (hrest : Unfolds table rules tree) :
      Unfolds table (rule :: rules) (.source path inside :: tree)

variable {table : Sources} {rules : List Rule} {tree : List Unfolding} {path path' : String}

/-- What a source in the tree leads to is written out inside it. -/
theorem Unfolds.exists_inside (h : table.Unfolds rules tree)
    (hpath : path ∈ Unfolding.allPaths tree) :
    ∃ file inside, table.lookup path = some file ∧ table.Unfolds file inside ∧
      ∀ p ∈ Unfolding.allPaths inside, p ∈ Unfolding.allPaths tree := by
  induction h with
  | nil => cases hpath
  | plain _ _ ih => exact ih hpath
  | source _ hfile hinside _ ihinside ihrest =>
    rw [Unfolding.allPaths, Unfolding.paths, List.cons_append, List.mem_cons,
      List.mem_append] at hpath
    rcases hpath with rfl | hpath | hpath
    · refine ⟨_, _, hfile, hinside, fun p hp => ?_⟩
      exact List.mem_append_left _ (List.mem_cons_of_mem _ hp)
    · obtain ⟨file, inside, hlookup, hunfolds, hsub⟩ := ihinside hpath
      refine ⟨file, inside, hlookup, hunfolds, fun p hp => ?_⟩
      exact List.mem_append_left _ (List.mem_cons_of_mem _ (hsub p hp))
    · obtain ⟨file, inside, hlookup, hunfolds, hsub⟩ := ihrest hpath
      exact ⟨file, inside, hlookup, hunfolds, fun p hp => List.mem_append_right _ (hsub p hp)⟩

theorem Unfolds.mem_allPaths_of_imported (h : table.Unfolds rules tree)
    (hpath : path ∈ Rule.importedPaths rules) : path ∈ Unfolding.allPaths tree := by
  induction h with
  | nil => cases hpath
  | plain hrule _ ih =>
    rw [Rule.importedPaths_cons_of_none hrule] at hpath
    exact ih hpath
  | source hrule _ _ _ _ ih =>
    rw [Rule.importedPaths_cons_of_some hrule] at hpath
    rcases List.mem_cons.1 hpath with rfl | hpath
    · exact List.mem_append_left _ List.mem_cons_self
    · exact List.mem_append_right _ (ih hpath)

/-- The sources in the tree are those that the rules lead to. -/
theorem Unfolds.mem_allPaths_iff (h : table.Unfolds rules tree) :
    path ∈ Unfolding.allPaths tree ↔ table.Reaches rules path := by
  constructor
  · intro hpath
    induction h with
    | nil => cases hpath
    | plain hrule _ ih =>
      rw [Reaches, Rule.importedPaths_cons_of_none hrule]
      exact ih hpath
    | source hrule hfile _ _ ihinside ihrest =>
      rw [Reaches, Rule.importedPaths_cons_of_some hrule]
      rw [Unfolding.allPaths, Unfolding.paths, List.cons_append, List.mem_cons,
        List.mem_append] at hpath
      rcases hpath with rfl | hpath | hpath
      · exact ⟨_, List.mem_cons_self, .refl⟩
      · obtain ⟨start, hstart, hreach⟩ := ihinside hpath
        exact ⟨_, List.mem_cons_self, .head ⟨_, hfile, hstart⟩ hreach⟩
      · obtain ⟨start, hstart, hreach⟩ := ihrest hpath
        exact ⟨start, List.mem_cons_of_mem _ hstart, hreach⟩
  · rintro ⟨start, hstart, hreach⟩
    induction hreach with
    | refl => exact h.mem_allPaths_of_imported hstart
    | tail _ hstep ih =>
      obtain ⟨file, hfile, himports⟩ := hstep
      obtain ⟨file', inside, hlookup, hunfolds, hsub⟩ := h.exists_inside ih
      obtain rfl : file = file' := Option.some.inj (hfile.symm.trans hlookup)
      exact hsub _ (hunfolds.mem_allPaths_of_imported himports)

/-- On a cycle, the next path is on the cycle as well. -/
theorem exists_imports_of_cycle (h : Relation.TransGen table.Imports path path) :
    ∃ next, table.Imports path next ∧ Relation.TransGen table.Imports next next := by
  obtain ⟨next, hstep, hrest⟩ := Relation.TransGen.head'_iff.1 h
  exact ⟨next, hstep, Relation.TransGen.tail' hrest hstep⟩

/-- No path that rules with a tree import leads back to itself. -/
theorem Unfolds.not_cycle_of_imported (h : table.Unfolds rules tree)
    (hpath : path ∈ Rule.importedPaths rules) : ¬ Relation.TransGen table.Imports path path := by
  induction h generalizing path with
  | nil => cases hpath
  | plain hrule _ ih =>
    rw [Rule.importedPaths_cons_of_none hrule] at hpath
    exact ih hpath
  | source hrule hfile _ _ ihinside ihrest =>
    rw [Rule.importedPaths_cons_of_some hrule] at hpath
    rcases List.mem_cons.1 hpath with rfl | hpath
    · intro hcycle
      obtain ⟨next, ⟨file', hlookup, hnext⟩, hcycle⟩ := exists_imports_of_cycle hcycle
      obtain rfl := Option.some.inj (hfile.symm.trans hlookup)
      exact ihinside hnext hcycle
    · exact ihrest hpath

/-- All sources that rules with a tree lead to are there, and none leads back to itself. -/
theorem Unfolds.sources_of_reaches (h : table.Unfolds rules tree)
    (hpath : table.Reaches rules path) :
    (table.lookup path).isSome = true ∧ ¬ Relation.TransGen table.Imports path path := by
  obtain ⟨file, inside, hlookup, hinside, -⟩ := h.exists_inside (h.mem_allPaths_iff.2 hpath)
  refine ⟨by rw [hlookup]; rfl, fun hcycle => ?_⟩
  obtain ⟨next, ⟨file', hlookup', hnext⟩, hcycle⟩ := exists_imports_of_cycle hcycle
  obtain rfl : file = file' := Option.some.inj (hlookup.symm.trans hlookup')
  exact hinside.not_cycle_of_imported hnext hcycle

theorem Unfolds.append {rules' : List Rule} {tree' : List Unfolding} (h : table.Unfolds rules tree)
    (h' : table.Unfolds rules' tree') : table.Unfolds (rules ++ rules') (tree ++ tree') := by
  induction h with
  | nil => exact h'
  | plain hrule _ ih => exact .plain hrule ih
  | source hrule hfile hinside _ _ ih => exact .source hrule hfile hinside ih

end Sources

end Stylesheet
