import Stylesheet.Compile.Scope

/-!
# Replacing imports

An import is replaced by the rules of its source, in which imports are replaced in turn. Each path
is replaced once in a compilation; further imports of it are dropped. An import of a path inside
its own source is an error. Imports stay as they are where there are no sources at all, and so do
those that are meant for the reader of the output.
-/

namespace Stylesheet

namespace Scope

/-- The paths of the sources that are not being imported. -/
def idlePaths (sc : Scope) : List String :=
  (sc.sources.getD []).map Prod.fst |>.filter fun path => !sc.importing.contains path

/-- Importing one more path leaves fewer that are not being imported. -/
theorem length_idlePaths_lt {sc : Scope} {sources : Sources} {path : String} {rules : List Rule}
    (hs : sc.sources = some sources) (h : sources.lookup path = some rules)
    (hi : path ∉ sc.importing) :
    { sc with importing := path :: sc.importing }.idlePaths.length < sc.idlePaths.length := by
  have hmem : path ∈ sc.idlePaths := by
    refine List.mem_filter.2 ⟨?_, by simpa using hi⟩
    obtain ⟨l₁, l₂, hl, _⟩ := List.lookup_eq_some_iff.1 h
    simp [hs, hl]
  have hsub : { sc with importing := path :: sc.importing }.idlePaths =
      sc.idlePaths.filter (fun p => p ≠ path) := by
    simp only [idlePaths, List.filter_filter]
    congr 1
    funext p
    by_cases hp : p = path <;> simp [hp]
  rw [hsub]
  exact List.length_filter_lt_length_iff_exists.2 ⟨path, hmem, by simp⟩

end Scope

/-- Replace the imports among some nodes, from left to right. -/
def replaceImports (replace : Import → CompileM (List Node)) : List Node → CompileM (List Node)
  | [] => pure []
  | .inclusion i :: nodes => do
    let replacement ← replace i
    return replacement ++ (← replaceImports replace nodes)
  | node :: nodes => do return node :: (← replaceImports replace nodes)

/-- Hand out the rules of a source, unless they were handed out before. -/
def load (path : String) (rules : List Rule) : StateM Store (Option (List Node)) := do
  if (← get).imported.contains path then
    record (.skipping path)
    return none
  else
    modify fun s => { s with imported := path :: s.imported }
    let nodes ← numberRules rules
    record (.inlining path nodes.length)
    return some nodes

/-- The nodes that replace an import. -/
def Import.compile (sc : Scope) (i : Import) : CompileM (List Node) :=
  if i.css then pure [.inclusion i]
  else if _hi : i.path ∈ sc.importing then throw (.importFailed i.path .recursive i.span)
  else
    match _hs : sc.sources with
    | none => pure [.inclusion i]
    | some sources =>
      match _h : sources.lookup i.path with
      | none => throw (.importFailed i.path .notFound i.span)
      | some rules => do
        match ← load i.path rules with
        | none => return []
        | some nodes =>
          replaceImports (fun j => Import.compile { sc with importing := i.path :: sc.importing } j)
            nodes
termination_by sc.idlePaths.length
decreasing_by exact Scope.length_idlePaths_lt _hs _h _hi

end Stylesheet
