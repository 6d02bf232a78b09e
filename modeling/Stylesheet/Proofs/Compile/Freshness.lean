import Stylesheet.Proofs.Compile.Correspondence
import Stylesheet.Proofs.Import.Inlining

/-!
# Frames that are up to date

While the rules of a ruleset are compiled, its frame shows them as they were when the last
nested ruleset was done. A variable whose value refers to other variables is shown with
its value as written until then, and with the resolved value afterwards. After rules that
leave the frame fresh there is no such variable, so that one ruleset more would show
nothing new. Imported rules count as if they stood in place of their imports, each source
where it comes up first; sources that the rules do not lead to do not count.
-/

namespace Stylesheet

/-- Whether a frame is fresh after one more rule. -/
def Rule.refresh (fresh : Bool) : Rule → Bool
  | .ruleset .. => true
  | .declaration d => fresh && (!d.isVariable || d.value.isResolved)
  | _ => fresh

/-- The frame of a document is fresh after its first rules. Without sources, the imports among them
stay; with sources, they are written out. -/
structure Rule.EndFresh (sources : Option Sources) (rules : List Rule) : Prop where
  kept : sources = none → rules.foldl Rule.refresh true = true
  unfolded : ∀ table, sources = some table → ∀ tree, table.Unfolds rules tree →
    (Unfolding.allFirsts [] tree).foldl Rule.refresh true = true

/-- Whether a frame is fresh after some nodes of its ruleset. -/
def Node.refreshAll (fresh : Bool) (nodes : List Node) : Bool :=
  (nodes.map Slot.own).foldl Slot.refresh fresh

theorem Node.refreshAll_captureFrames (frames : List Ruleset) (nodes : List Node) (fresh : Bool) :
    refreshAll fresh (captureFrames frames nodes) = refreshAll fresh nodes := by
  induction nodes generalizing fresh with
  | nil => rfl
  | cons n nodes ih =>
    cases n with
    | definition d =>
      obtain ⟨signature, rules, closure⟩ := d
      cases closure with
      | none => exact ih _
      | some frames => exact ih _
    | _ => exact ih _

/-- A node counts as its plain rule does. -/
theorem Node.refresh_own (n : Node) (fresh : Bool) :
    Slot.refresh fresh (.own n) = n.toRule.refresh fresh := by
  cases n with
  | declaration d => rfl
  | ruleset r =>
    obtain ⟨serial, source, header, rules⟩ := r
    rfl
  | definition d =>
    obtain ⟨signature, rules, closure⟩ := d
    exact Bool.and_true fresh
  | directive head rules => cases rules <;> exact Bool.and_true fresh
  | _ => exact Bool.and_true fresh

theorem Node.refreshAll_eq (nodes : List Node) (fresh : Bool) :
    refreshAll fresh nodes = (toRules nodes).foldl Rule.refresh fresh := by
  induction nodes generalizing fresh with
  | nil => rfl
  | cons n nodes ih =>
    rw [toRules, List.foldl_cons, ← n.refresh_own]
    exact ih _

section Imports

variable {sc : Scope} {s : Store}

/-- Without sources, imports stay as they are. -/
theorem replaceImports_of_no_sources (hsources : sc.sources = none) (hstack : sc.importing = [])
    (nodes : List Node) : replaceImports (Import.compile sc) nodes = pure nodes := by
  have hkept : ∀ i : Import, i.compile sc = pure [.inclusion i] := by
    intro i
    by_cases hcss : i.css = true
    · exact Import.compile_of_css hcss
    · exact Import.compile_of_no_sources hcss (by simp [hstack]) hsources
  induction nodes with
  | nil => rfl
  | cons n nodes ih =>
    cases n with
    | inclusion i => simp only [replaceImports, hkept, ih, pure_bind, List.singleton_append]
    | _ => simp only [replaceImports, ih, pure_bind]

/-- Rules that leave the frame of a document fresh do so with their imports replaced. -/
theorem Rule.EndFresh.ensures_replaceImports {rules : List Rule} (h : EndFresh sc.sources rules)
    (hstack : sc.importing = []) (hnoted : s.imported = []) (next : Nat) :
    Ensures (replaceImports (Import.compile sc) ((Node.ofRules rules).run next).1) s
      (fun nodes _ => Node.refreshAll true nodes = true) fun _ _ => True := by
  cases hsources : sc.sources with
  | none =>
    rw [replaceImports_of_no_sources hsources hstack, ensures_pure, Node.refreshAll_eq,
      Node.toRules_ofRules]
    exact h.kept hsources
  | some table =>
    have hsettled : table.Settled sc.importing s.imported := by
      rw [hnoted]
      exact List.forall_mem_nil _
    refine (ensures_replaceImports_inlines
      (fun i _ hs => ensures_importCompile_inlines hsources i hs) _ hsettled).mono ?_
      fun _ _ _ => trivial
    rintro nodes t ⟨tree, order, hinlines, -, -⟩
    rw [Node.toRules_ofRules] at hinlines
    rw [Node.refreshAll_eq, hinlines.result_eq, hnoted]
    exact h.unfolded table hsources tree hinlines.unfolds

end Imports

end Stylesheet
