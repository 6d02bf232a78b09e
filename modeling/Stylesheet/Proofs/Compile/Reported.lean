import Stylesheet.Proofs.Compile.Steps
import Stylesheet.Proofs.Except

/-!
# Errors that are reported

Some errors are faults of the style sheet that the user can find and mend, and some
would be faults of the compiler. Filling in values and selectors fails only because
of a variable, and binding parameters only because of that or of a missing argument,
so these errors are of the first kind.
-/

namespace Stylesheet

/-- Whether an error reports a fault of the style sheet. The others are broken promises of the
compiler, or faults in the text of a selector. -/
def Error.isReported : Error → Bool
  | .mixinNotFound .. | .argumentMismatch .. | .importFailed .. => true
  | .undefinedVariable .. | .recursiveVariable .. | .mixinRecursion .. => true
  | .selectorSyntax .. | .internal _ => false

variable {sc : Scope} {e : Error}

theorem exists_of_fillText_eq_error {lookup : String → Except Error String} {v : Value}
    (h : v.fillText lookup = .error e) :
    ∃ name, .reference name ∈ v.parts ∧ lookup name = .error e := by
  obtain ⟨part, hmem, hpart⟩ := exists_of_mapM_eq_error (bind_pure_eq_error_iff.1 h)
  cases part with
  | text s => cases hpart
  | reference name => exact ⟨name, hmem, hpart⟩

/-- Filling in a value fails as the lookup of one of its references does. -/
theorem exists_of_fill_eq_error {lookup : String → Except Error String} {v : Value}
    (h : v.fill lookup = .error e) :
    ∃ name, .reference name ∈ v.parts ∧ lookup name = .error e := by
  unfold Value.fill at h
  split at h
  · cases h
  · exact exists_of_fillText_eq_error (bind_pure_eq_error_iff.1 h)

theorem isReported_of_resolve_eq_error {name : String} {span : Span}
    (h : sc.resolve name span = .error e) : e.isReported = true := by
  induction sc, name, span using Scope.resolve.induct with
  | case1 sc name span hd =>
    rw [Scope.resolve_of_unbound hd] at h
    cases h
    rfl
  | case2 sc name span d hd hp =>
    rw [Scope.resolve_of_pending hd hp] at h
    cases h
    rfl
  | case3 sc name span d hd hp ih =>
    rw [Scope.resolve_of_bound hd hp] at h
    obtain ⟨inner, -, hinner⟩ := exists_of_fill_eq_error h
    exact ih inner (bind_pure_eq_error_iff.1 hinner)

theorem isReported_of_lookup_eq_error {span : Span} {name : String}
    (h : sc.lookup span name = .error e) : e.isReported = true :=
  isReported_of_resolve_eq_error (bind_pure_eq_error_iff.1 h)

theorem isReported_of_value_eq_error {v : Value} {span : Span} (h : sc.value v span = .error e) :
    e.isReported = true := by
  obtain ⟨name, -, hname⟩ := exists_of_fill_eq_error h
  exact isReported_of_lookup_eq_error hname

theorem isReported_of_selector_eq_error {t : Selector} (h : sc.selector t = .error e) :
    e.isReported = true := by
  obtain ⟨element, -, helement⟩ := exists_of_mapM_eq_error (bind_pure_eq_error_iff.1 h)
  obtain ⟨name, -, hname⟩ := exists_of_fillText_eq_error (bind_pure_eq_error_iff.1 helement)
  exact isReported_of_lookup_eq_error hname

theorem isReported_of_declaration_eq_error {d : Declaration} (h : sc.declaration d = .error e) :
    e.isReported = true :=
  isReported_of_value_eq_error (bind_pure_eq_error_iff.1 h)

theorem isReported_of_bindParams_eq_error {c : Candidate} {span : Span} {args : List Value}
    {params : List Param} {rest : List Value}
    (h : c.bindParams sc span args params rest = .error e) : e.isReported = true := by
  induction params generalizing rest with
  | nil => cases h
  | cons p params ih =>
    cases rest with
    | cons arg rest => exact ih (bind_pure_eq_error_iff.1 h)
    | nil =>
      rw [Candidate.bindParams] at h
      cases hfallback : p.fallback with
      | none =>
        rw [hfallback] at h
        cases h
        rfl
      | some fallback =>
        rw [hfallback] at h
        rcases bind_eq_error_iff.1 h with hvalue | ⟨v, -, hrest⟩
        · exact isReported_of_value_eq_error hvalue
        · exact ih (bind_pure_eq_error_iff.1 hrest)

theorem isReported_of_bindings_eq_error {c : Candidate} {span : Span} {args : List Value}
    (h : c.bindings sc span args = .error e) : e.isReported = true :=
  isReported_of_bindParams_eq_error (bind_pure_eq_error_iff.1 h)

end Stylesheet
