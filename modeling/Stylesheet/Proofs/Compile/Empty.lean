import Stylesheet.Proofs.Compile.Parallel
import Stylesheet.Proofs.Rule.Literal

/-!
# Compiling an empty ruleset

A ruleset without rules whose selectors have no holes always compiles, to a ruleset
without rules. It needs nothing from its scope, and leaves nothing in the store but the
numbers that it used up. No query that its selectors do not match sees it.
-/

namespace Stylesheet

section Sight

variable {queries : Queries} {ledger : List (List Node)} {r : Ruleset}

/-- A ruleset without rules is not seen by queries that its selectors do not match. -/
theorem unseen_of_empty (hrules : r.rules = []) (hfiled : r.Filed (ledger[·]?))
    (hmatch : ∀ q, queries.Has q → ∀ s ∈ r.header.selectors, q.matchLength s = 0) :
    (Node.ruleset r).Unseen queries ledger := by
  obtain ⟨serial, source, header, rules⟩ := r
  obtain rfl : rules = [] := hrules
  refine ⟨rfl, fun q hq => ?_, .ruleset hfiled fun n hn => by cases hn⟩
  have hnone : q.firstMatch? header.selectors = none := by
    refine List.find?_eq_none.2 fun length hlength => ?_
    obtain ⟨s, hs, rfl⟩ := List.mem_map.1 hlength
    rw [hmatch q hq s hs]
    simp
  rw [Node.search, hnone]

end Sight

section Running

variable {sc : Scope} {r : Ruleset} {s : Store}

/-- What becomes of an empty ruleset, which takes up numbers only. -/
structure Ruleset.Emptied (r : Ruleset) (s : Store) (r' : Ruleset) (t : Store) : Prop where
  quiet : s.Quiet t
  rules : r'.rules = []
  selectors : r'.header.selectors = r.header.selectors.map Selector.evaluate
  le_serial : s.nextSerial ≤ r'.serial
  serial_lt : r'.serial < t.nextSerial

theorem ensures_homeFrame_empty (hrules : r.rules = []) (selectors : List Selector) (s : Store) :
    Ensures (r.homeFrame sc selectors) s
      (fun home t => s.Quiet t ∧ home.rules = [] ∧ home.header.selectors = selectors)
      fun _ _ => False := by
  obtain ⟨serial, source, header, rules⟩ := r
  obtain rfl : rules = [] := hrules
  have hbuild := KeepsBooks.build { header with selectors, paths := [] } [] (some serial)
  rw [Ruleset.homeFrame, ensures_bind, ensures_lift]
  split
  · exact ⟨(hbuild s).trans (hbuild _), rfl, rfl⟩
  · exact ⟨hbuild s, rfl, rfl⟩

theorem ensures_fillFrame_empty {frame : Ruleset} (expand : Expander) (compile : Compiler)
    (hrules : frame.rules = []) (selectors : List Selector) (s : Store) :
    Ensures (frame.fillFrame expand (fun _ => Node.compileWith compile) sc selectors) s
      (fun r t => s.Quiet t ∧ r.rules = [] ∧ r.header = frame.header ∧ r.serial = s.nextSerial ∧
        t.nextSerial = s.nextSerial + 1) fun _ _ => False := by
  rw [Ruleset.fillFrame, ensures_bind, ensures_get, hrules, expandCalls, pure_bind]
  dsimp only
  rw [compileSlots, pure_bind]
  dsimp only
  rw [ensures_bind, ensures_lift, run_bubble_of_le (Nat.le_refl _), ensures_lift]
  exact ⟨KeepsBooks.build _ _ _ s, rfl, rfl, rfl, rfl⟩

/-- An empty ruleset with literal selectors always compiles. -/
theorem ensures_compileWith_empty (expand : Expander) (compile : Compiler) (hrules : r.rules = [])
    (hliteral : ∀ s ∈ r.header.selectors, s.IsLiteral) (s : Store) :
    Ensures (Ruleset.compileWith expand compile sc r) s (r.Emptied s) fun _ _ => False := by
  rw [Ruleset.compileWith_eq, Ruleset.compileBy, ensures_bind,
    ensures_ofExcept_of_ok (mapM_selector_of_isLiteral sc hliteral), ensures_bind, ensures_lift,
    ensures_bind]
  refine (ensures_homeFrame_empty hrules _ _).mono ?_ fun _ _ h => h
  rintro home t ⟨hquiet, hhome, hselectors⟩
  rw [ensures_bind, ensures_lift, hhome]
  refine (ensures_fillFrame_empty expand compile rfl _ _).mono ?_ fun _ _ h => h
  rintro r' u ⟨hquiet', hr', hheader, hserial, hnext⟩
  have hframe := KeepsBooks.build home.header [] home.source t
  have hall := (s.quiet_record _).trans (hquiet.trans (hframe.trans hquiet'))
  refine ⟨hall, hr', ?_, ?_, ?_⟩
  · rw [hheader]
    exact hselectors
  · rw [hserial]
    exact ((s.quiet_record _).trans (hquiet.trans hframe)).nextSerial
  · rw [hserial, hnext]
    exact Nat.lt_succ_self _

/-- The store still corresponds to another one after an empty ruleset was compiled. -/
theorem Ruleset.Emptied.exists_twin {queries : Queries} {p : Pairing} {r' : Ruleset} {s' t : Store}
    (h : r.Emptied s r' s') (hst : s.Twin queries p t) :
    ∃ q, p ≤ q ∧ s'.Twin queries q t ∧ r'.Filed (q.left[·]?) := by
  obtain ⟨count, hcount⟩ := Nat.exists_eq_add_of_le h.quiet.nextSerial
  have hle := p.le_add (List.replicate count []) []
  refine ⟨p.add (List.replicate count []) [], hle, ?_, ?_⟩
  · refine hst.later hle h.quiet (.refl t) ?_ ?_
    · simp [Pairing.add, hcount, hst.left]
    · simp [Pairing.add, hst.right]
  · have hserial := h.le_serial
    have hlt := h.serial_lt
    rw [hcount, hst.left] at hlt
    rw [hst.left] at hserial
    change (p.left ++ List.replicate count [])[r'.serial]? = some r'.rules
    rw [List.getElem?_append_right hserial, h.rules, List.getElem?_replicate, if_pos (by omega)]

end Running

end Stylesheet
