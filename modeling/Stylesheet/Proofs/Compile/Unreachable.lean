import Stylesheet.Proofs.Compile.Soundness
import Stylesheet.Proofs.Environment.Restored
import Stylesheet.Proofs.Node.Headers
import Stylesheet.Proofs.Rule.Decoded
import Stylesheet.Proofs.Rule.Joined

/-!
# Errors that never come up

A style sheet that was read fails only with an error that is reported: about a mixin,
an import or a variable. The compiler keeps all its promises to itself. No call is
left unexpanded, no frame is left open and the levels of nesting do not run out; and
since every selector has an element, the selectors can always be joined.
-/

namespace Stylesheet

section Selectors

/-- Filling in the holes of a selector keeps the number of its elements. -/
theorem Scope.elements_ne_nil_of_selector {sc : Scope} {s t : Selector}
    (h : sc.selector s = .ok t) (hs : s.elements ≠ []) : t.elements ≠ [] := by
  obtain ⟨elements, helements, ⟨⟩⟩ := bind_eq_ok_iff.1 h
  have hlength := (mapM_eq_ok_iff.1 helements).length_eq
  rw [← List.length_pos_iff] at hs ⊢
  exact hlength ▸ hs

theorem Header.kept_hasElements : Header.Kept Fit.hasElements.header where
  plain := fun s hs => by cases hs
  evaluated := by
    intro sc header selectors hheader hselectors t ht
    obtain ⟨s, hs, hst⟩ := exists_of_mem_right (mapM_eq_ok_iff.1 hselectors) ht
    exact Scope.elements_ne_nil_of_selector hst (hheader s hs)
  wrapped := fun header hheader => hheader

end Selectors

section Join

variable {fit : Fit} {s : Store} {r : Ruleset} {bound : Nat}

/-- All blocks are sound, whatever they refer to. -/
def Store.SoundBlocks (fit : Fit) (s : Store) : Prop := ∀ b ∈ s.blocks, ∃ bound, b.Sound fit bound

theorem Store.Sound.soundBlocks (h : s.Sound fit) : s.SoundBlocks fit := by
  intro b hb
  obtain ⟨index, hindex⟩ := List.getElem?_of_mem hb
  exact ⟨index, h.blocks index b hindex⟩

/-- Renewing the numbers of a ruleset keeps its rules and all blocks sound. -/
theorem soundBlocks_renew (hs : s.SoundBlocks fit) (hr : Node.AllSound fit bound r.rules)
    (hcompiled : Node.AllCompiled r.rules) :
    (r.renew.run s).1.header = r.header ∧ Node.AllSound fit bound (r.renew.run s).1.rules ∧
      (r.renew.run s).2.SoundBlocks fit := by
  refine ⟨rfl, hr.renewAll hcompiled _, ?_⟩
  intro b hb
  obtain ⟨old, hold, hrenew⟩ := exists_of_mem_right (forall₂_blocks_renew r s) hb
  obtain ⟨k, hk⟩ := hs old hold
  refine ⟨k, ?_⟩
  rcases hrenew with rfl | ⟨next, rfl⟩
  · exact hk
  · exact ⟨hk.rules.renewAll hk.compiled _, hk.compiled.renewAll _, hk.copied.renewed _⟩

theorem mapReachable_join_ok (hs : s.SoundBlocks .hasElements) (nodes : List Node) :
    ∃ blocks, s.mapReachable nodes Block.join = .ok blocks := by
  refine Store.mapReachable_join_ok_of fun index b hb _ => ?_
  obtain ⟨k, hk⟩ := hs b (List.mem_of_getElem? hb)
  exact hk.rules.joinAll_ok fun parent hp => by cases hp

/-- A ruleset with sound rules can be joined, and so can all blocks. -/
theorem ensures_join (hr : r.header.HasElements)
    (hrules : Node.AllSound .hasElements bound r.rules) (hcompiled : Node.AllCompiled r.rules)
    (hs : s.SoundBlocks .hasElements) :
    Ensures r.join s (fun _ _ => True) fun _ _ => False := by
  have hnone : ∀ parent ∈ ([] : List Path), parent.WellFormed := fun parent hp => by cases hp
  obtain ⟨hheader, hrenewed, hblocks⟩ := soundBlocks_renew hs hrules hcompiled
  obtain ⟨paths, inner, hpaths, hinner⟩ := Header.join_wellFormed hr hnone
  rw [← hheader] at hpaths
  obtain ⟨joined, hjoined⟩ := hrenewed.joinAll_ok hinner
  obtain ⟨blocks, hb⟩ := mapReachable_join_ok hblocks (r.renew.run s).1.rules
  exact ensures_join_of_ok hpaths hjoined hb

end Join

section Documents

variable {rules : List Rule} {sc : Scope}

/-- A document whose selectors have elements fails only with a reported error. -/
theorem ensures_compileDocument (hrules : ∀ rule ∈ rules, rule.Fits .hasElements)
    (hsources : ∀ table, sc.sources = some table →
      ∀ entry ∈ table, ∀ rule ∈ entry.2, rule.Fits .hasElements)
    (hframes : sc.frames = []) :
    Ensures (compileDocument sc rules) {} (fun _ _ => True) fun e _ => e.isReported = true := by
  rw [compileDocument, ensures_bind, ensures_lift, run_numberRules, ensures_bind, compileTree,
    ensures_bind, ensures_lift]
  have hready : ∀ next, sc.Ready .hasElements { nextSerial := next } := fun next =>
    ⟨by simp [hframes], by simp [hframes], by simp [hframes], hsources, Store.sound_empty.blocks,
      Store.sound_empty.memo⟩
  rw [ensures_bind]
  refine (safeAt_compiler Header.kept_hasElements (safe_upTo Header.kept_hasElements sc.budget)
    trivial (hready _) (fun s hs => by cases hs) (Node.allSound_ofRules hrules _)
    (Node.untouched_ofRules trivial _).settled).ensures.mono ?_ fun _ _ he => he
  rintro compiled t ⟨hgives, hheader⟩
  rw [if_pos (by simp [hframes]), ensures_bind, ensures_lift]
  have hsound := (t.quiet_record .joining).sound hgives.sound
  exact (ensures_join hheader hgives.nodes hgives.compiled hsound.soundBlocks).mono
    (fun _ _ _ => trivial) fun _ _ h => h.elim

/-- A style sheet that was read, with sources that were read, fails only with an error about a
mixin, an import or a variable, whatever the options are. The compiler with one environment, which
checks at the end that no frame is left open, fails with the same error. -/
theorem compileToCss_error_isReported {options : Options} {sources : Option Sources} {e : Error}
    (hrules : ∃ json, Rule.readList json = .ok rules)
    (hsources : ∀ table, sources = some table →
      ∀ entry ∈ table, ∃ json, Rule.readList json = .ok entry.2)
    (h : compileToCss rules options sources = .error e) :
    e.isReported = true ∧
      ((Environment.compileDocument rules).run.run ⟨{ options, sources }, {}⟩).1 = .error e := by
  obtain ⟨json, hjson⟩ := hrules
  have hfits : ∀ table, sources = some table →
      ∀ entry ∈ table, ∀ rule ∈ entry.2, rule.Fits .hasElements := by
    intro table htable entry hentry
    obtain ⟨json, hjson⟩ := hsources table htable entry hentry
    exact Rule.fits_readList hjson
  have hensures : Ensures (compileDocument { options, sources } rules) {} (fun _ _ => True)
      fun e _ => e.isReported = true :=
    ensures_compileDocument (Rule.fits_readList hjson) hfits rfl
  have hrun : Environment.RunsFrom { options, sources } {} (Environment.compileDocument rules)
      (compileDocument { options, sources } rules) := Environment.runsAt_compileDocument rules {}
  refine ⟨?_, ?_⟩
  · exact hensures.of_error (t := ((compileDocument { options, sources } rules).run.run {}).2)
      (Prod.ext h rfl)
  · rw [hrun]
    exact h

/-- A call of an unknown mixin in an imported source is reported. -/
theorem compileToCss_error_isReported_imported_call :
    let table : Sources := [("a", [.call { selector := { elements := [{ value := ".m" }] } }])]
    compileToCss [.inclusion { path := "a" }] {} (some table) = .error (.mixinNotFound ".m" {}) ∧
      Error.isReported (.mixinNotFound ".m" {}) = true ∧
      ((Environment.compileDocument [.inclusion { path := "a" }]).run.run
        ⟨{ sources := some table }, {}⟩).1 = .error (.mixinNotFound ".m" {}) := by
  intro table
  have herror : compileToCss [.inclusion { path := "a" }] {} (some table) =
      .error (.mixinNotFound ".m" {}) := by decide +kernel
  refine ⟨herror, compileToCss_error_isReported ?_ ?_ herror⟩
  · exact ⟨.array [.object [("type", .string "import"), ("path", .string "a")]], rfl⟩
  · rintro _ ⟨⟩ entry hentry
    obtain rfl := List.mem_singleton.1 hentry
    exact ⟨.array [.object [("type", .string "mixin_call"), ("selector", .string ".m")]], rfl⟩

end Documents

end Stylesheet
