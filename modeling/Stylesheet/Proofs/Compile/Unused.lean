import Stylesheet.Proofs.Compile.Lockstep

/-!
# Mixins that are not used

A mixin definition whose name no call matches makes no difference, wherever it stands and
whatever is in it. Two compilations are compared, one with the definition and one without.
The rulesets inside the definition take up numbers, so that all rulesets after it are
numbered higher by as many. Nothing else sets the two compilations apart.
-/

namespace Stylesheet

/-- The second list is the first with a rule put in, at any place and at any depth. -/
inductive Rule.Inserted (new : Rule) : List Rule → List Rule → Prop
  | here (rules : List Rule) : Inserted new rules (new :: rules)
  | later (rule : Rule) {rules rules' : List Rule} (h : Inserted new rules rules') :
      Inserted new (rule :: rules) (rule :: rules')
  | ruleset (header : Header) (after : List Rule) {rules rules' : List Rule}
      (h : Inserted new rules rules') :
      Inserted new (.ruleset header rules :: after) (.ruleset header rules' :: after)
  | definition (signature : Signature) (after : List Rule) {rules rules' : List Rule}
      (h : Inserted new rules rules') :
      Inserted new (.definition signature rules :: after) (.definition signature rules' :: after)
  | media (head : MediaHead) (after : List Rule) {rules rules' : List Rule}
      (h : Inserted new rules rules') :
      Inserted new (.media head rules :: after) (.media head rules' :: after)
  | directive (head : DirectiveHead) (after : List Rule) {rules rules' : List Rule}
      (h : Inserted new rules rules') :
      Inserted new (.directive head (some rules) :: after) (.directive head (some rules') :: after)

/-- The query is one of the calls, or what is left of one. -/
def MixinCall.Asks (calls : List MixinCall) (q : Selector) : Prop :=
  ∃ c ∈ calls, ∃ skipped, q = c.selector.rest skipped

theorem MixinCall.Asks.rest {calls : List MixinCall} {q : Selector} (skipped : Nat)
    (h : Asks calls q) : Asks calls (q.rest skipped) := by
  obtain ⟨c, hc, skipped', rfl⟩ := h
  exact ⟨c, hc, skipped' + skipped, by simp [Selector.rest, Selector.derive, List.drop_drop]⟩

/-- The number that a ruleset has once there are `count` more, which are numbered from `first`
on. -/
def numberPast (first count n : Nat) : Nat := if n < first then n else n + count

theorem numberPast_injective (first count : Nat) : Function.Injective (numberPast first count) := by
  intro a b hab
  unfold numberPast at hab
  split at hab <;> split at hab <;> omega

/-- The same compilation without some rulesets: there are `count` of them, and they would be
numbered from `first` on. -/
def Comparison.leavingOut (calls : List MixinCall) (first count limit : Nat) : Comparison where
  asks := MixinCall.Asks calls
  asks_rest := MixinCall.Asks.rest
  number := numberPast first count
  injective := numberPast_injective first count
  limit := limit
  limit' := limit
  limit_le := Nat.le_refl limit

instance (calls : List MixinCall) (first count limit : Nat) :
    (Comparison.leavingOut calls first count limit).Total := ⟨fun _ => trivial, fun _ h => h⟩

variable {calls : List MixinCall} {first count limit : Nat} {rule rule' : Rule}
variable {signature : Signature} {body rules rules' : List Rule}

namespace Comparison

theorem asks_leavingOut {c : MixinCall} (hc : c ∈ calls) :
    (leavingOut calls first count limit).asks c.selector := ⟨c, hc, 0, rfl⟩

theorem number_leavingOut_of_lt {n : Nat} (h : n < first) :
    (leavingOut calls first count limit).number n = n := if_pos h

theorem number_leavingOut_of_le {n : Nat} (h : first ≤ n) :
    (leavingOut calls first count limit).number n = n + count := if_neg (Nat.not_lt.2 h)

end Comparison

/-- A definition whose name no call matches is unused. -/
theorem Node.unused_leavingOut
    (h : ∀ c ∈ calls, ∀ skipped, (c.selector.rest skipped).matchLength signature.name = 0)
    (nodes : List Node) :
    (Node.definition ⟨signature, nodes, none⟩).Unused (.leavingOut calls first count limit) := by
  refine ⟨trivial, _, rfl, ?_⟩
  rintro _ ⟨c, hc, skipped, rfl⟩
  simp [Selector.firstMatch?, h c hc skipped]

/-- All rules after the rule that something was put into are numbered higher. -/
theorem Node.trimsAll_cons_leavingOut {next : Nat} (after : List Rule)
    (hcalls : ∀ c ∈ Rule.allCalls after, c ∈ calls)
    (hrulesets : rule'.rulesets = rule.rulesets + count) (hfirst : first ≤ next + rule.rulesets)
    (hrule : Node.TrimsTo (.leavingOut calls first count limit) ((Node.ofRule rule').run next).1
      ((Node.ofRule rule).run next).1) :
    Node.TrimsAll (.leavingOut calls first count limit)
      ((Node.ofRules (rule' :: after)).run next).1 ((Node.ofRules (rule :: after)).run next).1 := by
  rw [Node.run_ofRules_cons, Node.run_ofRules_cons]
  refine .both hrule (Node.trimsAll_ofRules after ?_ _ _ fun k _ => ?_)
  · exact fun c hc => Comparison.asks_leavingOut (hcalls c hc)
  · rw [Comparison.number_leavingOut_of_le (by omega), hrulesets]
    omega

namespace Rule.Inserted

theorem allRulesets_eq (h : Inserted (.definition signature body) rules rules') :
    allRulesets rules' = allRulesets rules + allRulesets body := by
  induction h with
  | here rules => rw [allRulesets, rulesets, Nat.add_comm]
  | later rule _ ih => rw [allRulesets, allRulesets, ih, Nat.add_assoc]
  | ruleset _ after _ ih | definition _ after _ ih | media _ after _ ih | directive _ after _ ih =>
    rw [allRulesets, allRulesets, rulesets, rulesets, ih]
    omega

/-- The numbered rules are those with the definition, without it. -/
theorem trims (h : Inserted (.definition signature body) rules rules')
    (hcalls : ∀ c ∈ allCalls rules, c ∈ calls)
    (hunused : ∀ c ∈ calls, ∀ skipped, (c.selector.rest skipped).matchLength signature.name = 0)
    (limit next : Nat) :
    ∃ first, next ≤ first ∧ first ≤ next + allRulesets rules ∧
      Node.TrimsAll (.leavingOut calls first (allRulesets body) limit)
        ((Node.ofRules rules').run next).1 ((Node.ofRules rules).run next).1 := by
  induction h generalizing next with
  | here rules =>
    refine ⟨next, Nat.le_refl _, Nat.le_add_right _ _, ?_⟩
    rw [Node.run_ofRules_cons]
    refine .spare (Node.unused_leavingOut hunused _)
      (Node.trimsAll_ofRules rules ?_ _ _ fun k _ => ?_)
    · exact fun c hc => Comparison.asks_leavingOut (hcalls c hc)
    · rw [Comparison.number_leavingOut_of_le (by omega), rulesets]
      omega
  | @later rule rules rules' h ih =>
    obtain ⟨hrule, hrules⟩ := List.forall_mem_append.1 hcalls
    obtain ⟨first, hle, hge, hnodes⟩ := ih hrules (next + rule.rulesets)
    refine ⟨first, by omega, by rw [allRulesets]; omega, ?_⟩
    rw [Node.run_ofRules_cons, Node.run_ofRules_cons]
    refine .both (Node.trimsTo_ofRule rule ?_ _ _ fun k hk => ?_) hnodes
    · exact fun c hc => Comparison.asks_leavingOut (hrule c hc)
    · exact Comparison.number_leavingOut_of_lt (by omega)
  | @ruleset header after rules rules' h ih =>
    obtain ⟨hrules, hafter⟩ := List.forall_mem_append.1 hcalls
    obtain ⟨first, hle, hge, hnodes⟩ := ih hrules (next + 1)
    have hrulesets := h.allRulesets_eq
    refine ⟨first, by omega, by rw [allRulesets, rulesets]; omega, ?_⟩
    refine Node.trimsAll_cons_leavingOut after hafter ?_ ?_ ?_
    · rw [rulesets, rulesets]
      omega
    · rw [rulesets]
      omega
    · exact .ruleset (fun _ _ h => h)
        ⟨rfl, (Comparison.number_leavingOut_of_lt hle).symm, trivial, rfl, hnodes⟩
  | definition signature after h ih =>
    obtain ⟨hrules, hafter⟩ := List.forall_mem_append.1 hcalls
    obtain ⟨first, hle, hge, hnodes⟩ := ih hrules next
    refine ⟨first, hle, by rw [allRulesets, rulesets]; omega, ?_⟩
    exact Node.trimsAll_cons_leavingOut after hafter h.allRulesets_eq hge
      (.definition (fun _ _ h => h) rfl hnodes .none)
  | media head after h ih =>
    obtain ⟨hrules, hafter⟩ := List.forall_mem_append.1 hcalls
    obtain ⟨first, hle, hge, hnodes⟩ := ih hrules next
    refine ⟨first, hle, by rw [allRulesets, rulesets]; omega, ?_⟩
    exact Node.trimsAll_cons_leavingOut after hafter h.allRulesets_eq hge
      (.media (fun _ _ h => h) hnodes)
  | directive head after h ih =>
    obtain ⟨hrules, hafter⟩ := List.forall_mem_append.1 hcalls
    obtain ⟨first, hle, hge, hnodes⟩ := ih hrules next
    refine ⟨first, hle, by rw [allRulesets, rulesets]; omega, ?_⟩
    exact Node.trimsAll_cons_leavingOut after hafter h.allRulesets_eq hge
      (.directiveBlock (fun _ _ h => h) hnodes)

end Rule.Inserted

/-- A mixin that is not used makes no difference. Put anywhere into the rules of a style sheet, at
any depth, a definition whose name matches no call and nothing that is left of one changes neither
the text nor the error, whatever its parameters and rules are. -/
theorem compileToCss_insert_unused {sources : Option Sources}
    (hinserted : Rule.Inserted (.definition signature body) rules rules')
    (hunused : ∀ c ∈ Rule.callsWith sources rules, ∀ skipped,
      (c.selector.rest skipped).matchLength signature.name = 0) (options : Options) :
    compileToCss rules' options sources = compileToCss rules options sources := by
  obtain ⟨first, -, hfirst, hrules⟩ := hinserted.trims
    (fun c hc => List.mem_append_left _ hc) hunused options.maxMixinDepth 0
  have hsources : ∀ table, sources = some table → ∀ entry ∈ table, ∀ c ∈ Rule.allCalls entry.2,
      (Comparison.leavingOut (Rule.callsWith sources rules) first (Rule.allRulesets body)
        options.maxMixinDepth).asks c.selector := by
    rintro table rfl entry hentry c hc
    exact Comparison.asks_leavingOut
      (List.mem_append_right _ (List.mem_flatMap.2 ⟨entry, hentry, hc⟩))
  have hnext : (Comparison.leavingOut (Rule.callsWith sources rules) first (Rule.allRulesets body)
      options.maxMixinDepth).Next (Rule.allRulesets rules') (Rule.allRulesets rules) := by
    intro k
    rw [Comparison.number_leavingOut_of_le (by omega), hinserted.allRulesets_eq]
    omega
  obtain hsame | ⟨hlt, -⟩ :=
    compileToCss_of_trims options options rfl rfl rfl rfl hsources hnext hrules
  · exact hsame.symm
  · exact absurd hlt (Nat.lt_irrefl _)

/-- A mixin that cannot even be expanded, with a ruleset, a call to a missing mixin and a variable
without a value, stands in a media block in the rules of a mixin that is used. -/
theorem compileToCss_insert_unused_in_mixin :
    let selector (name : String) : Selector := { elements := [{ value := name }] }
    let inner : Rule := .ruleset { selectors := [selector ".x"] }
      [.declaration { name := "top", value := .read "0" }]
    let unused : Rule := .definition { name := selector ".unused", params := [{ name := "@p" }] }
      [.ruleset { selectors := [selector ".y"] }
        [.call { selector := selector ".missing" },
          .declaration { name := "w", value := .read "@missing" }]]
    let document (content : List Rule) : List Rule := [
      .definition { name := selector ".m" } [.media { features := "print" } content],
      .ruleset { selectors := [selector ".a"] } [.call { selector := selector ".m" }]]
    compileToCss (document [inner]) { compress := true } none =
        .ok "@media print\x7b.a .x\x7btop:0\x7d\x7d" ∧
      compileToCss (document [unused, inner]) { compress := true } none =
        .ok "@media print\x7b.a .x\x7btop:0\x7d\x7d" := by
  intro selector inner unused document
  have htext : compileToCss (document [inner]) { compress := true } none =
      .ok "@media print\x7b.a .x\x7btop:0\x7d\x7d" := by decide +kernel
  have hinserted : Rule.Inserted unused (document [inner]) (document [unused, inner]) :=
    .definition _ _ (.media _ _ (.here _))
  refine ⟨htext, (compileToCss_insert_unused hinserted ?_ { compress := true }).trans htext⟩
  intro c hc skipped
  obtain rfl := List.mem_singleton.1 hc
  cases skipped with
  | zero => decide
  | succ skipped => simp [Selector.rest, Selector.matchLength, selector]

end Stylesheet
