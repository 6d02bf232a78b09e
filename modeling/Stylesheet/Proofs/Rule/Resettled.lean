import Stylesheet.Proofs.Rule.Literal
import Stylesheet.Proofs.Rule.Settled

/-!
# Literal rules that are settled again

Literal rules are settled in one way only, and what they are settled to is literal. Where they
have no media blocks, settling them once more changes nothing. A media block however keeps the
wrappers that it has and is given new ones, so the rules then hold more rulesets than before.

Rulesets and media blocks are counted together, with a weight for each kind. All that bubbling does
to such a count is to change the weight of the media blocks.
-/

namespace Stylesheet

namespace Rule

section Weights

mutual

/-- The number of rulesets and media blocks in a rule, each kind with its weight. Mixin definitions
count as nothing. -/
def weight (ruleset media : Nat) : Rule → Nat
  | .ruleset _ rules => weights ruleset media rules + ruleset
  | .media _ rules => weights ruleset media rules + media
  | .directive _ (some rules) => weights ruleset media rules
  | _ => 0

/-- The number of rulesets and media blocks in some rules, each kind with its weight. -/
def weights (ruleset media : Nat) : List Rule → Nat
  | [] => 0
  | rule :: rules => weight ruleset media rule + weights ruleset media rules

end

/-- The number of media blocks in some rules. -/
def mediaCount (rules : List Rule) : Nat := weights 0 1 rules

theorem mediaCount_cons_eq_zero_iff {rule : Rule} {rules : List Rule} :
    mediaCount (rule :: rules) = 0 ↔ weight 0 1 rule = 0 ∧ mediaCount rules = 0 := by
  rw [mediaCount, weights, Nat.add_eq_zero_iff]
  rfl

mutual

/-- Without media blocks there is nothing to bubble. -/
theorem bubble_of_no_media {selectors : List Selector} : ∀ {rule : Rule},
    weight 0 1 rule = 0 → bubble selectors rule = rule
  | .ruleset header _, h => congrArg (Rule.ruleset header) (bubbleAll_of_no_media h)
  | .media _ _, h => absurd h (Nat.succ_ne_zero _)
  | .directive head (some _), h =>
    congrArg (fun rules => Rule.directive head (some rules)) (bubbleAll_of_no_media h)
  | .declaration _, _ | .definition .., _ | .call _, _ | .inclusion _, _ | .comment _, _
  | .directive _ none, _ => rfl

theorem bubbleAll_of_no_media {selectors : List Selector} : ∀ {rules : List Rule},
    mediaCount rules = 0 → bubbleAll selectors rules = rules
  | [], _ => rfl
  | rule :: rules, h => by
    obtain ⟨hrule, hrules⟩ := mediaCount_cons_eq_zero_iff.1 h
    rw [bubbleAll, bubble_of_no_media hrule, bubbleAll_of_no_media hrules]

end

variable {r m : Nat}

mutual

theorem weight_add (r m r' m' : Nat) : ∀ rule : Rule,
    weight (r + r') (m + m') rule = weight r m rule + weight r' m' rule
  | .ruleset _ rules | .media _ rules => by
    rw [weight, weight, weight, weights_add r m r' m' rules]
    omega
  | .directive _ (some rules) => weights_add r m r' m' rules
  | .declaration _ | .definition .. | .call _ | .inclusion _ | .comment _ | .directive _ none => rfl

theorem weights_add (r m r' m' : Nat) : ∀ rules : List Rule,
    weights (r + r') (m + m') rules = weights r m rules + weights r' m' rules
  | [] => rfl
  | rule :: rules => by
    rw [weights, weights, weights, weight_add r m r' m' rule, weights_add r m r' m' rules]
    omega

end

mutual

/-- Bubbling adds a ruleset to every media block. -/
theorem weight_bubble (selectors : List Selector) : ∀ rule : Rule,
    weight r m (bubble selectors rule) = weight r (m + r) rule
  | .ruleset _ rules => congrArg (· + r) (weights_bubbleAll selectors rules)
  | .media _ rules => by
    rw [bubble, weight, weights, weight, weights, weight, weights_bubbleAll selectors rules]
    omega
  | .directive _ (some rules) => weights_bubbleAll selectors rules
  | .declaration _ | .definition .. | .call _ | .inclusion _ | .comment _ | .directive _ none => rfl

theorem weights_bubbleAll (selectors : List Selector) : ∀ rules : List Rule,
    weights r m (bubbleAll selectors rules) = weights r (m + r) rules
  | [] => rfl
  | rule :: rules => by
    rw [bubbleAll, weights, weights, weight_bubble selectors rule,
      weights_bubbleAll selectors rules]

end

mutual

theorem weight_markImportant : ∀ rule : Rule, weight r m rule.markImportant = weight r m rule
  | .ruleset _ rules => congrArg (· + r) (weights_markAllImportant rules)
  | .media _ rules => congrArg (· + m) (weights_markAllImportant rules)
  | .directive _ (some rules) => weights_markAllImportant rules
  | .declaration _ | .definition .. | .call _ | .inclusion _ | .comment _ | .directive _ none => rfl

theorem weights_markAllImportant : ∀ rules : List Rule,
    weights r m (markAllImportant rules) = weights r m rules
  | [] => rfl
  | rule :: rules => by
    rw [markAllImportant, weights, weights, weight_markImportant rule,
      weights_markAllImportant rules]

end

mutual

/-- Joining gives paths to rulesets, and adds none. -/
theorem weight_join : ∀ (rule : Rule) {context : List Path} {joined : Rule},
    join context rule = .ok joined → weight r m joined = weight r m rule
  | .ruleset _ rules, _, _, h => by
    obtain ⟨_, _, _, -, hrules, rfl⟩ := join_ruleset_eq_ok_iff.1 h
    exact congrArg (· + r) (weights_joinAll rules hrules)
  | .media _ rules, _, _, h => by
    obtain ⟨_, hrules, rfl⟩ := join_media_eq_ok_iff.1 h
    exact congrArg (· + m) (weights_joinAll rules hrules)
  | .directive _ (some rules), _, _, h => by
    obtain ⟨_, hrules, rfl⟩ := join_directive_eq_ok_iff.1 h
    exact weights_joinAll rules hrules
  | .declaration _, _, _, h | .definition .., _, _, h | .call _, _, _, h | .inclusion _, _, _, h
  | .comment _, _, _, h | .directive _ none, _, _, h => by
    obtain ⟨⟩ := h
    rfl

theorem weights_joinAll : ∀ (rules : List Rule) {context : List Path} {joined : List Rule},
    joinAll context rules = .ok joined → weights r m joined = weights r m rules
  | [], _, _, h => by
    obtain ⟨⟩ := h
    rfl
  | rule :: rules, _, _, h => by
    obtain ⟨_, _, hrule, hrules, rfl⟩ := joinAll_cons_eq_ok_iff.1 h
    rw [weights, weights, weight_join rule hrule, weights_joinAll rules hrules]

end

theorem weights_wrapAll (chain : List (List Selector)) (rules : List Rule) :
    weights r m (wrapAll chain rules) = weights r m rules + chain.length * r := by
  induction chain with
  | nil => rw [wrapAll, List.length_nil, Nat.zero_mul, Nat.add_zero]
  | cons selectors chain ih =>
    rw [wrapAll, weights, weight, weights, ih, List.length_cons, Nat.add_mul]
    omega

/-- Settling may add rulesets, and nothing else. -/
theorem Settled.exists_weights {chain : List (List Selector)} {rules settled : List Rule}
    (h : Settled chain rules settled) :
    ∃ added, ∀ r m, weights r m settled = weights r m rules + added * r := by
  induction h with
  | nil => exact ⟨0, fun r m => by rw [Nat.zero_mul]; rfl⟩
  | declaration _ _ _ ih =>
    obtain ⟨added, hadded⟩ := ih
    refine ⟨added, fun r m => ?_⟩
    rw [weights, weights, hadded, ← Nat.add_assoc]
    rfl
  | definition _ _ _ ih | comment _ _ ih | directive _ _ ih =>
    obtain ⟨added, hadded⟩ := ih
    refine ⟨added, fun r m => ?_⟩
    rw [weights, weights, hadded, Nat.add_assoc]
  | ruleset _ _ _ _ ihbody ih | directiveBlock _ _ _ ihbody ih =>
    obtain ⟨inside, hinside⟩ := ihbody
    obtain ⟨added, hadded⟩ := ih
    refine ⟨inside + added, fun r m => ?_⟩
    rw [weights, weights, weight, weight, hinside, hadded, Nat.add_mul]
    omega
  | @media chain _ _ _ _ _ _ _ ihbody ih =>
    obtain ⟨inside, hinside⟩ := ihbody
    obtain ⟨added, hadded⟩ := ih
    refine ⟨inside + chain.length + added, fun r m => ?_⟩
    rw [weights, weights, weight, weight, weights_wrapAll, hinside, hadded, Nat.add_mul,
      Nat.add_mul]
    omega

theorem Settled.mediaCount_eq {chain : List (List Selector)} {rules settled : List Rule}
    (h : Settled chain rules settled) : mediaCount settled = mediaCount rules := by
  obtain ⟨added, hadded⟩ := h.exists_weights
  rw [mediaCount, hadded, Nat.mul_zero]
  rfl

theorem Settled.weights_le {chain : List (List Selector)} {rules settled : List Rule}
    (h : Settled chain rules settled) (r m : Nat) : weights r m rules ≤ weights r m settled := by
  obtain ⟨added, hadded⟩ := h.exists_weights
  rw [hadded]
  exact Nat.le_add_right _ _

end Weights

section Literal

variable {chain : List (List Selector)} {rules settled settled' : List Rule}

mutual

theorem IsLiteral.standsAlone : ∀ {rule : Rule}, rule.IsLiteral → rule.standsAlone = true
  | .ruleset _ _, h => AllLiteral.allStandAlone h.2
  | .media _ _, h | .directive _ (some _), h => AllLiteral.allStandAlone h
  | .declaration _, _ | .comment _, _ | .directive _ none, _ => rfl

theorem AllLiteral.allStandAlone : ∀ {rules : List Rule}, AllLiteral rules →
    allStandAlone rules = true
  | [], _ => rfl
  | _ :: _, h => by
    rw [Rule.allStandAlone, h.1.standsAlone, h.2.allStandAlone, Bool.and_self]

end

theorem AllLiteral.wrapAll (hrules : AllLiteral rules)
    (hchain : ∀ selectors ∈ chain, ∀ σ ∈ selectors, σ.IsLiteral ∧ σ.elements ≠ []) :
    AllLiteral (wrapAll chain rules) := by
  induction chain with
  | nil => exact hrules
  | cons selectors chain ih =>
    obtain ⟨hselectors, hchain⟩ := List.forall_mem_cons.1 hchain
    exact ⟨⟨hselectors, ih hchain⟩, trivial⟩

mutual

theorem IsLiteral.bubble {selectors : List Selector}
    (hselectors : ∀ σ ∈ selectors, σ.IsLiteral ∧ σ.elements ≠ []) :
    ∀ {rule : Rule}, rule.IsLiteral → (rule.bubble selectors).IsLiteral
  | .ruleset _ _, h => ⟨h.1, AllLiteral.bubbleAll hselectors h.2⟩
  | .media _ _, h => ⟨⟨hselectors, AllLiteral.bubbleAll hselectors h⟩, trivial⟩
  | .directive _ (some _), h => AllLiteral.bubbleAll hselectors h
  | .declaration _, h => h
  | .comment _, _ | .directive _ none, _ => trivial

theorem AllLiteral.bubbleAll {selectors : List Selector}
    (hselectors : ∀ σ ∈ selectors, σ.IsLiteral ∧ σ.elements ≠ []) :
    ∀ {rules : List Rule}, AllLiteral rules → AllLiteral (bubbleAll selectors rules)
  | [], _ => trivial
  | _ :: _, h => ⟨h.1.bubble hselectors, h.2.bubbleAll hselectors⟩

end

mutual

theorem IsLiteral.markImportant : ∀ {rule : Rule}, rule.IsLiteral → rule.markImportant.IsLiteral
  | .ruleset _ _, h => ⟨h.1, AllLiteral.markAllImportant h.2⟩
  | .media _ _, h | .directive _ (some _), h => AllLiteral.markAllImportant h
  | .declaration _, h => h
  | .comment _, _ | .directive _ none, _ => trivial

theorem AllLiteral.markAllImportant : ∀ {rules : List Rule}, AllLiteral rules →
    AllLiteral (markAllImportant rules)
  | [], _ => trivial
  | _ :: _, h => ⟨h.1.markImportant, h.2.markAllImportant⟩

end

/-- Literal rules are settled in one way only. -/
theorem Settled.unique (h : Settled chain rules settled) (h' : Settled chain rules settled')
    (hliteral : AllLiteral rules) : settled' = settled := by
  induction h generalizing settled' with
  | nil =>
    cases h'
    rfl
  | declaration sc hvalue _ ih =>
    obtain ⟨⟨-, hresolved⟩, hrest⟩ := hliteral
    cases h' with
    | declaration sc' hvalue' hrest' =>
      rw [Scope.declaration_of_isResolved _ hresolved] at hvalue hvalue'
      cases hvalue
      cases hvalue'
      rw [ih hrest' hrest]
  | ruleset sc hselectors _ _ ihbody ih =>
    obtain ⟨⟨hheader, hbody⟩, hrest⟩ := hliteral
    cases h' with
    | ruleset sc' hselectors' hbody' hrest' =>
      rw [mapM_selector_of_isLiteral _ fun σ hσ => (hheader σ hσ).1] at hselectors hselectors'
      cases hselectors
      cases hselectors'
      rw [ihbody hbody' hbody, ih hrest' hrest]
  | definition => exact hliteral.1.elim
  | comment c _ ih =>
    cases h' with
    | comment _ hrest' => rw [ih hrest' hliteral.2]
  | media head _ _ ihbody ih =>
    cases h' with
    | media _ hbody' hrest' => rw [ihbody hbody' hliteral.1, ih hrest' hliteral.2]
  | directive head _ ih =>
    cases h' with
    | directive _ hrest' => rw [ih hrest' hliteral.2]
  | directiveBlock head _ _ ihbody ih =>
    cases h' with
    | directiveBlock _ hbody' hrest' => rw [ihbody hbody' hliteral.1, ih hrest' hliteral.2]

/-- What literal rules are settled to is literal. -/
theorem Settled.allLiteral (h : Settled chain rules settled) (hliteral : AllLiteral rules)
    (hchain : ∀ selectors ∈ chain, ∀ σ ∈ selectors, σ.IsLiteral ∧ σ.elements ≠ []) :
    AllLiteral settled := by
  induction h with
  | nil => trivial
  | declaration sc hvalue _ ih =>
    obtain ⟨hd, hrest⟩ := hliteral
    rw [sc.declaration_of_isResolved hd.2] at hvalue
    cases hvalue
    exact ⟨hd, ih hrest hchain⟩
  | @ruleset chain _ _ _ _ header selectors sc hselectors _ _ ihbody ih =>
    obtain ⟨⟨hheader, hbody⟩, hrest⟩ := hliteral
    rw [mapM_selector_of_isLiteral _ fun σ hσ => (hheader σ hσ).1] at hselectors
    cases hselectors
    have hevaluated : ∀ σ ∈ header.selectors.map Selector.evaluate,
        σ.IsLiteral ∧ σ.elements ≠ [] := List.forall_mem_map.2 hheader
    refine ⟨⟨hevaluated, ihbody hbody ?_⟩, ih hrest hchain⟩
    refine List.forall_mem_append.2 ⟨hchain, ?_⟩
    unfold link
    split
    · exact List.forall_mem_nil _
    · exact List.forall_mem_singleton.2 hevaluated
  | definition => exact hliteral.1.elim
  | comment _ _ ih | directive _ _ ih => exact ⟨trivial, ih hliteral.2 hchain⟩
  | media head _ _ ihbody ih =>
    exact ⟨(ihbody hliteral.1 hchain).wrapAll hchain, ih hliteral.2 hchain⟩
  | directiveBlock head _ _ ihbody ih => exact ⟨ihbody hliteral.1 hchain, ih hliteral.2 hchain⟩

/-- Literal rules without media blocks that were settled are settled already. -/
theorem Settled.again (h : Settled chain rules settled) (hliteral : AllLiteral rules)
    (hmedia : mediaCount rules = 0) : Settled chain settled settled := by
  induction h with
  | nil => exact .nil
  | declaration sc hvalue _ ih =>
    obtain ⟨⟨-, hresolved⟩, hrest⟩ := hliteral
    rw [sc.declaration_of_isResolved hresolved] at hvalue
    cases hvalue
    exact .declaration sc (sc.declaration_of_isResolved hresolved)
      (ih hrest (mediaCount_cons_eq_zero_iff.1 hmedia).2)
  | @ruleset _ _ _ _ _ header _ sc hselectors _ _ ihbody ih =>
    obtain ⟨⟨hheader, hbody⟩, hrest⟩ := hliteral
    obtain ⟨hnone, hmore⟩ := mediaCount_cons_eq_zero_iff.1 hmedia
    rw [mapM_selector_of_isLiteral _ fun σ hσ => (hheader σ hσ).1] at hselectors
    cases hselectors
    have hevaluated : (header.selectors.map Selector.evaluate).mapM sc.selector =
        .ok (header.selectors.map Selector.evaluate) := by
      have hliteral : ∀ σ ∈ header.selectors.map Selector.evaluate, σ.IsLiteral :=
        List.forall_mem_map.2 fun σ hσ => (hheader σ hσ).1
      rw [mapM_selector_of_isLiteral _ hliteral, List.map_map]
      rfl
    exact .ruleset sc hevaluated (ihbody hbody hnone) (ih hrest hmore)
  | definition => exact hliteral.1.elim
  | comment c _ ih => exact .comment c (ih hliteral.2 (mediaCount_cons_eq_zero_iff.1 hmedia).2)
  | media => exact absurd (mediaCount_cons_eq_zero_iff.1 hmedia).1 (Nat.succ_ne_zero _)
  | directive head _ ih =>
    exact .directive head (ih hliteral.2 (mediaCount_cons_eq_zero_iff.1 hmedia).2)
  | directiveBlock head _ _ ihbody ih =>
    obtain ⟨hnone, hmore⟩ := mediaCount_cons_eq_zero_iff.1 hmedia
    exact .directiveBlock head (ihbody hliteral.1 hnone) (ih hliteral.2 hmore)

end Literal

section Expansions

/-- The rules that a call expands to, which are marked if the call is important. -/
def expanded (important : Bool) (rules : List Rule) : List Rule :=
  if important then markAllImportant rules else rules

theorem weights_expanded {r m : Nat} (important : Bool) (rules : List Rule) :
    weights r m (expanded important rules) = weights r m rules := by
  cases important with
  | false => rfl
  | true => exact weights_markAllImportant rules

theorem AllLiteral.expanded {rules : List Rule} (h : AllLiteral rules) (important : Bool) :
    AllLiteral (expanded important rules) := by
  cases important with
  | false => exact h
  | true => exact h.markAllImportant

theorem weight_of_join_expanded {r m : Nat} {header : Header} {selectors : List Selector}
    {important : Bool} {rules : List Rule} {context : List Path} {joined : Rule}
    (h : join context (.ruleset header (bubbleAll selectors (expanded important rules))) =
      .ok joined) : weight r m joined = weights r (m + r) rules + r := by
  rw [weight_join _ h, weight, weights_bubbleAll, weights_expanded]

/-- A call of literal rules comes to the same whether they were settled before in a ruleset of
their own, or are settled only for the call, exactly if they have no media blocks. -/
theorem join_expanded_again_iff {own selectors : List Selector}
    {source once twice direct : List Rule} {header : Header} {important : Bool}
    {context : List Path} {joined joined' : Rule}
    (hliteral : AllLiteral source) (honce : Settled [own] source once)
    (htwice : Settled [] once twice) (hdirect : Settled [] source direct)
    (hjoined : join context (.ruleset header (bubbleAll selectors (expanded important twice))) =
      .ok joined)
    (hjoined' : join context (.ruleset header (bubbleAll selectors (expanded important direct))) =
      .ok joined') : joined = joined' ↔ mediaCount source = 0 := by
  have hown : once = bubbleAll own direct := (hdirect.bubbleAll own).unique honce hliteral
  constructor
  · rintro rfl
    -- Each media block has one wrapper more after the second time.
    have hagain : weight 1 0 joined = weights 1 1 twice + 1 := weight_of_join_expanded hjoined
    have hfirst : weight 1 0 joined = weights 1 1 direct + 1 := weight_of_join_expanded hjoined'
    have hmore : weights 1 1 once ≤ weights 1 1 twice := htwice.weights_le 1 1
    have hwrapped : weights 1 1 once = weights 1 1 direct + mediaCount direct := by
      rw [hown, weights_bubbleAll]
      exact weights_add 1 1 0 1 direct
    have hsame := hdirect.mediaCount_eq
    omega
  · intro hmedia
    have hnone : mediaCount direct = 0 := hdirect.mediaCount_eq.trans hmedia
    have hliteral' := hdirect.allLiteral hliteral (List.forall_mem_nil _)
    rw [hown, bubbleAll_of_no_media hnone] at htwice
    rw [(hdirect.again hliteral hmedia).unique htwice hliteral', hjoined'] at hjoined
    exact (Except.ok.inj hjoined).symm

end Expansions

end Rule

end Stylesheet
