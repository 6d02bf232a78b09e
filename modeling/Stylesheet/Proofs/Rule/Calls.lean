import Stylesheet.Compile.Scope
import Stylesheet.Proofs.Rule.Decoded

/-!
# The mixin calls of a rule tree

The calls are collected at any depth. In a rule tree that was read, the selector of every
call was read from a text.
-/

namespace Stylesheet.Rule

mutual

/-- The mixin calls in a rule, at any depth. -/
def calls : Rule → List MixinCall
  | .call c => [c]
  | .ruleset _ rules | .definition _ rules | .media _ rules => allCalls rules
  | .directive _ (some rules) => allCalls rules
  | _ => []

/-- The mixin calls in some rules, at any depth. -/
def allCalls : List Rule → List MixinCall
  | [] => []
  | rule :: rules => calls rule ++ allCalls rules

end

/-- The mixin calls in some rules and in all sources. -/
def callsWith (sources : Option Sources) (rules : List Rule) : List MixinCall :=
  allCalls rules ++ (sources.getD []).flatMap fun entry => allCalls entry.2

theorem mem_allCalls {rules : List Rule} {c : MixinCall} :
    c ∈ allCalls rules ↔ ∃ rule ∈ rules, c ∈ rule.calls := by
  induction rules with
  | nil => simp [allCalls]
  | cons rule rules ih => simp [allCalls, ih]

/-- The selector of every call in the rule was read from a text. -/
def CallsRead (rule : Rule) : Prop :=
  ∀ c ∈ rule.calls, ∃ text, Selector.read text = .ok c.selector

theorem inherits_callsRead : Inherits CallsRead := by
  intro fields rules rule hrules h
  have hbody : ∀ body, rules.getD (.ok []) = .ok body →
      ∀ c ∈ allCalls body, ∃ text, Selector.read text = .ok c.selector := by
    intro body hbody c hc
    obtain ⟨r, hr, hc⟩ := mem_allCalls.1 hc
    exact hrules body hbody r hr c hc
  cases h with
  | call hcall =>
    intro c hc
    obtain rfl := List.mem_singleton.1 hc
    exact MixinCall.exists_read_of_ofFields hcall
  | ruleset _ h | definition _ h | media _ h | directiveBlock _ h => exact hbody _ h
  | _ => exact fun c hc => by cases hc

theorem callsRead_readList {json : Json} {rules : List Rule} (h : readList json = .ok rules) :
    ∀ rule ∈ rules, rule.CallsRead :=
  of_listOfJson inherits_callsRead false json rules h

/-- Where rules and sources were read, the selectors of all of their calls were. -/
theorem exists_read_of_mem_callsWith {sources : Option Sources} {rules : List Rule}
    (hrules : ∀ rule ∈ rules, rule.CallsRead)
    (hsources : ∀ table, sources = some table →
      ∀ entry ∈ table, ∀ rule ∈ entry.2, rule.CallsRead)
    {c : MixinCall} (hc : c ∈ callsWith sources rules) :
    ∃ text, Selector.read text = .ok c.selector := by
  rcases List.mem_append.1 hc with hc | hc
  · obtain ⟨rule, hrule, hc⟩ := mem_allCalls.1 hc
    exact hrules rule hrule c hc
  · obtain ⟨entry, hentry, hc⟩ := List.mem_flatMap.1 hc
    obtain ⟨rule, hrule, hc⟩ := mem_allCalls.1 hc
    cases hs : sources with
    | none =>
      rw [hs] at hentry
      cases hentry
    | some table =>
      rw [hs] at hentry
      exact hsources table hs entry hentry rule hrule c hc

end Stylesheet.Rule
