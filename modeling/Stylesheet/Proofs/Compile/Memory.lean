import Stylesheet.Proofs.Compile.Search

/-!
# Kept answers make no difference

A ruleset is used over and over: queries are looked up in it and in the rulesets inside
it, its rules are exchanged, and the answers that were kept for it are dropped. All the
while, each lookup gives what a search of the present rules gives in which nothing is
remembered. So the text that answers are kept under tells queries apart well enough.

A ruleset is told from others by its number alone. Hence the rulesets inside must be
numbered apart from the one around them, and those that share a number must share their
rules.
-/

namespace Stylesheet

/-- A use of a ruleset whose rules may be exchanged. -/
inductive Use where
  /-- Look a query up in the ruleset. -/
  | find (query : Selector)
  /-- Look a query up in another ruleset, such as one of those inside. -/
  | findIn (r : Ruleset) (query : Selector)
  /-- Exchange the rules, which drops the answers kept for the ruleset. -/
  | setRules (rules : List Node)
  /-- Drop the answers kept for the ruleset with the given number. -/
  | reset (serial : Nat)

namespace Use

/-- The ruleset after a use. -/
def after (root : Ruleset) : Use → Ruleset
  | .setRules rules => { root with rules }
  | _ => root

/-- The answer to a use, and the store after it. -/
def perform (root : Ruleset) (s : Store) : Use → List Candidate × Store
  | .find query => (root.find none query).run s
  | .findIn r query => (r.find none query).run s
  | .setRules _ => ([], s.forget root.serial)
  | .reset serial => ([], s.forget serial)

/-- The answers to one use after the other. -/
def answers (root : Ruleset) (s : Store) : List Use → List (List Candidate)
  | [] => []
  | use :: uses => (use.perform root s).1 :: answers (use.after root) (use.perform root s).2 uses

/-- What a search finds in some rules that starts with nothing remembered. -/
def anew (query : Selector) (rules : List Node) : List Candidate :=
  ((Node.findAll none query rules).run {}).1

/-- The answer to a use if nothing is remembered. -/
def expected (root : Ruleset) : Use → List Candidate
  | .find query => anew query root.rules
  | .findIn r query => anew query r.rules
  | .setRules _ | .reset _ => []

/-- The answers to one use after the other if nothing is ever remembered. -/
def expectedAll (root : Ruleset) : List Use → List (List Candidate)
  | [] => []
  | use :: uses => use.expected root :: expectedAll (use.after root) uses

end Use

/-- The ruleset has another number, and the rules that the ledger has for its own. -/
def Ruleset.Apart (ledger : Nat → List Node) (serial : Nat) (r : Ruleset) : Prop :=
  r.serial ≠ serial ∧ ledger r.serial = r.rules

/-- The queries of the use were read or are what is left of such, and the rulesets in it are
numbered apart from the one that is used. -/
def Use.Fair (ledger : Nat → List Node) (serial : Nat) : Use → Prop
  | .find query => query.IsQuery
  | .findIn r query => query.IsQuery ∧ (Node.ruleset r).Each (Ruleset.Apart ledger serial)
  | .setRules rules => ∀ n ∈ rules, n.Each (Ruleset.Apart ledger serial)
  | .reset _ => True

/-- The ledger with the present rules of the ruleset that is used. -/
def Ruleset.ledgerWith (root : Ruleset) (ledger : Nat → List Node) (serial : Nat) :
    Option (List Node) :=
  if serial = root.serial then some root.rules else some (ledger serial)

variable {ledger : Nat → List Node} {root r : Ruleset} {s : Store}

theorem Store.remembered?_forget (s : Store) (serial serial' : Nat) (key : String) :
    (s.forget serial).remembered? serial' key =
      if serial' = serial then none else s.remembered? serial' key := by
  unfold remembered? forget
  dsimp only
  induction s.memo with
  | nil => simp
  | cons entry memo ih =>
    obtain ⟨⟨number, text⟩, found⟩ := entry
    rw [List.lookup_cons]
    by_cases hnumber : number = serial
    · rw [List.filter_cons_of_neg (by simpa using hnumber), ih]
      split
      · rfl
      next hne =>
        have hother : ((serial', key) == (number, text)) = false := by simp [hnumber, hne]
        rw [hother]
    · rw [List.filter_cons_of_pos (by simpa using hnumber), List.lookup_cons, ih]
      split
      next hsame =>
        have hserial : serial' = number := by simp_all
        rw [if_neg (hserial ▸ hnumber)]
      next => rfl

theorem Ruleset.Apart.filed (h : r.Apart ledger root.serial) :
    r.Filed (root.ledgerWith ledger) := by
  rw [Filed, ledgerWith, if_neg h.1, h.2]

theorem Ruleset.filed_ledgerWith (root : Ruleset) (ledger : Nat → List Node) :
    root.Filed (root.ledgerWith ledger) := if_pos rfl

/-- Dropping answers leaves right answers. -/
theorem Store.Remembers.forget {ledger : Nat → Option (List Node)} (h : s.Remembers ledger)
    (serial : Nat) : (s.forget serial).Remembers ledger := by
  intro serial' key found hfound
  rw [Store.remembered?_forget] at hfound
  split at hfound
  · cases hfound
  · exact h serial' key found hfound

/-- Once its answers are dropped, the rules of the ruleset may be any. -/
theorem Store.Remembers.setRules (h : s.Remembers (root.ledgerWith ledger)) (rules : List Node) :
    (s.forget root.serial).Remembers ({ root with rules }.ledgerWith ledger) := by
  intro serial key found hfound
  rw [Store.remembered?_forget] at hfound
  split at hfound
  · cases hfound
  next hne =>
    have hright := h serial key found hfound
    rw [Ruleset.ledgerWith, if_neg hne] at hright ⊢
    exact hright

/-- A search with nothing remembered gives what the search without memory gives. -/
theorem anew_eq_searchAll {ledger : Nat → Option (List Node)} {query : Selector}
    {rules : List Node} (hquery : query.IsQuery)
    (hrules : ∀ n ∈ rules, n.Each (Ruleset.Filed ledger)) :
    Use.anew query rules = Node.searchAll query rules :=
  ((findsAll_all ledger).2.2.1 query rules hquery hrules {} (Store.remembers_of_memo_nil rfl)).1

/-- A ruleset that is in the ledger answers as expected, and the kept answers stay right. -/
theorem find_eq_anew {ledger : Nat → Option (List Node)} {query : Selector}
    (hs : s.Remembers ledger) (hquery : query.IsQuery)
    (hr : r.Filed ledger) (hrules : ∀ n ∈ r.rules, n.Each (Ruleset.Filed ledger)) :
    ((r.find none query).run s).1 = Use.anew query r.rules ∧
      ((r.find none query).run s).2.Remembers ledger := by
  rw [anew_eq_searchAll hquery hrules]
  exact (findsAll_all ledger).2.2.2 query r hquery hr hrules s hs

/-- What holds between two uses: the answers kept are right for the present rules, and the rulesets
in the rules are numbered apart. -/
structure Use.Inv (ledger : Nat → List Node) (root : Ruleset) (s : Store) : Prop where
  remembers : s.Remembers (root.ledgerWith ledger)
  apart : ∀ n ∈ root.rules, n.Each (Ruleset.Apart ledger root.serial)

namespace Use

theorem Inv.filed (h : Inv ledger root s) :
    ∀ n ∈ root.rules, n.Each (Ruleset.Filed (root.ledgerWith ledger)) :=
  fun n hn => (h.apart n hn).mono fun _ => Ruleset.Apart.filed

/-- One use gives what is expected and keeps the invariant. -/
theorem perform_eq_expected {use : Use} (h : Inv ledger root s)
    (huse : use.Fair ledger root.serial) :
    (use.perform root s).1 = use.expected root ∧
      Inv ledger (use.after root) (use.perform root s).2 := by
  cases use with
  | find query =>
    obtain ⟨hfound, hkept⟩ :=
      find_eq_anew h.remembers huse (root.filed_ledgerWith ledger) h.filed
    exact ⟨hfound, hkept, h.apart⟩
  | findIn r query =>
    obtain ⟨hquery, hr⟩ := huse
    cases hr.mono fun _ => Ruleset.Apart.filed with
    | ruleset hfiled hrules =>
      obtain ⟨hfound, hkept⟩ := find_eq_anew h.remembers hquery hfiled hrules
      exact ⟨hfound, hkept, h.apart⟩
    | other hnone => cases hnone
  | setRules rules => exact ⟨rfl, h.remembers.setRules rules, huse⟩
  | reset serial => exact ⟨rfl, h.remembers.forget serial, h.apart⟩

theorem serial_after (use : Use) (root : Ruleset) : (use.after root).serial = root.serial := by
  cases use <;> rfl

/-- Every run of uses gives what is expected. -/
theorem answers_eq_expectedAll {uses : List Use} (h : Inv ledger root s)
    (huses : ∀ use ∈ uses, use.Fair ledger root.serial) :
    answers root s uses = expectedAll root uses := by
  induction uses generalizing root s with
  | nil => rfl
  | cons use uses ih =>
    obtain ⟨hfirst, hinv⟩ := perform_eq_expected h (huses use (by simp))
    have hrest := ih hinv fun later hlater => by
      rw [serial_after]
      exact huses later (by simp [hlater])
    rw [answers, expectedAll, hfirst, hrest]

end Use

/-- Kept answers make no difference: whatever a ruleset is used for, each lookup in it and in the
rulesets inside it gives what a search of the present rules gives that starts with nothing
remembered. In particular, queries with one text have one answer. -/
theorem find_memo_transparent (ledger : Nat → List Node) (root : Ruleset) (s : Store)
    (hs : s.memo = []) (hroot : ∀ n ∈ root.rules, n.Each (Ruleset.Apart ledger root.serial))
    (uses : List Use) (huses : ∀ use ∈ uses, use.Fair ledger root.serial) :
    Use.answers root s uses = Use.expectedAll root uses ∧
      ∀ p q : Selector, p.IsQuery → q.IsQuery → p.text = q.text →
        Use.anew p root.rules = Use.anew q root.rules := by
  have hinv : Use.Inv ledger root s := ⟨Store.remembers_of_memo_nil hs, hroot⟩
  refine ⟨Use.answers_eq_expectedAll hinv huses, ?_⟩
  intro p q hp hq htext
  rw [anew_eq_searchAll hp hinv.filed, anew_eq_searchAll hq hinv.filed]
  exact search_congr.2 p root.rules q (hp.leading_eq_of_text_eq hq htext)

namespace Use

/-- The query `#ns > .m`. -/
def spacedQuery : Selector := { elements := [⟨.compound, "#ns"⟩, ⟨.child, ".m"⟩] }

/-- A namespace `#ns` with a mixin `.m` in it. -/
def space : Ruleset where
  serial := 1
  source := none
  header := { selectors := [{ elements := [⟨.compound, "#ns"⟩] }] }
  rules := [.definition ⟨{ name := { elements := [⟨.compound, ".m"⟩] } }, [], none⟩]

/-- A document with that namespace. -/
def spaced : Ruleset where
  serial := 0
  source := none
  header := Header.document
  rules := [.ruleset space]

/-- The namespace is asked through the document and by itself, before and after it is put into the
document a second time, and after it is taken out. -/
def spacedUses : List Use :=
  [.find spacedQuery, .findIn space (spacedQuery.rest 1), .find spacedQuery,
    .setRules [.ruleset space, .ruleset space], .find spacedQuery, .reset 1, .setRules [],
    .find spacedQuery]

end Use

theorem find_memo_transparent_spaced :
    Use.answers Use.spaced {} Use.spacedUses = Use.expectedAll Use.spaced Use.spacedUses ∧
      (Use.answers Use.spaced {} Use.spacedUses).map List.length = [1, 1, 1, 0, 2, 0, 0, 0] := by
  have hquery : Use.spacedQuery.IsQuery := ⟨"#ns > .m", Use.spacedQuery, 0, rfl, rfl⟩
  have hspace : (Node.ruleset Use.space).Each (Ruleset.Apart (fun _ => Use.space.rules) 0) := by
    refine .ruleset ⟨by decide, rfl⟩ ?_
    intro n hn
    obtain rfl := List.mem_singleton.1 hn
    exact .definition fun m hm => by cases hm
  have h := find_memo_transparent (fun _ => Use.space.rules) Use.spaced {} rfl
    (by simpa [Use.spaced] using hspace) Use.spacedUses (by
      intro use huse
      simp only [Use.spacedUses, List.mem_cons, List.not_mem_nil, or_false] at huse
      rcases huse with rfl | rfl | rfl | rfl | rfl | rfl | rfl | rfl
      · exact hquery
      · exact ⟨hquery.drop 1, hspace⟩
      · exact hquery
      · intro n hn
        obtain rfl : n = .ruleset Use.space := by simpa using hn
        exact hspace
      · exact hquery
      · trivial
      · intro n hn
        cases hn
      · exact hquery)
  exact ⟨h.1, rfl⟩

end Stylesheet
