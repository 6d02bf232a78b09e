import Stylesheet.Proofs.Compile.Lookup
import Stylesheet.Proofs.Selector.Readback

/-!
# Lookups without memory

What a query finds is a function of the query and the rules alone, and of the query
only as far as its text tells it. A lookup that keeps answers gives the same, provided
that the kept answers are right and that the rulesets it passes are known by their
numbers: two of them with one number have the same rules.

The number is all that kept answers are filed under, so the rules of each number that is
in use are given as a function. It is the ledger below.
-/

namespace Stylesheet

mutual

/-- What a query finds at a node. -/
def Node.search (query : Selector) : Node → List Candidate
  | .ruleset ⟨serial, source, header, rules⟩ =>
    match query.firstMatch? header.selectors with
    | none => []
    | some count =>
      if count < query.elements.length then Node.searchAll (query.rest count) rules
      else [.ruleset ⟨serial, source, header, rules⟩]
  | .definition ⟨signature, rules, closure⟩ =>
    match query.firstMatch? [signature.name] with
    | none => []
    | some count =>
      if count < query.elements.length then Node.searchAll (query.rest count) rules
      else [.definition ⟨signature, rules, closure⟩]
  | _ => []

/-- What a query finds among some nodes, in their order. -/
def Node.searchAll (query : Selector) : List Node → List Candidate
  | [] => []
  | node :: nodes => node.search query ++ Node.searchAll query nodes

end

namespace Selector

/-- The queries differ at most in a blank in front. -/
def SameQuery (p q : Selector) : Prop := leading p.elements = leading q.elements

namespace SameQuery

variable {p q : Selector}

theorem values_eq (h : p.SameQuery q) :
    p.elements.head?.map Element.value = q.elements.head?.map Element.value ∧
      p.elements.tail = q.elements.tail := by
  unfold SameQuery at h
  cases hp : p.elements with
  | nil =>
    rw [hp] at h
    rw [leading_eq_nil_iff.1 h.symm]
    exact ⟨rfl, rfl⟩
  | cons e es =>
    cases hq : q.elements with
    | nil =>
      rw [hp, hq] at h
      cases h
    | cons f fs =>
      rw [hp, hq] at h
      simp only [leading, List.cons.injEq, Element.mk.injEq] at h
      exact ⟨congrArg some h.1.2, h.2⟩

theorem length_eq (h : p.SameQuery q) : p.elements.length = q.elements.length := by
  obtain ⟨hhead, htail⟩ := h.values_eq
  cases hp : p.elements <;> cases hq : q.elements <;> simp_all

theorem drop_eq (h : p.SameQuery q) {count : Nat} (hcount : count ≠ 0) :
    p.elements.drop count = q.elements.drop count := by
  obtain ⟨count, rfl⟩ := Nat.exists_eq_succ_of_ne_zero hcount
  rw [← List.drop_tail, ← List.drop_tail, h.values_eq.2]

theorem rest (h : p.SameQuery q) {count : Nat} (hcount : count ≠ 0) :
    (p.rest count).SameQuery (q.rest count) :=
  congrArg leading (h.drop_eq hcount)

theorem matchLength_eq (h : p.SameQuery q) : p.matchLength = q.matchLength := by
  funext own
  obtain ⟨hhead, htail⟩ := h.values_eq
  unfold matchLength
  cases hp : p.elements with
  | nil =>
    cases hq : q.elements with
    | nil => rfl
    | cons f fs =>
      rw [hp, hq] at hhead
      cases hhead
  | cons e es =>
    cases hq : q.elements with
    | nil =>
      rw [hp, hq] at hhead
      cases hhead
    | cons f fs =>
      rw [hp, hq] at hhead htail
      cases own.elements with
      | nil => rfl
      | cons o os => simp_all

theorem firstMatch?_eq (h : p.SameQuery q) (selectors : List Selector) :
    p.firstMatch? selectors = q.firstMatch? selectors := by
  rw [firstMatch?, h.matchLength_eq, firstMatch?]

end SameQuery

theorem firstMatch?_ne_zero {query : Selector} {selectors : List Selector} {count : Nat}
    (h : query.firstMatch? selectors = some count) : count ≠ 0 := by
  simpa using List.find?_some h

end Selector

/-- What is found depends on a query only up to a blank in front of it. -/
theorem search_congr :
    (∀ (p : Selector) (n : Node) (q : Selector), p.SameQuery q → n.search p = n.search q) ∧
    ∀ (p : Selector) (nodes : List Node) (q : Selector), p.SameQuery q →
      Node.searchAll p nodes = Node.searchAll q nodes := by
  apply Node.search.mutual_induct
  case case1 =>
    intro p serial source header rules hmatch q h
    simp only [Node.search, ← h.firstMatch?_eq, hmatch]
  case case2 =>
    intro p serial source header rules count hmatch hcount ih q h
    have hrest := ih _ (h.rest (Selector.firstMatch?_ne_zero hmatch))
    simp only [Node.search, ← h.firstMatch?_eq, hmatch, ← h.length_eq, hcount, if_true, hrest]
  case case3 =>
    intro p serial source header rules count hmatch hcount q h
    simp only [Node.search, ← h.firstMatch?_eq, hmatch, ← h.length_eq, hcount, if_false]
  case case4 =>
    intro p signature rules closure hmatch q h
    simp only [Node.search, ← h.firstMatch?_eq, hmatch]
  case case5 =>
    intro p signature rules closure count hmatch hcount ih q h
    have hrest := ih _ (h.rest (Selector.firstMatch?_ne_zero hmatch))
    simp only [Node.search, ← h.firstMatch?_eq, hmatch, ← h.length_eq, hcount, if_true, hrest]
  case case6 =>
    intro p signature rules closure count hmatch hcount q h
    simp only [Node.search, ← h.firstMatch?_eq, hmatch, ← h.length_eq, hcount, if_false]
  case case7 =>
    intro n p hruleset hdefinition q h
    cases n with
    | ruleset r => exact (hruleset r.serial r.source r.header r.rules (by cases r; rfl)).elim
    | definition d => exact (hdefinition d.signature d.rules d.closure (by cases d; rfl)).elim
    | _ => rfl
  case case8 =>
    intro p q h
    rfl
  case case9 =>
    intro p n nodes hn hnodes q h
    rw [Node.searchAll, Node.searchAll, hn q h, hnodes q h]

/-- The property holds of every ruleset that a lookup can come to from the node. -/
inductive Node.Each (p : Ruleset → Prop) : Node → Prop
  | ruleset {r : Ruleset} (h : p r) (hrules : ∀ n ∈ r.rules, Each p n) : Each p (.ruleset r)
  | definition {d : Definition} (hrules : ∀ n ∈ d.rules, Each p n) : Each p (.definition d)
  | other {n : Node} (h : n.candidate? = none) : Each p n

theorem Node.Each.mono {p q : Ruleset → Prop} {n : Node} (h : n.Each p) (hpq : ∀ r, p r → q r) :
    n.Each q := by
  induction h with
  | ruleset h _ ih => exact .ruleset (hpq _ h) ih
  | definition _ ih => exact .definition ih
  | other h => exact .other h

/-- The rules of the ruleset are those that the ledger has for its number. -/
def Ruleset.Filed (ledger : Nat → Option (List Node)) (r : Ruleset) : Prop :=
  ledger r.serial = some r.rules

/-- Every kept answer is what the query finds in the rules that the ledger has for the number, for
every query that it is an answer to. -/
def Store.Remembers (ledger : Nat → Option (List Node)) (s : Store) : Prop :=
  ∀ serial key found, s.remembered? serial key = some found →
    ∃ rules, ledger serial = some rules ∧
      ∀ query : Selector, query.IsQuery → query.text = key → found = Node.searchAll query rules

namespace Store

variable {ledger : Nat → Option (List Node)} {s : Store}

theorem remembers_of_memo_nil (h : s.memo = []) : s.Remembers ledger := by
  intro serial key found hfound
  rw [remembered?, h] at hfound
  cases hfound

theorem Remembers.record (h : s.Remembers ledger) (e : Event) : (s.record e).Remembers ledger := h

/-- A right answer may be kept: it is right for every query with the same text. -/
theorem Remembers.remember (h : s.Remembers ledger) {serial : Nat} {rules : List Node}
    (hserial : ledger serial = some rules) {query : Selector} (hquery : query.IsQuery) :
    (s.remember serial query.text (Node.searchAll query rules)).Remembers ledger := by
  intro serial' key found hfound
  rw [remembered?, Store.remember, List.lookup_cons] at hfound
  split at hfound
  next hsame =>
    obtain ⟨rfl, rfl⟩ : serial' = serial ∧ key = query.text := by simpa using hsame
    obtain rfl := Option.some.inj hfound
    refine ⟨rules, hserial, fun query' hquery' hkey => ?_⟩
    exact search_congr.2 _ _ _ (hquery.leading_eq_of_text_eq hquery' hkey.symm)
  next => exact h serial' key found hfound

end Store

/-- From every store with right answers on, the lookup finds the given candidates and leaves right
answers. -/
def FindsAll (ledger : Nat → Option (List Node)) (x : StateM Store (List Candidate))
    (found : List Candidate) : Prop :=
  ∀ s : Store, s.Remembers ledger → (x.run s).1 = found ∧ (x.run s).2.Remembers ledger

namespace FindsAll

variable {ledger : Nat → Option (List Node)} {query : Selector}

theorem pure (found : List Candidate) : FindsAll ledger (Pure.pure found) found :=
  fun _ hs => ⟨rfl, hs⟩

/-- A ruleset answers from memory or from its rules, which is the same. -/
theorem ruleset {r : Ruleset} (hquery : query.IsQuery) (hr : r.Filed ledger)
    (h : FindsAll ledger (Node.findAll none query r.rules) (Node.searchAll query r.rules)) :
    FindsAll ledger (r.find none query) (Node.searchAll query r.rules) := by
  intro s hs
  cases hfound : s.remembered? r.serial query.text with
  | some found =>
    rw [run_find_of_remembered hfound]
    obtain ⟨rules, hrules, heq⟩ := hs _ _ _ hfound
    obtain rfl : r.rules = rules := Option.some.inj (hr.symm.trans hrules)
    exact ⟨heq query hquery rfl, hs.record _⟩
  | none =>
    rw [run_find_of_not_remembered hfound]
    obtain ⟨heq, hstore⟩ := h _ (hs.record (.lookupMiss query.text))
    have hkept := hstore.remember hr hquery
    refine ⟨heq, ?_⟩
    dsimp only
    rwa [heq]

theorem cons {n : Node} {nodes : List Node}
    (hn : FindsAll ledger (n.find none query) (n.search query))
    (hnodes : FindsAll ledger (Node.findAll none query nodes) (Node.searchAll query nodes)) :
    FindsAll ledger (Node.findAll none query (n :: nodes)) (Node.searchAll query (n :: nodes)) := by
  intro s hs
  obtain ⟨hfirst, hs'⟩ := hn s hs
  obtain ⟨hrest, hs''⟩ := hnodes _ hs'
  rw [Node.findAll, Node.searchAll]
  refine ⟨?_, hs''⟩
  rw [← hfirst, ← hrest]
  rfl

end FindsAll

/-- A lookup gives what the search gives. -/
theorem findsAll_all (ledger : Nat → Option (List Node)) :
    (∀ (query : Selector) (n : Node), query.IsQuery → n.Each (Ruleset.Filed ledger) →
      FindsAll ledger (n.find none query) (n.search query)) ∧
    (∀ (query : Selector) (d : Definition), query.IsQuery →
      (∀ n ∈ d.rules, n.Each (Ruleset.Filed ledger)) →
      FindsAll ledger (d.find none query) (Node.searchAll query d.rules)) ∧
    (∀ (query : Selector) (nodes : List Node), query.IsQuery →
      (∀ n ∈ nodes, n.Each (Ruleset.Filed ledger)) →
      FindsAll ledger (Node.findAll none query nodes) (Node.searchAll query nodes)) ∧
    ∀ (query : Selector) (r : Ruleset), query.IsQuery → r.Filed ledger →
      (∀ n ∈ r.rules, n.Each (Ruleset.Filed ledger)) →
      FindsAll ledger (r.find none query) (Node.searchAll query r.rules) := by
  apply Node.find.mutual_induct none
  case case1 =>
    intro query r hexcluded
    cases hexcluded
  case case2 =>
    intro query r hexcluded hmatch hquery hr
    obtain ⟨serial, source, header, rules⟩ := r
    simp only [Node.find, hexcluded, if_false, hmatch, Node.search]
    exact .pure []
  case case3 =>
    intro query r hexcluded count hmatch hcount ih hquery hr
    obtain ⟨serial, source, header, rules⟩ := r
    simp only [Node.find, hexcluded, if_false, hmatch, Node.search, hcount, if_true]
    cases hr with
    | ruleset h hrules => exact ih (hquery.drop count) h hrules
    | other h => cases h
  case case4 =>
    intro query r hexcluded count hmatch hcount hquery hr
    obtain ⟨serial, source, header, rules⟩ := r
    simp only [Node.find, hexcluded, if_false, hmatch, Node.search, hcount]
    exact .pure _
  case case5 =>
    intro query d hmatch hquery hd
    obtain ⟨signature, rules, closure⟩ := d
    simp only [Node.find, hmatch, Node.search]
    exact .pure []
  case case6 =>
    intro query d count hmatch hcount ih hquery hd
    obtain ⟨signature, rules, closure⟩ := d
    simp only [Node.find, hmatch, hcount, if_true, Node.search]
    cases hd with
    | definition hrules => exact ih (hquery.drop count) hrules
    | other h => cases h
  case case7 =>
    intro query d count hmatch hcount hquery hd
    obtain ⟨signature, rules, closure⟩ := d
    simp only [Node.find, hmatch, hcount, if_false, Node.search]
    exact .pure _
  case case8 =>
    intro n query hruleset hdefinition hquery hn
    cases n with
    | ruleset r => exact (hruleset r rfl).elim
    | definition d => exact (hdefinition d rfl).elim
    | _ => exact .pure []
  case case9 =>
    intro query serial source header rules ih hquery hr hrules
    exact .ruleset hquery hr (ih hquery hrules)
  case case10 =>
    intro query signature rules closure ih hquery hrules
    exact ih hquery hrules
  case case11 =>
    intro query hquery hnil
    exact .pure []
  case case12 =>
    intro query n nodes hn hnodes hquery hall
    exact .cons (hn hquery (hall n (by simp))) (hnodes hquery fun m hm => hall m (by simp [hm]))

/-- What a query finds in the innermost of some frames that has anything for it. -/
def searchFrames (query : Selector) : List Ruleset → Option (List Candidate)
  | [] => none
  | frame :: frames =>
    if (Node.searchAll query frame.rules).isEmpty then searchFrames query frames
    else some (Node.searchAll query frame.rules)

/-- A lookup in frames that are in the ledger gives what the search gives. -/
theorem run_findInFrames {ledger : Nat → Option (List Node)} {query : Selector}
    (hquery : query.IsQuery) {frames : List Ruleset}
    (hframes : ∀ frame ∈ frames, frame.Filed ledger ∧
      ∀ n ∈ frame.rules, n.Each (Ruleset.Filed ledger))
    {s : Store} (hs : s.Remembers ledger) :
    ((findInFrames query frames).run s).1 = searchFrames query frames ∧
      ((findInFrames query frames).run s).2.Remembers ledger := by
  induction frames generalizing s with
  | nil => exact ⟨rfl, hs⟩
  | cons frame frames ih =>
    obtain ⟨hframe, hrest⟩ := List.forall_mem_cons.1 hframes
    obtain ⟨hfound, hkept⟩ :=
      (findsAll_all ledger).2.2.2 query frame hquery hframe.1 hframe.2 s hs
    rw [findInFrames, run_bind_eq, searchFrames, hfound]
    split
    · exact ih hrest hkept
    · exact ⟨rfl, hkept⟩

end Stylesheet
