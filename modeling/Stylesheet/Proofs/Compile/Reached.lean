import Stylesheet.Proofs.Compile.Memory

/-!
# What a query reaches

A query reaches a ruleset or a mixin definition through a chain of nested rules: its
elements are cut into segments, one for each member of the chain, and each segment is
spelled by a selector of that member. Which of the selectors may be taken is left open.
If it is any of them, this is what a namespaced call means. A lookup takes the first
one that leads what is left of the query, and no other.

So all that is found is reached. All that is reached is found wherever the selectors
of each ruleset agree on how much of a query they take up. Where a shorter selector
stands before a longer one that it leads, what only the longer one reaches is missed.
-/

namespace Stylesheet

/-- The segment consists of the elements of the selector, except that the first combinator may be
another one. -/
def Selector.Spells (s : Selector) (segment : List Element) : Prop :=
  ∃ c e es, s.elements = e :: es ∧ segment = { e with combinator := c } :: es

/-- Which selectors of a list may take up a segment of a query that the rest follows. -/
abbrev Choice := List Selector → List Element → List Element → Prop

/-- Any of the selectors takes up the segment. -/
def Choice.any : Choice := fun selectors segment _ => ∃ s ∈ selectors, s.Spells segment

/-- The first of the selectors that leads the query takes up the segment. -/
def Choice.first : Choice := fun selectors segment rest =>
  ∃ before s after, selectors = before ++ s :: after ∧ s.Spells segment ∧
    ∀ t ∈ before, ∀ front back, segment ++ rest = front ++ back → ¬t.Spells front

/-- The elements lead to the candidate, through nested rulesets and mixin definitions of which each
takes up a segment. -/
inductive Reaches (takes : Choice) : List Node → List Element → Candidate → Prop
  | here {nodes : List Node} {n : Node} {c : Candidate} {segment : List Element}
      (hn : n ∈ nodes) (hc : n.candidate? = some c) (h : takes c.selectors segment []) :
      Reaches takes nodes segment c
  | inside {nodes : List Node} {n : Node} {c d : Candidate} {segment rest : List Element}
      (hn : n ∈ nodes) (hc : n.candidate? = some c) (h : takes c.selectors segment rest)
      (hd : Reaches takes c.rules rest d) : Reaches takes nodes (segment ++ rest) d

namespace Selector

variable {query s : Selector} {selectors : List Selector} {segment rest : List Element}

theorem Spells.length_eq (h : s.Spells segment) : segment.length = s.elements.length := by
  obtain ⟨c, e, es, hs, rfl⟩ := h
  rw [hs]
  rfl

theorem Spells.ne_nil (h : s.Spells segment) : segment ≠ [] := by
  obtain ⟨c, e, es, -, rfl⟩ := h
  simp

/-- A selector that spells the start of a query matches it to that length. -/
theorem Spells.matchLength_eq (h : s.Spells segment) (hquery : query.elements = segment ++ rest) :
    query.matchLength s = segment.length := by
  obtain ⟨c, e, es, hs, rfl⟩ := h
  rw [matchLength, hquery, hs]
  simp

/-- A selector that matches a query spells its start. -/
theorem exists_spells (h : query.matchLength s ≠ 0) :
    ∃ segment rest, query.elements = segment ++ rest ∧ s.Spells segment := by
  unfold matchLength at h
  split at h
  next q qs e es hq hs =>
    split at h
    next hlead =>
      obtain ⟨hvalue, rest, hrest⟩ := hlead
      exact ⟨q :: es, rest, by rw [hq, ← hrest]; rfl, q.combinator, e, es, hs, by rw [← hvalue]⟩
    next => exact (h rfl).elim
  next => exact (h rfl).elim

theorem matchLength_eq_zero_iff :
    query.matchLength s = 0 ↔
      ∀ segment rest, query.elements = segment ++ rest → ¬s.Spells segment := by
  constructor
  · intro hzero segment rest hquery hspells
    rw [hspells.matchLength_eq hquery] at hzero
    exact hspells.ne_nil (List.length_eq_zero_iff.1 hzero)
  · intro h
    by_contra hmatch
    obtain ⟨segment, rest, hquery, hspells⟩ := exists_spells hmatch
    exact h segment rest hquery hspells

theorem firstMatch?_eq_none_iff :
    query.firstMatch? selectors = none ↔
      ∀ s ∈ selectors, ∀ segment rest, query.elements = segment ++ rest → ¬s.Spells segment := by
  simp only [firstMatch?, List.find?_eq_none, List.forall_mem_map, ← matchLength_eq_zero_iff]
  simp

/-- The first match is that of the first selector that leads the query. -/
theorem firstMatch?_of_first (h : Choice.first selectors segment rest)
    (hquery : query.elements = segment ++ rest) :
    query.firstMatch? selectors = some segment.length := by
  obtain ⟨before, s, after, rfl, hs, hbefore⟩ := h
  have hnone : query.firstMatch? before = none := by
    refine firstMatch?_eq_none_iff.2 ?_
    intro t ht front back hsplit
    exact hbefore t ht front back (hquery.symm.trans hsplit)
  have hsome : query.matchLength s ≠ 0 := by
    rw [hs.matchLength_eq hquery]
    simpa using hs.ne_nil
  unfold firstMatch? at hnone ⊢
  rw [List.map_append, List.find?_append, hnone, List.map_cons,
    List.find?_cons_of_pos (by simpa using hsome), hs.matchLength_eq hquery]
  rfl

theorem exists_first {count : Nat} (h : query.firstMatch? selectors = some count) :
    ∃ segment rest, query.elements = segment ++ rest ∧ segment.length = count ∧
      Choice.first selectors segment rest := by
  obtain ⟨hcount, before, after, hsplit, hbefore⟩ := List.find?_eq_some_iff_append.1 h
  obtain ⟨front, more, rfl, rfl, hmore⟩ := List.map_eq_append_iff.1 hsplit
  obtain ⟨s, back, rfl, rfl, rfl⟩ := List.map_eq_cons_iff.1 hmore
  obtain ⟨segment, rest, hquery, hspells⟩ := exists_spells (by simpa using hcount)
  refine ⟨segment, rest, hquery, (hspells.matchLength_eq hquery).symm, front, s, back, rfl, hspells,
    ?_⟩
  intro t ht start tail heq
  have hzero : query.matchLength t = 0 := by
    simpa using hbefore _ (List.mem_map_of_mem ht)
  exact matchLength_eq_zero_iff.1 hzero start tail (hquery.trans heq)

end Selector

namespace Reaches

variable {takes takes' : Choice} {nodes : List Node} {elements : List Element} {c : Candidate}

/-- What is reached is a member of the list, or is reached through one. -/
theorem iff_exists :
    Reaches takes nodes elements c ↔
      ∃ n ∈ nodes, ∃ d, n.candidate? = some d ∧
        ((takes d.selectors elements [] ∧ c = d) ∨
          ∃ segment rest, elements = segment ++ rest ∧ takes d.selectors segment rest ∧
            Reaches takes d.rules rest c) := by
  constructor
  · rintro (⟨hn, hc, h⟩ | ⟨hn, hc, h, hd⟩)
    · exact ⟨_, hn, _, hc, .inl ⟨h, rfl⟩⟩
    · exact ⟨_, hn, _, hc, .inr ⟨_, _, rfl, h, hd⟩⟩
  · rintro ⟨n, hn, d, hd, ⟨h, rfl⟩ | ⟨segment, rest, rfl, h, hrest⟩⟩
    · exact .here hn hd h
    · exact .inside hn hd h hrest

theorem mono (htakes : ∀ selectors segment rest, takes selectors segment rest →
    takes' selectors segment rest) (h : Reaches takes nodes elements c) :
    Reaches takes' nodes elements c := by
  induction h with
  | here hn hc h => exact .here hn hc (htakes _ _ _ h)
  | inside hn hc h _ ih => exact .inside hn hc (htakes _ _ _ h) ih

theorem cons_iff {n : Node} :
    Reaches takes (n :: nodes) elements c ↔
      Reaches takes [n] elements c ∨ Reaches takes nodes elements c := by
  constructor
  · intro h
    obtain ⟨m, hm, hrest⟩ := iff_exists.1 h
    rcases List.mem_cons.1 hm with rfl | hm
    · exact .inl (iff_exists.2 ⟨m, by simp, hrest⟩)
    · exact .inr (iff_exists.2 ⟨m, hm, hrest⟩)
  · rintro (h | h)
    · obtain ⟨m, hm, hrest⟩ := iff_exists.1 h
      exact iff_exists.2 ⟨m, List.mem_cons.2 (.inl (List.mem_singleton.1 hm)), hrest⟩
    · obtain ⟨m, hm, hrest⟩ := iff_exists.1 h
      exact iff_exists.2 ⟨m, List.mem_cons_of_mem n hm, hrest⟩

theorem singleton_iff {n : Node} {d : Candidate} (hd : n.candidate? = some d) :
    Reaches takes [n] elements c ↔
      (takes d.selectors elements [] ∧ c = d) ∨
        ∃ segment rest, elements = segment ++ rest ∧ takes d.selectors segment rest ∧
          Reaches takes d.rules rest c := by
  rw [iff_exists]
  constructor
  · rintro ⟨m, hm, e, he, h⟩
    obtain rfl := List.mem_singleton.1 hm
    obtain rfl : e = d := Option.some.inj (he.symm.trans hd)
    exact h
  · exact fun h => ⟨n, by simp, d, hd, h⟩

theorem elements_ne_nil (h : Reaches .any nodes elements c) : elements ≠ [] := by
  cases h with
  | here _ _ h =>
    obtain ⟨s, -, hs⟩ := h
    exact hs.ne_nil
  | inside _ _ h _ =>
    obtain ⟨s, -, hs⟩ := h
    simp [hs.ne_nil]

end Reaches

theorem Choice.any_of_first {selectors : List Selector} {segment rest : List Element}
    (h : Choice.first selectors segment rest) : Choice.any selectors segment rest := by
  obtain ⟨before, s, after, rfl, hs, -⟩ := h
  exact ⟨s, by simp, hs⟩

/-- The first selector that leads a query takes up one segment of it. -/
theorem Choice.first_unique {selectors : List Selector} {segment rest segment' rest' : List Element}
    (h : Choice.first selectors segment rest) (h' : Choice.first selectors segment' rest')
    (heq : segment ++ rest = segment' ++ rest') : segment = segment' ∧ rest = rest' := by
  have hlength : (⟨segment ++ rest, false⟩ : Selector).firstMatch? selectors =
      some segment.length := Selector.firstMatch?_of_first h rfl
  rw [Selector.firstMatch?_of_first h' heq] at hlength
  exact List.append_inj heq (Option.some.inj hlength).symm

namespace Node

variable {n : Node} {d : Candidate} {query : Selector}

/-- A ruleset and a mixin definition are searched alike. -/
theorem search_eq (h : n.candidate? = some d) :
    n.search query = (query.firstMatch? d.selectors).elim [] fun count =>
      if count < query.elements.length then searchAll (query.rest count) d.rules else [d] := by
  cases n with
  | ruleset r =>
    obtain rfl := Option.some.inj h
    obtain ⟨serial, source, header, rules⟩ := r
    simp only [search, Candidate.selectors, Candidate.rules]
    cases query.firstMatch? header.selectors <;> rfl
  | definition e =>
    obtain rfl := Option.some.inj h
    obtain ⟨signature, rules, closure⟩ := e
    simp only [search, Candidate.selectors, Candidate.rules]
    cases query.firstMatch? [signature.name] <;> rfl
  | _ => cases h

/-- A node is searched as it is reached, if the rules inside are. -/
theorem mem_search_iff_of_inside (h : n.candidate? = some d)
    (hinside : ∀ (query : Selector) (c : Candidate),
      c ∈ searchAll query d.rules ↔ Reaches .first d.rules query.elements c)
    (query : Selector) (c : Candidate) :
    c ∈ n.search query ↔ Reaches .first [n] query.elements c := by
  rw [Reaches.singleton_iff h]
  cases hmatch : query.firstMatch? d.selectors with
  | none =>
    rw [search_eq h, hmatch, Option.elim_none]
    have hnot : ∀ segment rest, query.elements = segment ++ rest →
        ¬Choice.first d.selectors segment rest := by
      intro segment rest hquery hfirst
      rw [Selector.firstMatch?_of_first hfirst hquery] at hmatch
      cases hmatch
    constructor
    · intro hc
      cases hc
    · rintro (⟨hfirst, -⟩ | ⟨segment, rest, hquery, hfirst, -⟩)
      · exact (hnot _ [] (by simp) hfirst).elim
      · exact (hnot _ _ hquery hfirst).elim
  | some count =>
    obtain ⟨segment, rest, hquery, rfl, hfirst⟩ := Selector.exists_first hmatch
    rw [search_eq h, hmatch, Option.elim_some]
    have hrest : (query.rest segment.length).elements = rest := by
      rw [Selector.rest, Selector.elements_derive, hquery, List.drop_left]
    -- With nothing left of the query the node itself is found, else the search goes on inside.
    by_cases hnil : rest = []
    · subst hnil
      rw [List.append_nil] at hquery
      rw [if_neg (by simp [hquery]), List.mem_singleton, hquery]
      constructor
      · exact fun hc => .inl ⟨hfirst, hc⟩
      · rintro (⟨-, hc⟩ | ⟨segment', rest', heq, hfirst', hd⟩)
        · exact hc
        · obtain ⟨-, rfl⟩ := Choice.first_unique hfirst hfirst' (by simpa using heq)
          exact absurd rfl (hd.mono fun _ _ _ => Choice.any_of_first).elements_ne_nil
    · have hlt : segment.length < query.elements.length := by
        have := List.length_pos_iff.2 hnil
        rw [hquery, List.length_append]
        omega
      rw [if_pos hlt, hinside, hrest]
      constructor
      · exact fun hd => .inr ⟨segment, rest, hquery, hfirst, hd⟩
      · rintro (⟨hfirst', -⟩ | ⟨segment', rest', heq, hfirst', hd⟩)
        · rw [hquery] at hfirst'
          exact absurd (Choice.first_unique hfirst hfirst' (by simp)).2 hnil
        · obtain ⟨-, rfl⟩ := Choice.first_unique hfirst hfirst' (hquery.symm.trans heq)
          exact hd

mutual

theorem mem_search_iff : ∀ (n : Node) (query : Selector) (c : Candidate),
    c ∈ n.search query ↔ Reaches .first [n] query.elements c
  | .ruleset ⟨serial, source, header, rules⟩, query, c =>
    mem_search_iff_of_inside (d := .ruleset ⟨serial, source, header, rules⟩) rfl
      (mem_searchAll_iff rules) query c
  | .definition ⟨signature, rules, closure⟩, query, c =>
    mem_search_iff_of_inside (d := .definition ⟨signature, rules, closure⟩) rfl
      (mem_searchAll_iff rules) query c
  | .declaration _, _, _ | .call _, _, _ | .inclusion _, _, _ | .comment _, _, _ | .media .., _, _
  | .block _, _, _ | .directive .., _, _ => by
    rw [Reaches.iff_exists]
    simp [search, candidate?]

/-- A search without memory finds what the first selectors reach. -/
theorem mem_searchAll_iff : ∀ (nodes : List Node) (query : Selector) (c : Candidate),
    c ∈ searchAll query nodes ↔ Reaches .first nodes query.elements c
  | [], _, _ => by
    rw [Reaches.iff_exists]
    simp [searchAll]
  | n :: nodes, query, c => by
    rw [searchAll, List.mem_append, mem_search_iff n, mem_searchAll_iff nodes, ← Reaches.cons_iff]

end

end Node

/-- Wherever a query goes on, those of the selectors that lead it there take up the same segment. -/
def Unambiguous (elements : List Element) (selectors : List Selector) : Prop :=
  ∀ start segment rest segment' rest', elements = start ++ (segment ++ rest) →
    segment ++ rest = segment' ++ rest' →
      Choice.any selectors segment rest → Choice.any selectors segment' rest' → segment = segment'

namespace Unambiguous

variable {elements : List Element} {selectors : List Selector}

/-- Selectors with one number of elements are not ambiguous for any query. -/
theorem of_length_eq (elements : List Element)
    (h : ∀ s ∈ selectors, ∀ t ∈ selectors, s.elements.length = t.elements.length) :
    Unambiguous elements selectors := by
  rintro start segment rest segment' rest' - heq ⟨s, hs, hspells⟩ ⟨t, ht, hspells'⟩
  refine (List.append_inj heq ?_).1
  rw [hspells.length_eq, hspells'.length_eq, h s hs t ht]

/-- The first of the selectors takes up what any of them does. -/
theorem first_of_any (h : Unambiguous elements selectors) {start segment rest : List Element}
    (helements : elements = start ++ (segment ++ rest)) (hany : Choice.any selectors segment rest) :
    Choice.first selectors segment rest := by
  obtain ⟨s, hs, hspells⟩ := hany
  cases hmatch : (⟨segment ++ rest, false⟩ : Selector).firstMatch? selectors with
  | none => exact (Selector.firstMatch?_eq_none_iff.1 hmatch s hs segment rest rfl hspells).elim
  | some count =>
    obtain ⟨segment', rest', hsplit, -, hfirst⟩ := Selector.exists_first hmatch
    obtain rfl : segment = segment' :=
      h start segment rest segment' rest' helements hsplit ⟨s, hs, hspells⟩
        (Choice.any_of_first hfirst)
    obtain rfl : rest = rest' := List.append_cancel_left hsplit
    exact hfirst

end Unambiguous

/-- A mixin definition has one selector, which is not ambiguous. -/
theorem Node.Each.unambiguous {elements : List Element} {n : Node} {d : Candidate}
    (h : n.Each fun r => Unambiguous elements r.header.selectors) (hd : n.candidate? = some d) :
    Unambiguous elements d.selectors ∧
      ∀ m ∈ d.rules, m.Each fun r => Unambiguous elements r.header.selectors := by
  cases h with
  | ruleset hr hrules =>
    obtain rfl := Option.some.inj hd
    exact ⟨hr, hrules⟩
  | definition hrules =>
    obtain rfl := Option.some.inj hd
    refine ⟨.of_length_eq elements ?_, hrules⟩
    rintro s hs t ht
    rw [List.mem_singleton.1 hs, List.mem_singleton.1 ht]
  | other hnone =>
    rw [hnone] at hd
    cases hd

/-- Where selectors are not ambiguous, all that is reached is reached by first selectors. -/
theorem Reaches.first_of_any {elements start es : List Element} {nodes : List Node} {c : Candidate}
    (h : Reaches .any nodes es c) (helements : elements = start ++ es)
    (hnodes : ∀ n ∈ nodes, n.Each fun r => Unambiguous elements r.header.selectors) :
    Reaches .first nodes es c := by
  induction h generalizing start with
  | @here _ _ _ segment hn hd h =>
    have hend : elements = start ++ (segment ++ []) := by rw [helements, List.append_nil]
    exact .here hn hd (((hnodes _ hn).unambiguous hd).1.first_of_any hend h)
  | inside hn hd h _ ih =>
    obtain ⟨hown, hrules⟩ := (hnodes _ hn).unambiguous hd
    exact .inside hn hd (hown.first_of_any helements h)
      (ih (helements.trans (List.append_assoc ..).symm) hrules)

namespace Node

mutual

/-- The numbers of the rulesets that a lookup can come to from a node. -/
def serials : Node → List Nat
  | .ruleset ⟨serial, _, _, rules⟩ => serial :: allSerials rules
  | .definition ⟨_, rules, _⟩ => allSerials rules
  | _ => []

/-- The numbers of the rulesets that a lookup can come to from some nodes. -/
def allSerials : List Node → List Nat
  | [] => []
  | node :: nodes => serials node ++ allSerials nodes

end

end Node

/-- No answer is kept for the rulesets with the given numbers. -/
def Store.Unasked (s : Store) (serials : List Nat) : Prop :=
  ∀ serial ∈ serials, ∀ key, s.remembered? serial key = none

theorem Store.remembered?_remember_of_ne {serial serial' : Nat} (h : serial ≠ serial') (s : Store)
    (key key' : String) (found : List Candidate) :
    (s.remember serial' key' found).remembered? serial key = s.remembered? serial key := by
  have hother : ((serial, key) == (serial', key')) = false := by simp [h]
  unfold remembered? remember
  rw [List.lookup_cons, hother]

/-- From every store with no answers for the given numbers on, the lookup finds the given candidates
and keeps answers for those numbers only. -/
def FindsOnce (serials : List Nat) (x : StateM Store (List Candidate)) (found : List Candidate) :
    Prop :=
  ∀ s : Store, s.Unasked serials → (x.run s).1 = found ∧
    ∀ serial ∉ serials, ∀ key, (x.run s).2.remembered? serial key = s.remembered? serial key

namespace FindsOnce

variable {query : Selector}

theorem pure (serials : List Nat) (found : List Candidate) :
    FindsOnce serials (Pure.pure found) found := fun _ _ => ⟨rfl, fun _ _ _ => rfl⟩

theorem ite {p : Prop} [Decidable p] {serials : List Nat} {x y : StateM Store (List Candidate)}
    {found found' : List Candidate} (hx : FindsOnce serials x found)
    (hy : FindsOnce serials y found') :
    FindsOnce serials (if p then x else y) (if p then found else found') := by
  split
  · exact hx
  · exact hy

/-- A ruleset that was not asked yet is searched. -/
theorem ruleset {r : Ruleset} {serials : List Nat}
    (h : FindsOnce serials (Node.findAll none query r.rules) (Node.searchAll query r.rules)) :
    FindsOnce (r.serial :: serials) (r.find none query) (Node.searchAll query r.rules) := by
  intro s hs
  obtain ⟨hfound, hkept⟩ := h (s.record (.lookupMiss query.text))
    fun serial hserial => hs serial (List.mem_cons_of_mem _ hserial)
  rw [run_find_of_not_remembered (hs r.serial (List.mem_cons_self ..) query.text)]
  refine ⟨hfound, ?_⟩
  intro serial hserial key
  obtain ⟨hne, hmem⟩ := not_or.1 (mt List.mem_cons.2 hserial)
  exact (Store.remembered?_remember_of_ne hne ..).trans (hkept serial hmem key)

/-- Nodes that share no number with those before them are still to be asked. -/
theorem cons {n : Node} {nodes : List Node} {serials serials' : List Nat}
    (hdisjoint : ∀ serial ∈ serials', serial ∉ serials)
    (hn : FindsOnce serials (n.find none query) (n.search query))
    (hnodes : FindsOnce serials' (Node.findAll none query nodes) (Node.searchAll query nodes)) :
    FindsOnce (serials ++ serials') (Node.findAll none query (n :: nodes))
      (Node.searchAll query (n :: nodes)) := by
  intro s hs
  obtain ⟨hfirst, hkept⟩ := hn s fun serial hserial => hs serial (by simp [hserial])
  obtain ⟨hrest, hkept'⟩ := hnodes ((n.find none query).run s).2 fun serial hserial key => by
    rw [hkept serial (hdisjoint serial hserial)]
    exact hs serial (by simp [hserial]) key
  rw [Node.findAll, Node.searchAll]
  refine ⟨?_, ?_⟩
  · rw [← hfirst, ← hrest]
    rfl
  · intro serial hserial key
    rw [List.mem_append, not_or] at hserial
    exact (hkept' serial hserial.2 key).trans (hkept serial hserial.1 key)

end FindsOnce

namespace Node

mutual

theorem findsOnce_find : ∀ (n : Node) (query : Selector), n.serials.Nodup →
    FindsOnce n.serials (n.find none query) (n.search query)
  | .ruleset ⟨serial, source, header, rules⟩, query, h => by
    cases hmatch : query.firstMatch? header.selectors with
    | none =>
      simp only [find, search, reduceCtorEq, if_false, hmatch]
      exact .pure _ _
    | some count =>
      simp only [find, search, reduceCtorEq, if_false, hmatch]
      refine .ite ?_ (.pure _ _)
      exact .ruleset (r := ⟨serial, source, header, rules⟩)
        (findsOnce_findAll rules (query.rest count) (List.nodup_cons.1 h).2)
  | .definition ⟨signature, rules, closure⟩, query, h => by
    cases hmatch : query.firstMatch? [signature.name] with
    | none =>
      simp only [find, search, hmatch]
      exact .pure _ _
    | some count =>
      simp only [find, search, hmatch]
      exact .ite (findsOnce_findAll rules (query.rest count) h) (.pure _ _)
  | .declaration _, _, _ | .call _, _, _ | .inclusion _, _, _ | .comment _, _, _ | .media .., _, _
  | .block _, _, _ | .directive .., _, _ => .pure _ _

/-- Where no two rulesets have one number, a lookup with nothing remembered is a search. -/
theorem findsOnce_findAll : ∀ (nodes : List Node) (query : Selector), (allSerials nodes).Nodup →
    FindsOnce (allSerials nodes) (findAll none query nodes) (searchAll query nodes)
  | [], _, _ => .pure _ _
  | n :: nodes, query, h => by
    obtain ⟨hn, hnodes, hdisjoint⟩ := List.nodup_append.1 h
    exact .cons (fun serial hserial hmem => hdisjoint serial hmem serial hserial rfl)
      (findsOnce_find n query hn) (findsOnce_findAll nodes query hnodes)

end

end Node

/-- No two rulesets among the nodes have one number, or the query was read and rulesets with one
number have the same rules. Then no answer that is kept during a lookup is taken for another. -/
def KeptApart (query : Selector) (nodes : List Node) : Prop :=
  (Node.allSerials nodes).Nodup ∨
    query.IsQuery ∧ ∃ ledger, ∀ n ∈ nodes, n.Each (Ruleset.Filed ledger)

theorem KeptApart.anew_eq {query : Selector} {nodes : List Node} (h : KeptApart query nodes) :
    Use.anew query nodes = Node.searchAll query nodes := by
  rcases h with hnodup | ⟨hquery, ledger, hnodes⟩
  · exact (Node.findsOnce_findAll nodes query hnodup {} fun _ _ _ => rfl).1
  · exact anew_eq_searchAll hquery hnodes

/-- What a lookup finds, for every list of nodes and every query: exactly what is reached by first
selectors. All of it is reached. If no ruleset is ambiguous for the query, all that is reached is
found. -/
theorem mem_anew_iff_reaches (query : Selector) (nodes : List Node) (h : KeptApart query nodes) :
    (∀ c, c ∈ Use.anew query nodes ↔ Reaches .first nodes query.elements c) ∧
    (∀ c ∈ Use.anew query nodes, Reaches .any nodes query.elements c) ∧
    ((∀ n ∈ nodes, n.Each fun r => Unambiguous query.elements r.header.selectors) →
      ∀ c, c ∈ Use.anew query nodes ↔ Reaches .any nodes query.elements c) := by
  have hfirst : ∀ c, c ∈ Use.anew query nodes ↔ Reaches .first nodes query.elements c := by
    intro c
    rw [h.anew_eq, Node.mem_searchAll_iff]
  have hany : ∀ c ∈ Use.anew query nodes, Reaches .any nodes query.elements c :=
    fun c hc => ((hfirst c).1 hc).mono fun _ _ _ => Choice.any_of_first
  refine ⟨hfirst, hany, ?_⟩
  intro hnodes c
  exact ⟨hany c, fun hc => (hfirst c).2 (hc.first_of_any (List.nil_append _).symm hnodes)⟩

/-- A ruleset `.x, #ns` with a mixin `.m` in it, and a ruleset `.m` beside the mixin. -/
def sharedSpace : Ruleset where
  serial := 0
  source := none
  header := {
    selectors := [{ elements := [⟨.compound, ".x"⟩] }, { elements := [⟨.compound, "#ns"⟩] }] }
  rules := [.definition ⟨{ name := { elements := [⟨.compound, ".m"⟩] } }, [], none⟩,
    .ruleset ⟨1, none, { selectors := [{ elements := [⟨.compound, ".m"⟩] }] }, []⟩]

/-- Both are found by `#ns > .m`. -/
theorem mem_anew_iff_reaches_sharedSpace :
    let query : Selector := { elements := [⟨.compound, "#ns"⟩, ⟨.child, ".m"⟩] }
    (Use.anew query [.ruleset sharedSpace]).length = 2 ∧
      ∀ c, c ∈ Use.anew query [.ruleset sharedSpace] ↔
        Reaches .any [.ruleset sharedSpace] query.elements c := by
  refine ⟨rfl, (mem_anew_iff_reaches _ _ (.inl (by decide))).2.2 ?_⟩
  intro n hn
  obtain rfl := List.mem_singleton.1 hn
  refine .ruleset (.of_length_eq _ (by decide)) ?_
  intro m hm
  obtain rfl | rfl : m = _ ∨ m = _ := by simpa [sharedSpace] using hm
  · exact .definition fun k hk => by cases hk
  · exact .ruleset (.of_length_eq _ (by decide)) fun k hk => by cases hk

/-- In the list `.a, .a .b` the second selector is reached by a call of `.a .b`, and never tried. In
the list `.a .b, .a` it is found. -/
theorem mem_anew_shadowed :
    let short : Selector := { elements := [⟨.compound, ".a"⟩] }
    let long : Selector := { elements := [⟨.compound, ".a"⟩, ⟨.descendant, ".b"⟩] }
    let shadowed : Ruleset := ⟨0, none, { selectors := [short, long] }, []⟩
    let sheet (selectors : List Selector) : List Rule := [
      .ruleset { selectors } [.declaration { name := "color", value := .read "red" }],
      .ruleset { selectors := [{ elements := [⟨.compound, ".x"⟩] }] } [.call { selector := long }]]
    Reaches .any [.ruleset shadowed] long.elements (.ruleset shadowed) ∧
      Candidate.ruleset shadowed ∉ Use.anew long [.ruleset shadowed] ∧
      compileToCss (sheet [short, long]) {} none = .error (.mixinNotFound ".a .b" {}) ∧
      compileToCss (sheet [long, short]) {} none =
        .ok ".a .b,\n.a \x7b\n  color: red;\n\x7d\n.x \x7b\n  color: red;\n\x7d" := by
  intro short long shadowed sheet
  refine ⟨.here (List.mem_singleton_self _) rfl ⟨long, by simp [Candidate.selectors, shadowed], ?_⟩,
    ?_, by decide +kernel, by decide +kernel⟩
  · exact ⟨.compound, _, _, rfl, rfl⟩
  · have hnone : Use.anew long [.ruleset shadowed] = [] := rfl
    rw [hnone]
    exact List.not_mem_nil

end Stylesheet
