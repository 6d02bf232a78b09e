import Stylesheet.Proofs.Compile.Reached

/-!
# Lookups that exclude a ruleset

A lookup may exclude a ruleset, which it then passes over. But answers are kept under the text of
the query alone. Where the text was asked before, the first answer is given again, with what it was
to exclude and without what an earlier lookup excluded.

So a ruleset that is excluded is not returned unless it was returned before, to a lookup that did
not exclude it.
-/

namespace Stylesheet

/-- A query, and the number of a ruleset that it must not find. -/
structure Lookup where
  query : Selector
  excluded : Option Nat := none

/-- The answers to lookups in one ruleset, one after the other. -/
def Ruleset.findEach (root : Ruleset) : List Lookup → StateM Store (List (List Candidate))
  | [] => pure []
  | lookup :: lookups => do
    let found ← root.find lookup.excluded lookup.query
    return found :: (← root.findEach lookups)

/-- No answer that is kept for the given numbers has the ruleset in it. -/
def Store.Lacks (s : Store) (x : Ruleset) (serials : List Nat) : Prop :=
  ∀ serial ∈ serials, ∀ key found, s.remembered? serial key = some found →
    Candidate.ruleset x ∉ found

variable {x : Ruleset} {serials : List Nat} {excluded : Option Nat} {query : Selector} {s : Store}

namespace Store

theorem Unasked.lacks (h : s.Unasked serials) (x : Ruleset) : s.Lacks x serials := by
  intro serial hserial key found hfound
  rw [h serial hserial key] at hfound
  cases hfound

theorem remembered?_record (s : Store) (e : Event) (serial : Nat) (key : String) :
    (s.record e).remembered? serial key = s.remembered? serial key := rfl

theorem remembered?_remember_self (s : Store) (serial : Nat) (key : String)
    (found : List Candidate) :
    (s.remember serial key found).remembered? serial key = some found := by
  simp [remembered?, remember]

theorem remembered?_remember_of_key_ne {key key' : String} (h : key ≠ key') (s : Store)
    (serial serial' : Nat) (found : List Candidate) :
    (s.remember serial' key' found).remembered? serial key = s.remembered? serial key := by
  have hother : ((serial, key) == (serial', key')) = false := by simp [h]
  unfold remembered? remember
  rw [List.lookup_cons, hother]

theorem Lacks.remember (h : s.Lacks x serials) {found : List Candidate}
    (hfound : Candidate.ruleset x ∉ found) (serial : Nat) (key : String) :
    (s.remember serial key found).Lacks x serials := by
  intro serial' hserial' key' found' hfound'
  rw [remembered?, Store.remember, List.lookup_cons] at hfound'
  split at hfound'
  · obtain rfl := Option.some.inj hfound'
    exact hfound
  · exact h serial' hserial' key' found' hfound'

end Store

/-- What a lookup gives and leaves: from a store without it, a ruleset is given only if it is not
excluded, and kept only if it is given. Answers are kept for the given numbers alone. -/
structure Spares (x : Ruleset) (serials : List Nat) (excluded : Option Nat) (s : Store)
    (result : List Candidate × Store) : Prop where
  given : s.Lacks x serials → excluded = some x.serial → Candidate.ruleset x ∉ result.1
  kept : s.Lacks x serials → Candidate.ruleset x ∉ result.1 → result.2.Lacks x serials
  others : ∀ serial ∉ serials, ∀ key, result.2.remembered? serial key = s.remembered? serial key

namespace Spares

theorem pure {found : List Candidate}
    (h : excluded = some x.serial → Candidate.ruleset x ∉ found) (s : Store) :
    Spares x serials excluded s ((Pure.pure found : StateM Store (List Candidate)).run s) :=
  ⟨fun _ => h, fun hs _ => hs, fun _ _ _ => rfl⟩

/-- The answer of a ruleset is kept for it as a whole. -/
theorem ruleset {r : Ruleset} (hr : r.serial ∈ serials)
    (h : ∀ s, Spares x serials excluded s ((Node.findAll excluded query r.rules).run s))
    (s : Store) : Spares x serials excluded s ((r.find excluded query).run s) := by
  cases hfound : s.remembered? r.serial query.text with
  | some found =>
    rw [run_find_of_remembered hfound]
    exact ⟨fun hs _ => hs _ hr _ _ hfound, fun hs _ => hs, fun _ _ _ => rfl⟩
  | none =>
    rw [run_find_of_not_remembered hfound]
    have hsearch := h (s.record (.lookupMiss query.text))
    refine ⟨hsearch.given, fun hs hx => (hsearch.kept hs hx).remember hx _ _, ?_⟩
    intro serial hserial key
    have hne : serial ≠ r.serial := fun heq => hserial (heq ▸ hr)
    exact (Store.remembered?_remember_of_ne hne _ _ _ _).trans (hsearch.others serial hserial key)

theorem cons {n : Node} {nodes : List Node}
    (hn : ∀ s, Spares x serials excluded s ((n.find excluded query).run s))
    (hnodes : ∀ s, Spares x serials excluded s ((Node.findAll excluded query nodes).run s))
    (s : Store) :
    Spares x serials excluded s ((Node.findAll excluded query (n :: nodes)).run s) := by
  have hfirst := hn s
  have hrest := hnodes ((n.find excluded query).run s).2
  rw [Node.findAll]
  refine ⟨?_, ?_, ?_⟩
  · intro hs hexcluded hx
    have hnot := hfirst.given hs hexcluded
    rcases List.mem_append.1 hx with hx | hx
    · exact hnot hx
    · exact hrest.given (hfirst.kept hs hnot) hexcluded hx
  · intro hs hx
    obtain ⟨hx, hx'⟩ := not_or.1 (mt List.mem_append.2 hx)
    exact hrest.kept (hfirst.kept hs hx) hx'
  · intro serial hserial key
    exact (hrest.others serial hserial key).trans (hfirst.others serial hserial key)

/-- The induction over the nested rules that a lookup goes through. -/
theorem all (x : Ruleset) (serials : List Nat) (excluded : Option Nat) :
    (∀ (query : Selector) (n : Node), n.serials ⊆ serials →
      ∀ s, Spares x serials excluded s ((n.find excluded query).run s)) ∧
    (∀ (query : Selector) (d : Definition), Node.allSerials d.rules ⊆ serials →
      ∀ s, Spares x serials excluded s ((d.find excluded query).run s)) ∧
    (∀ (query : Selector) (nodes : List Node), Node.allSerials nodes ⊆ serials →
      ∀ s, Spares x serials excluded s ((Node.findAll excluded query nodes).run s)) ∧
    ∀ (query : Selector) (r : Ruleset), r.serial ∈ serials →
      Node.allSerials r.rules ⊆ serials →
      ∀ s, Spares x serials excluded s ((r.find excluded query).run s) := by
  have hnil : ∀ s, Spares x serials excluded s
      ((Pure.pure [] : StateM Store (List Candidate)).run s) := .pure fun _ => List.not_mem_nil
  apply Node.find.mutual_induct excluded
  case case1 =>
    intro query r hexcluded _
    simpa only [Node.find, hexcluded, if_true] using hnil
  case case2 =>
    intro query r hexcluded hmatch _
    simpa only [Node.find, hexcluded, if_false, hmatch] using hnil
  case case3 =>
    intro query r hexcluded count hmatch hcount ih hr
    obtain ⟨serial, source, header, rules⟩ := r
    obtain ⟨hserial, hrules⟩ := List.cons_subset.1 hr
    simpa only [Node.find, hexcluded, if_false, hmatch, hcount, if_true] using ih hserial hrules
  case case4 =>
    intro query r hexcluded count hmatch hcount _
    simp only [Node.find, hexcluded, if_false, hmatch, hcount]
    refine .pure fun hx hmem => hexcluded ?_
    rw [hx, Candidate.ruleset.inj (List.mem_singleton.1 hmem)]
  case case5 =>
    intro query d hmatch _
    simpa only [Node.find, hmatch] using hnil
  case case6 =>
    intro query d count hmatch hcount ih hd
    obtain ⟨signature, rules, closure⟩ := d
    simpa only [Node.find, hmatch, hcount, if_true] using ih hd
  case case7 =>
    intro query d count hmatch hcount _
    simp only [Node.find, hmatch, hcount, if_false]
    exact .pure fun _ hmem => by cases List.mem_singleton.1 hmem
  case case8 =>
    intro n query hruleset hdefinition _
    cases n with
    | ruleset r => exact (hruleset r rfl).elim
    | definition d => exact (hdefinition d rfl).elim
    | _ => exact hnil
  case case9 =>
    intro query serial source header rules ih hserial hrules
    exact .ruleset hserial (ih hrules)
  case case10 =>
    intro query signature rules closure ih hrules
    exact ih hrules
  case case11 =>
    intro query _
    exact hnil
  case case12 =>
    intro query n nodes hn hnodes hall
    obtain ⟨hserials, hrest⟩ := List.append_subset.1 hall
    exact .cons (hn hserials) (hnodes hrest)

end Spares

section Run

variable {root : Ruleset}

theorem Ruleset.run_findEach_cons (root : Ruleset) (lookup : Lookup) (lookups : List Lookup)
    (s : Store) :
    (root.findEach (lookup :: lookups)).run s =
      let first := (root.find lookup.excluded lookup.query).run s
      let rest := (root.findEach lookups).run first.2
      (first.1 :: rest.1, rest.2) := rfl

/-- After some lookups, the ruleset is not kept unless one of them gave it that did not exclude
it. -/
theorem lacks_or_given (hs : s.Lacks x (root.serial :: Node.allSerials root.rules))
    (lookups : List Lookup) :
    ((root.findEach lookups).run s).2.Lacks x (root.serial :: Node.allSerials root.rules) ∨
      ∃ entry ∈ lookups.zip ((root.findEach lookups).run s).1,
        entry.1.excluded ≠ some x.serial ∧ Candidate.ruleset x ∈ entry.2 := by
  induction lookups generalizing s with
  | nil => exact .inl hs
  | cons lookup lookups ih =>
    have hfirst := (Spares.all x (root.serial :: Node.allSerials root.rules)
      lookup.excluded).2.2.2 lookup.query root (List.mem_cons_self ..)
      (List.subset_cons_self _ _) s
    rw [root.run_findEach_cons]
    dsimp only
    by_cases hx : Candidate.ruleset x ∈ ((root.find lookup.excluded lookup.query).run s).1
    · exact .inr ⟨_, List.mem_cons_self .., fun hexcluded => hfirst.given hs hexcluded hx, hx⟩
    · rcases ih (hfirst.kept hs hx) with hlacks | ⟨entry, hentry, hgiven⟩
      · exact .inl hlacks
      · exact .inr ⟨entry, List.mem_cons_of_mem _ hentry, hgiven⟩

/-- The first of some lookups that has the given text, with its answer. -/
def firstAnswer (key : String) (entries : List (Lookup × List Candidate)) :
    Option (Lookup × List Candidate) :=
  entries.find? (·.1.query.text = key)

theorem firstAnswer_cons (key : String) (entry : Lookup × List Candidate)
    (entries : List (Lookup × List Candidate)) :
    firstAnswer key (entry :: entries) =
      if entry.1.query.text = key then some entry else firstAnswer key entries := by
  rw [firstAnswer, List.find?_cons]
  by_cases h : entry.1.query.text = key <;> simp [h, firstAnswer]

/-- The first answer to a text is the one that is kept for the ruleset. -/
theorem remembered?_findEach (hroot : root.serial ∉ Node.allSerials root.rules)
    (lookups : List Lookup) (key : String) (s : Store) :
    ((root.findEach lookups).run s).2.remembered? root.serial key =
      (s.remembered? root.serial key).or
        ((firstAnswer key (lookups.zip ((root.findEach lookups).run s).1)).map (·.2)) := by
  induction lookups generalizing s with
  | nil => exact (Option.or_none).symm
  | cons lookup lookups ih =>
    rw [root.run_findEach_cons]
    dsimp only
    rw [ih, List.zip_cons_cons, firstAnswer_cons]
    cases hfound : s.remembered? root.serial lookup.query.text with
    | some found =>
      rw [run_find_of_remembered hfound]
      by_cases hkey : lookup.query.text = key
      · subst hkey
        simp [hfound, Store.remembered?_record]
      · simp [hkey, Store.remembered?_record]
    | none =>
      have hothers := (Spares.all root (Node.allSerials root.rules) lookup.excluded).2.2.1
        lookup.query root.rules (List.Subset.refl _) (s.record (.lookupMiss lookup.query.text))
        |>.others root.serial hroot
      rw [run_find_of_not_remembered hfound]
      dsimp only
      by_cases hkey : lookup.query.text = key
      · subst hkey
        simp [hfound, Store.remembered?_remember_self]
      · rw [Store.remembered?_remember_of_key_ne (Ne.symm hkey), hothers]
        simp [hkey, Store.remembered?_record]

end Run

section Direct

variable {root : Ruleset} {n : Node} {nodes : List Node}

theorem Node.serials_sublist (h : n ∈ nodes) : n.serials.Sublist (Node.allSerials nodes) := by
  induction nodes with
  | nil => cases h
  | cons m nodes ih =>
    rw [Node.allSerials]
    rcases List.mem_cons.1 h with rfl | h
    · exact List.sublist_append_left _ _
    · exact (ih h).trans (List.sublist_append_right _ _)

theorem Node.serials_subset (h : n ∈ nodes) : n.serials ⊆ Node.allSerials nodes :=
  (Node.serials_sublist h).subset

theorem Node.serials_ruleset (r : Ruleset) :
    (Node.ruleset r).serials = r.serial :: Node.allSerials r.rules := by
  obtain ⟨serial, source, header, rules⟩ := r
  rfl

/-- Where no two rulesets have one number, one that stands in a list is nowhere else. -/
theorem Node.eq_or_notMem_serials (h : (Node.allSerials nodes).Nodup)
    (hx : Node.ruleset x ∈ nodes) (hn : n ∈ nodes) :
    n = .ruleset x ∨ x.serial ∉ n.serials := by
  have hown : x.serial ∈ (Node.ruleset x).serials := by simp [Node.serials_ruleset]
  induction nodes with
  | nil => cases hx
  | cons m nodes ih =>
    obtain ⟨-, hnodes, hdisjoint⟩ := List.nodup_append.1 h
    rcases List.mem_cons.1 hx with rfl | hxs <;> rcases List.mem_cons.1 hn with rfl | hns
    · exact .inl rfl
    · exact .inr fun hmem => hdisjoint _ hown _ (Node.serials_subset hns hmem) rfl
    · exact .inr fun hmem => hdisjoint _ hmem _ (Node.serials_subset hxs hown) rfl
    · exact ih hnodes hxs hns

/-- Lookups that only pass other rulesets find and keep others. -/
theorem findKeeps_lacks (x : Ruleset) (serials : List Nat) :
    FindKeeps (·.Lacks x serials) (· ≠ .ruleset x)
      (fun n => n.serials ⊆ serials ∧ x.serial ∉ n.serials) (· ∈ serials) where
  record := fun _ _ hs => hs
  remember := fun _ serial key _ _ hs hfound => hs.remember (fun hx => hfound _ hx rfl) serial key
  remembered := fun _ serial key found hserial hs hfound c hc heq =>
    hs serial hserial key found hfound (heq ▸ hc)
  ruleset := by
    rintro r ⟨hserials, hx⟩
    rw [Node.serials_ruleset] at hserials hx
    obtain ⟨hserial, hrules⟩ := List.cons_subset.1 hserials
    obtain ⟨hne, hinside⟩ := not_or.1 (mt List.mem_cons.2 hx)
    refine ⟨hserial, fun heq => hne (congrArg Ruleset.serial (Candidate.ruleset.inj heq).symm), ?_⟩
    exact fun n hn => ⟨List.Subset.trans (Node.serials_subset hn) hrules,
      fun hmem => hinside (Node.serials_subset hn hmem)⟩
  definition := by
    rintro ⟨signature, rules, closure⟩ ⟨hserials, hx⟩
    refine ⟨Candidate.noConfusion, fun n hn => ?_⟩
    exact ⟨List.Subset.trans (Node.serials_subset hn) hserials,
      fun hmem => hx (Node.serials_subset hn hmem)⟩

/-- A node that is the ruleset itself or does not have it inside keeps it out of what is kept. -/
theorem lacks_find (hs : s.Lacks x serials) (hserials : n.serials ⊆ serials)
    (hx : x.serial ∉ Node.allSerials x.rules) (hn : n = .ruleset x ∨ x.serial ∉ n.serials) :
    ((n.find excluded query).run s).2.Lacks x serials := by
  have hkeeps := (findKeeps_lacks x serials).answers_all excluded
  rcases hn with rfl | hn
  · rw [Node.serials_ruleset] at hserials
    obtain ⟨hserial, hrules⟩ := List.cons_subset.1 hserials
    rw [Node.find]
    split
    · exact hs
    · split
      · exact hs
      · split
        · refine (hkeeps.2.2.2 _ x hserial (fun n hn => ?_) s hs).1
          exact ⟨List.Subset.trans (Node.serials_subset hn) hrules,
            fun hmem => hx (Node.serials_subset hn hmem)⟩
        · exact hs
  · exact (hkeeps.1 query n ⟨hserials, hn⟩ s hs).1

theorem lacks_findAll (hs : s.Lacks x serials) (hserials : Node.allSerials nodes ⊆ serials)
    (hx : x.serial ∉ Node.allSerials x.rules)
    (hnodes : ∀ n ∈ nodes, n = .ruleset x ∨ x.serial ∉ n.serials) :
    ((Node.findAll excluded query nodes).run s).2.Lacks x serials := by
  induction nodes generalizing s with
  | nil => exact hs
  | cons n nodes ih =>
    obtain ⟨hown, hrest⟩ := List.append_subset.1 hserials
    obtain ⟨hn, hnodes⟩ := List.forall_mem_cons.1 hnodes
    exact ih (lacks_find hs hown hx hn) hrest hnodes

/-- A ruleset that stands among the rules is never kept for the rulesets inside them. -/
theorem lacks_findEach (hroot : root.serial ∉ Node.allSerials root.rules)
    (hrules : (Node.allSerials root.rules).Nodup) (hx : Node.ruleset x ∈ root.rules)
    (hs : s.Lacks x (Node.allSerials root.rules)) (lookups : List Lookup) :
    ((root.findEach lookups).run s).2.Lacks x (Node.allSerials root.rules) := by
  have hinside : x.serial ∉ Node.allSerials x.rules := by
    have hown := hrules.sublist (Node.serials_sublist hx)
    rw [Node.serials_ruleset] at hown
    exact (List.nodup_cons.1 hown).1
  induction lookups generalizing s with
  | nil => exact hs
  | cons lookup lookups ih =>
    rw [root.run_findEach_cons]
    refine ih ?_
    cases hfound : s.remembered? root.serial lookup.query.text with
    | some found =>
      rw [run_find_of_remembered hfound]
      exact hs
    | none =>
      rw [run_find_of_not_remembered hfound]
      intro serial hserial key found hkept
      have hne : serial ≠ root.serial := fun heq => hroot (heq ▸ hserial)
      rw [Store.remembered?_remember_of_ne hne] at hkept
      exact lacks_findAll (s := s.record (.lookupMiss lookup.query.text)) hs
        (List.Subset.refl _) hinside (fun n hn => Node.eq_or_notMem_serials hrules hx hn) serial
        hserial key found hkept

end Direct

/-- An excluded ruleset is returned only if an earlier lookup returned it that did not exclude it. A
lookup whose text was asked before is given the first answer to it, whatever either of them
excludes. A ruleset that stands among the rules themselves is returned in no other case. -/
theorem find_excluded_iff {root : Ruleset} {s t : Store} {lookups : List Lookup}
    {answers : List (List Candidate)} (hroot : root.serial ∉ Node.allSerials root.rules)
    (hs : s.Unasked (root.serial :: Node.allSerials root.rules))
    (h : (root.findEach lookups).run s = (answers, t)) (query : Selector) (x : Ruleset) :
    (.ruleset x ∈ ((root.find (some x.serial) query).run t).1 →
      ∃ entry ∈ lookups.zip answers,
        entry.1.excluded ≠ some x.serial ∧ .ruleset x ∈ entry.2) ∧
    (∀ entry, firstAnswer query.text (lookups.zip answers) = some entry →
      ((root.find (some x.serial) query).run t).1 = entry.2) ∧
    ((Node.allSerials root.rules).Nodup → .ruleset x ∈ root.rules →
      (.ruleset x ∈ ((root.find (some x.serial) query).run t).1 ↔
        ∃ entry, firstAnswer query.text (lookups.zip answers) = some entry ∧
          .ruleset x ∈ entry.2)) := by
  obtain ⟨rfl, rfl⟩ : ((root.findEach lookups).run s).1 = answers ∧
      ((root.findEach lookups).run s).2 = t := by simp [h]
  have hkept := remembered?_findEach hroot lookups query.text s
  rw [hs root.serial (List.mem_cons_self ..), Option.none_or] at hkept
  have hfirst : ∀ entry, firstAnswer query.text
      (lookups.zip ((root.findEach lookups).run s).1) = some entry →
      ((root.find (some x.serial) query).run ((root.findEach lookups).run s).2).1 = entry.2 := by
    intro entry hentry
    rw [hentry] at hkept
    rw [run_find_of_remembered hkept]
  refine ⟨?_, hfirst, fun hrules hx => ⟨fun hmem => ?_, ?_⟩⟩
  · intro hmem
    rcases lacks_or_given (hs.lacks x) lookups with hlacks | hgiven
    · have hspares := (Spares.all x (root.serial :: Node.allSerials root.rules)
        (some x.serial)).2.2.2 query root (List.mem_cons_self ..) (List.subset_cons_self _ _)
        ((root.findEach lookups).run s).2
      exact absurd hmem (hspares.given hlacks rfl)
    · exact hgiven
  · cases hentry : firstAnswer query.text (lookups.zip ((root.findEach lookups).run s).1) with
    | some entry => exact ⟨entry, rfl, hfirst entry hentry ▸ hmem⟩
    | none =>
      -- The text is new, and the ruleset itself is passed over.
      rw [hentry] at hkept
      rw [run_find_of_not_remembered hkept] at hmem
      have hlacks : ((root.findEach lookups).run s).2.Lacks x (Node.allSerials root.rules) :=
        lacks_findEach hroot hrules hx (Store.Unasked.lacks
          (fun serial hserial => hs serial (List.mem_cons_of_mem _ hserial)) x) lookups
      have hspares := (Spares.all x (Node.allSerials root.rules) (some x.serial)).2.2.1 query
        root.rules (List.Subset.refl _)
        (((root.findEach lookups).run s).2.record (.lookupMiss query.text))
      exact absurd hmem (hspares.given hlacks rfl)
  · rintro ⟨entry, hentry, hmem⟩
    rwa [hfirst entry hentry]

namespace Lookup

/-- The query `.a`. -/
def single : Selector := { elements := [⟨.compound, ".a"⟩] }

/-- The query `#ns > .a`. -/
def spaced : Selector := { elements := [⟨.compound, "#ns"⟩, ⟨.child, ".a"⟩] }

/-- A ruleset `.a`. -/
def plainA (serial : Nat) : Ruleset := ⟨serial, none, { selectors := [single] }, []⟩

/-- A document with a ruleset `.a`, and another one in a namespace `#ns`. -/
def twoRulesets : Ruleset where
  serial := 0
  source := none
  header := Header.document
  rules := [.ruleset (plainA 1),
    .ruleset ⟨2, none, { selectors := [{ elements := [⟨.compound, "#ns"⟩] }] },
      [.ruleset (plainA 3)]⟩]

/-- Lookups of both that exclude the namespace and the other ruleset. -/
def twoLookups : List Lookup := [⟨single, some 2⟩, ⟨spaced, some 1⟩]

end Lookup

/-- Both are returned though they are excluded, the one in the namespace too. -/
theorem find_excluded_iff_twoRulesets :
    let t := ((Lookup.twoRulesets.findEach Lookup.twoLookups).run {}).2
    .ruleset (Lookup.plainA 1) ∈
        ((Lookup.twoRulesets.find (some 1) Lookup.single).run t).1 ∧
      ((Lookup.twoRulesets.find (some 3) Lookup.spaced).run t).1 =
        [.ruleset (Lookup.plainA 3)] := by
  intro t
  have hroot : Lookup.twoRulesets.serial ∉ Node.allSerials Lookup.twoRulesets.rules := by decide
  have hrules : (Node.allSerials Lookup.twoRulesets.rules).Nodup := by decide
  have hfirst := find_excluded_iff (s := {}) hroot (fun _ _ _ => rfl)
    (rfl : (Lookup.twoRulesets.findEach Lookup.twoLookups).run {} = (_, t)) Lookup.single
    (Lookup.plainA 1)
  have hsecond := find_excluded_iff (s := {}) hroot (fun _ _ _ => rfl)
    (rfl : (Lookup.twoRulesets.findEach Lookup.twoLookups).run {} = (_, t)) Lookup.spaced
    (Lookup.plainA 3)
  refine ⟨(hfirst.2.2 hrules (by simp [Lookup.twoRulesets])).2 ?_, ?_⟩
  · exact ⟨(⟨Lookup.single, some 2⟩, [.ruleset (Lookup.plainA 1)]), rfl, by simp⟩
  · exact hsecond.2.1 (⟨Lookup.spaced, some 1⟩, [.ruleset (Lookup.plainA 3)]) rfl

/-- Alone, a lookup passes over the ruleset that it excludes. After one that excludes nothing it
returns it, and one that excludes nothing does not return it after one that does. -/
theorem find_excluded_returned :
    ((Lookup.twoRulesets.findEach [⟨Lookup.single, some 1⟩]).run {}).1 = [[]] ∧
      ((Lookup.twoRulesets.findEach [⟨Lookup.single, none⟩, ⟨Lookup.single, some 1⟩]).run {}).1 =
        [[.ruleset (Lookup.plainA 1)], [.ruleset (Lookup.plainA 1)]] ∧
      ((Lookup.twoRulesets.findEach [⟨Lookup.single, some 1⟩, ⟨Lookup.single, none⟩]).run {}).1 =
        [[], []] :=
  ⟨rfl, rfl, rfl⟩

end Stylesheet
