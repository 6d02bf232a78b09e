import Stylesheet.Proofs.Compile.Steps

/-!
# What a lookup finds and leaves

A lookup goes through nested rules and through answers that were kept. Whatever
holds of the nodes it passes, and of the answers in the store, holds of what it
finds. The induction over the nested rules is done once, for an invariant of the
store and a property of candidates; the facts about lookups are instances of it.
-/

namespace Stylesheet

/-- The node that a candidate is. -/
def Candidate.node : Candidate → Node
  | .ruleset r => .ruleset r
  | .definition d => .definition d

/-- A lookup that was answered before is answered from memory. -/
theorem run_find_of_remembered {excluded : Option Nat} {query : Selector} {r : Ruleset} {s : Store}
    {found : List Candidate} (h : s.remembered? r.serial query.text = some found) :
    (r.find excluded query).run s = (found, s.record (.lookupHit query.text)) := by
  obtain ⟨serial, source, header, rules⟩ := r
  replace h : s.remembered? serial query.text = some found := h
  rw [Ruleset.find, run_bind_eq, run_get]
  simp only [h]
  rfl

theorem run_find_of_not_remembered {excluded : Option Nat} {query : Selector} {r : Ruleset}
    {s : Store} (h : s.remembered? r.serial query.text = none) :
    (r.find excluded query).run s =
      let searched :=
        (Node.findAll excluded query r.rules).run (s.record (.lookupMiss query.text))
      (searched.1, searched.2.remember r.serial query.text searched.1) := by
  obtain ⟨serial, source, header, rules⟩ := r
  replace h : s.remembered? serial query.text = none := h
  rw [Ruleset.find, run_bind_eq, run_get]
  simp only [h]
  rfl

/-- An invariant of stores and a property of candidates that lookups keep. Nodes for which `node`
holds lead to candidates for which `candidate` holds, and to rulesets for whose numbers `number`
holds. -/
structure FindKeeps (store : Store → Prop) (candidate : Candidate → Prop) (node : Node → Prop)
    (number : Nat → Prop) : Prop where
  record : ∀ s e, store s → store (s.record e)
  remember : ∀ s serial key found, number serial → store s → (∀ c ∈ found, candidate c) →
    store (s.remember serial key found)
  remembered : ∀ s serial key found, number serial → store s →
    s.remembered? serial key = some found → ∀ c ∈ found, candidate c
  ruleset : ∀ r, node (.ruleset r) →
    number r.serial ∧ candidate (.ruleset r) ∧ ∀ n ∈ r.rules, node n
  definition : ∀ d, node (.definition d) → candidate (.definition d) ∧ ∀ n ∈ d.rules, node n

namespace FindKeeps

variable {store : Store → Prop} {candidate : Candidate → Prop} {node : Node → Prop}
  {number : Nat → Prop}

/-- The lookup keeps the invariant, and finds only candidates with the property. -/
def Answers (store : Store → Prop) (candidate : Candidate → Prop)
    (x : StateM Store (List Candidate)) : Prop :=
  ∀ s, store s → store (x.run s).2 ∧ ∀ c ∈ (x.run s).1, candidate c

theorem answers_nil : Answers store candidate (pure []) := by
  intro s hs
  exact ⟨hs, fun c hc => by cases hc⟩

theorem answers_singleton {c : Candidate} (hc : candidate c) :
    Answers store candidate (pure [c]) := by
  intro s hs
  exact ⟨hs, fun d hd => List.mem_singleton.1 hd ▸ hc⟩

/-- A ruleset answers from memory or from its rules. -/
theorem answers_ruleset (keeps : FindKeeps store candidate node number) {excluded : Option Nat}
    {query : Selector} {r : Ruleset} (hr : number r.serial)
    (h : Answers store candidate (Node.findAll excluded query r.rules)) :
    Answers store candidate (r.find excluded query) := by
  intro s hs
  cases hfound : s.remembered? r.serial query.text with
  | some found =>
    rw [run_find_of_remembered hfound]
    exact ⟨keeps.record _ _ hs, keeps.remembered _ _ _ _ hr hs hfound⟩
  | none =>
    rw [run_find_of_not_remembered hfound]
    obtain ⟨hstore, hall⟩ := h _ (keeps.record s (.lookupMiss query.text) hs)
    exact ⟨keeps.remember _ _ _ _ hr hstore hall, hall⟩

theorem answers_cons {excluded : Option Nat} {query : Selector} {n : Node} {nodes : List Node}
    (hn : Answers store candidate (n.find excluded query))
    (hnodes : Answers store candidate (Node.findAll excluded query nodes)) :
    Answers store candidate (Node.findAll excluded query (n :: nodes)) := by
  intro s hs
  obtain ⟨hstore, hfirst⟩ := hn s hs
  obtain ⟨hstore', hrest⟩ := hnodes _ hstore
  rw [Node.findAll]
  refine ⟨hstore', ?_⟩
  intro c hc
  rcases List.mem_append.1 hc with hc | hc
  · exact hfirst c hc
  · exact hrest c hc

/-- The induction over the nested rules that a lookup goes through. -/
theorem answers_all (keeps : FindKeeps store candidate node number) (excluded : Option Nat) :
    (∀ (query : Selector) (n : Node), node n → Answers store candidate (n.find excluded query)) ∧
    (∀ (query : Selector) (d : Definition), (∀ n ∈ d.rules, node n) →
      Answers store candidate (d.find excluded query)) ∧
    (∀ (query : Selector) (nodes : List Node), (∀ n ∈ nodes, node n) →
      Answers store candidate (Node.findAll excluded query nodes)) ∧
    ∀ (query : Selector) (r : Ruleset), number r.serial → (∀ n ∈ r.rules, node n) →
      Answers store candidate (r.find excluded query) := by
  apply Node.find.mutual_induct excluded
  case case1 =>
    intro query r hexcluded _
    simpa only [Node.find, hexcluded, if_true] using answers_nil
  case case2 =>
    intro query r hexcluded hmatch _
    simpa only [Node.find, hexcluded, if_false, hmatch] using answers_nil
  case case3 =>
    intro query r hexcluded count hmatch hcount ih hr
    obtain ⟨hnumber, -, hrules⟩ := keeps.ruleset r hr
    simpa only [Node.find, hexcluded, if_false, hmatch, hcount, if_true] using ih hnumber hrules
  case case4 =>
    intro query r hexcluded count hmatch hcount hr
    simpa only [Node.find, hexcluded, if_false, hmatch, hcount] using
      answers_singleton (keeps.ruleset r hr).2.1
  case case5 =>
    intro query d hmatch _
    simpa only [Node.find, hmatch] using answers_nil
  case case6 =>
    intro query d count hmatch hcount ih hd
    simpa only [Node.find, hmatch, hcount, if_true] using ih (keeps.definition d hd).2
  case case7 =>
    intro query d count hmatch hcount hd
    simpa only [Node.find, hmatch, hcount, if_false] using
      answers_singleton (keeps.definition d hd).1
  case case8 =>
    intro n query hruleset hdefinition _
    cases n with
    | ruleset r => exact (hruleset r rfl).elim
    | definition d => exact (hdefinition d rfl).elim
    | _ => exact answers_nil
  case case9 =>
    intro query serial source header rules ih hnumber hrules
    exact answers_ruleset keeps hnumber (ih hrules)
  case case10 =>
    intro query signature rules closure ih hrules
    exact ih hrules
  case case11 =>
    intro query _
    exact answers_nil
  case case12 =>
    intro query n nodes hn hnodes hall
    exact answers_cons (hn (hall n (by simp))) (hnodes fun m hm => hall m (by simp [hm]))

/-- Frames answer with candidates that have the property, or not at all. -/
theorem answers_frames (keeps : FindKeeps store candidate node number) {query : Selector}
    {frames : List Ruleset}
    (hframes : ∀ frame ∈ frames, number frame.serial ∧ ∀ n ∈ frame.rules, node n) {s : Store}
    (hs : store s) :
    store ((findInFrames query frames).run s).2 ∧
      ∀ found, ((findInFrames query frames).run s).1 = some found → ∀ c ∈ found, candidate c := by
  induction frames generalizing s with
  | nil => exact ⟨hs, fun found hfound => by cases hfound⟩
  | cons frame frames ih =>
    obtain ⟨hnumber, hrules⟩ := hframes frame (by simp)
    obtain ⟨hstore, hall⟩ := (keeps.answers_all none).2.2.2 query frame hnumber hrules s hs
    have hrest := ih (fun f hf => hframes f (by simp [hf])) hstore
    rw [findInFrames, run_bind_eq]
    cases hempty : ((frame.find none query).run s).1.isEmpty with
    | true => exact hrest
    | false =>
      refine ⟨hstore, ?_⟩
      rintro found ⟨⟩
      exact hall

end FindKeeps

namespace Store

/-- The second store differs from the first by lookups only. -/
structure Learns (s t : Store) : Prop where
  blocks : t.blocks = s.blocks
  inherited : t.inherited = s.inherited
  imported : t.imported = s.imported
  nextSerial : t.nextSerial = s.nextSerial

theorem Learns.refl (s : Store) : s.Learns s := ⟨rfl, rfl, rfl, rfl⟩

theorem Learns.record {s t : Store} (h : s.Learns t) (e : Event) : s.Learns (t.record e) :=
  ⟨h.blocks, h.inherited, h.imported, h.nextSerial⟩

theorem Learns.remember {s t : Store} (h : s.Learns t) (serial : Nat) (key : String)
    (found : List Candidate) : s.Learns (t.remember serial key found) :=
  ⟨h.blocks, h.inherited, h.imported, h.nextSerial⟩

end Store

theorem learns_mixin (sc : Scope) (query : Selector) (s : Store) :
    s.Learns ((sc.mixin query).run s).2 := by
  have keeps : FindKeeps s.Learns (fun _ => True) (fun _ => True) fun _ => True :=
    { record := fun _ e h => h.record e
      remember := fun _ serial key found _ h _ => h.remember serial key found
      remembered := fun _ _ _ _ _ _ _ _ _ => trivial
      ruleset := fun _ _ => ⟨trivial, trivial, fun _ _ => trivial⟩
      definition := fun _ _ => ⟨trivial, fun _ _ => trivial⟩ }
  exact (keeps.answers_frames (fun _ _ => ⟨trivial, fun _ _ => trivial⟩) (.refl s)).1

end Stylesheet
