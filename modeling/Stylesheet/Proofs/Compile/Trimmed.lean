import Stylesheet.Proofs.Compile.Finish

/-!
# Trees without unused mixins

Two compilations are compared. The tree of the second one is the tree of the first without
some mixin definitions that no query finds, and the second one may expand mixins more
deeply. Otherwise they go through the same steps, so their trees stay alike throughout.

The rulesets inside the definitions that are left out have numbers too. Therefore a ruleset
has another number in each compilation, and a function from the numbers of the second to
those of the first says which. No two rulesets share a number on either side.

The stores may differ where nobody looks: in blocks that nothing refers to any more, and in
the answers for rulesets that are not met any more.
-/

namespace Stylesheet

/-- Two compilations that are compared. -/
structure Comparison where
  /-- The queries that are looked up. -/
  asks : Selector → Prop
  /-- What is left of a query is looked up as well. -/
  asks_rest : ∀ {q : Selector} (count : Nat), asks q → asks (q.rest count)
  /-- The number that a ruleset of the second compilation has in the first. -/
  number : Nat → Nat
  injective : Function.Injective number
  /-- How many mixins may be expanded inside each other in the first compilation. -/
  limit : Nat
  /-- How many mixins may be expanded inside each other in the second compilation. -/
  limit' : Nat
  limit_le : limit ≤ limit'
  /-- Whether definitions are left out at all. -/
  trims : Prop := True
  /-- The numbers of the second compilation whose rulesets may be met. -/
  meets : Nat → Prop := fun _ => True
  /-- The blocks that nothing refers to. -/
  hides : Nat → Prop := fun _ => False

/-- All rulesets may be met, and no block is hidden. -/
class Comparison.Total (cmp : Comparison) : Prop where
  meets : ∀ n, cmp.meets n
  shows : ∀ index, ¬cmp.hides index

/-- A mixin definition that may be left out, since no query finds it. -/
def Node.Unused (cmp : Comparison) (n : Node) : Prop :=
  cmp.trims ∧ ∃ d, n = .definition d ∧ ∀ q, cmp.asks q → q.firstMatch? [d.signature.name] = none

/-- The second ruleset is the first without unused definitions, where `R` relates the rules. -/
structure Ruleset.TrimsBy (cmp : Comparison) (R : Node → Node → Prop) (r s : Ruleset) : Prop where
  header : s.header = r.header
  serial : r.serial = cmp.number s.serial
  met : cmp.meets s.serial
  source : r.source = s.source.map cmp.number
  rules : Aligned R (Node.Unused cmp) r.rules s.rules

/-- The second node is the first without unused definitions. All calls are among the queries. The
relation `R` relates what is inside. -/
inductive Node.TrimsTo (cmp : Comparison) : Node → Node → Prop
  | declaration (d : Declaration) : TrimsTo cmp (.declaration d) (.declaration d)
  | ruleset {r s : Ruleset} {R : Node → Node → Prop} (hR : ∀ a b, R a b → TrimsTo cmp a b)
      (h : r.TrimsBy cmp R s) : TrimsTo cmp (.ruleset r) (.ruleset s)
  | definition {d e : Definition} {R : Node → Node → Prop} (hR : ∀ a b, R a b → TrimsTo cmp a b)
      (hsignature : e.signature = d.signature)
      (hrules : Aligned R (Unused cmp) d.rules e.rules)
      (hclosure : Option.Rel (List.Forall₂ (Ruleset.TrimsBy cmp R)) d.closure e.closure) :
      TrimsTo cmp (.definition d) (.definition e)
  | call {c : MixinCall} (h : cmp.asks c.selector) : TrimsTo cmp (.call c) (.call c)
  | inclusion (i : Import) : TrimsTo cmp (.inclusion i) (.inclusion i)
  | comment (c : Comment) : TrimsTo cmp (.comment c) (.comment c)
  | media {head : MediaHead} {rules rules' : List Node} {R : Node → Node → Prop}
      (hR : ∀ a b, R a b → TrimsTo cmp a b) (hrules : Aligned R (Unused cmp) rules rules') :
      TrimsTo cmp (.media head rules) (.media head rules')
  | block {index : Nat} (h : ¬cmp.hides index) : TrimsTo cmp (.block index) (.block index)
  | directive (head : DirectiveHead) : TrimsTo cmp (.directive head none) (.directive head none)
  | directiveBlock {head : DirectiveHead} {rules rules' : List Node} {R : Node → Node → Prop}
      (hR : ∀ a b, R a b → TrimsTo cmp a b) (hrules : Aligned R (Unused cmp) rules rules') :
      TrimsTo cmp (.directive head (some rules)) (.directive head (some rules'))

/-- The second list is the first without unused definitions, at any depth. -/
def Node.TrimsAll (cmp : Comparison) : List Node → List Node → Prop :=
  Aligned (Node.TrimsTo cmp) (Node.Unused cmp)

/-- The second ruleset is the first without unused definitions. -/
abbrev Ruleset.TrimsTo (cmp : Comparison) (r s : Ruleset) : Prop :=
  Ruleset.TrimsBy cmp (Node.TrimsTo cmp) r s

/-- The second definition is the first without unused definitions inside. -/
structure Definition.TrimsTo (cmp : Comparison) (d e : Definition) : Prop where
  signature : e.signature = d.signature
  rules : Node.TrimsAll cmp d.rules e.rules
  closure : Option.Rel (List.Forall₂ (Ruleset.TrimsTo cmp)) d.closure e.closure

/-- The second candidate is the first without unused definitions inside. -/
def Candidate.TrimsTo (cmp : Comparison) (c c' : Candidate) : Prop :=
  Node.TrimsTo cmp c.node c'.node

variable {cmp : Comparison} {R R' : Node → Node → Prop} {n m : Node} {l l' : List Node}

section Cases

theorem Ruleset.TrimsBy.mono {r s : Ruleset} (h : r.TrimsBy cmp R s)
    (hR : ∀ a b, R a b → R' a b) : r.TrimsBy cmp R' s :=
  ⟨h.header, h.serial, h.met, h.source, h.rules.mono hR fun _ h => h⟩

theorem Node.TrimsTo.of_ruleset {r s : Ruleset} (h : Node.TrimsTo cmp (.ruleset r) (.ruleset s)) :
    r.TrimsTo cmp s := by
  cases h with
  | ruleset hR h => exact h.mono hR

theorem Ruleset.TrimsTo.node {r s : Ruleset} (h : r.TrimsTo cmp s) :
    Node.TrimsTo cmp (.ruleset r) (.ruleset s) := .ruleset (fun _ _ h => h) h

theorem Node.TrimsTo.of_definition {d e : Definition}
    (h : Node.TrimsTo cmp (.definition d) (.definition e)) : d.TrimsTo cmp e := by
  cases h with
  | definition hR hsignature hrules hclosure =>
    refine ⟨hsignature, hrules.mono hR fun _ h => h, ?_⟩
    exact optionRel_imp hclosure fun _ _ hframes => hframes.imp fun _ _ h => h.mono hR

theorem Definition.TrimsTo.node {d e : Definition} (h : d.TrimsTo cmp e) :
    Node.TrimsTo cmp (.definition d) (.definition e) :=
  .definition (fun _ _ h => h) h.signature h.rules h.closure

/-- Candidates that are alike are of one kind. -/
theorem Candidate.TrimsTo.cases {c c' : Candidate} (h : c.TrimsTo cmp c') :
    (∃ r s, c = .ruleset r ∧ c' = .ruleset s ∧ r.TrimsTo cmp s) ∨
      ∃ d e, c = .definition d ∧ c' = .definition e ∧ d.TrimsTo cmp e := by
  cases c with
  | ruleset r =>
    cases c' with
    | ruleset s => exact .inl ⟨r, s, rfl, rfl, Node.TrimsTo.of_ruleset h⟩
    | definition e => cases h
  | definition d =>
    cases c' with
    | ruleset s => cases h
    | definition e => exact .inr ⟨d, e, rfl, rfl, Node.TrimsTo.of_definition h⟩

theorem Node.TrimsAll.single (h : n.TrimsTo cmp m) : Node.TrimsAll cmp [n] [m] := .both h .nil

/-- Declarations are the same on both sides. -/
theorem Node.trimsAll_declarations (ds : List Declaration) :
    Node.TrimsAll cmp (ds.map .declaration) (ds.map .declaration) := by
  induction ds with
  | nil => exact .nil
  | cons d ds ih => exact .both (.declaration d) ih

theorem Node.TrimsTo.isDefinition_eq (h : n.TrimsTo cmp m) : m.isDefinition = n.isDefinition := by
  cases h <;> rfl

theorem Node.TrimsTo.binding? (h : n.TrimsTo cmp m) : m.binding? = n.binding? := by
  cases h <;> rfl

/-- Unused definitions declare no variables. -/
theorem Node.TrimsAll.bindings (h : Node.TrimsAll cmp l l') :
    l'.filterMap Node.binding? = l.filterMap Node.binding? := by
  induction h with
  | nil => rfl
  | both h _ ih => rw [List.filterMap_cons, List.filterMap_cons, h.binding?, ih]
  | spare h _ ih =>
    obtain ⟨-, d, rfl, -⟩ := h
    exact ih

theorem Ruleset.TrimsTo.binding? {r s : Ruleset} (h : r.TrimsTo cmp s) (name : String) :
    s.binding? name = r.binding? name := by
  rw [Ruleset.binding?, Ruleset.binding?, Ruleset.bindings, Ruleset.bindings,
    Node.TrimsAll.bindings h.rules]

end Cases

section Shape

/-- Mixin definitions do not count for the height of a tree. -/
theorem Aligned.heights_eq {blocks : List Nat} (h : Aligned R (Node.Unused cmp) l l')
    (hR : ∀ a b, R a b → b.height blocks = a.height blocks) :
    Node.heights blocks l' = Node.heights blocks l := by
  induction h with
  | nil => rfl
  | both h _ ih => rw [Node.heights, Node.heights, hR _ _ h, ih]
  | spare h _ ih =>
    obtain ⟨-, d, rfl, -⟩ := h
    exact ih.trans (Nat.zero_max _).symm

theorem Node.TrimsTo.height_eq (h : n.TrimsTo cmp m) (blocks : List Nat) :
    m.height blocks = n.height blocks := by
  induction h with
  | @ruleset r s R hR h ih =>
    obtain ⟨serial, source, header, rules⟩ := r
    obtain ⟨serial', source', header', rules'⟩ := s
    exact congrArg (· + 1) (h.rules.heights_eq ih)
  | media hR hrules ih | directiveBlock hR hrules ih =>
    exact congrArg (· + 1) (hrules.heights_eq ih)
  | _ => rfl

theorem Node.TrimsAll.heights_eq (h : Node.TrimsAll cmp l l') (blocks : List Nat) :
    Node.heights blocks l' = Node.heights blocks l :=
  Aligned.heights_eq h fun _ _ h => h.height_eq blocks

theorem Node.Unused.isDefinition_eq (h : n.Unused cmp) : n.isDefinition = true := by
  obtain ⟨-, d, rfl, -⟩ := h
  rfl

/-- Bare nodes have no mixin definitions, so that nodes that are alike have one bare node. -/
theorem Node.TrimsTo.bare_eq (h : n.TrimsTo cmp m) : m.bare = n.bare := by
  induction h with
  | @ruleset r s R hR h ih =>
    obtain ⟨serial, source, header, rules⟩ := r
    obtain ⟨serial', source', header', rules'⟩ := s
    obtain rfl : header' = header := h.header
    exact congrArg (fun rules => Node.ruleset ⟨0, none, header', rules⟩)
      (h.rules.bareAll_eq (fun a b h => ⟨(hR a b h).isDefinition_eq, ih a b h⟩)
        fun _ h => h.isDefinition_eq)
  | @definition d e R hR hsignature hrules hclosure ih =>
    obtain ⟨signature, rules, closure⟩ := d
    obtain ⟨signature', rules', closure'⟩ := e
    obtain rfl : signature' = signature := hsignature
    rfl
  | @media head rules rules' R hR hrules ih =>
    exact congrArg (Node.media head)
      (hrules.bareAll_eq (fun a b h => ⟨(hR a b h).isDefinition_eq, ih a b h⟩)
        fun _ h => h.isDefinition_eq)
  | @directiveBlock head rules rules' R hR hrules ih =>
    exact congrArg (fun rules => Node.directive head (some rules))
      (hrules.bareAll_eq (fun a b h => ⟨(hR a b h).isDefinition_eq, ih a b h⟩)
        fun _ h => h.isDefinition_eq)
  | _ => rfl

theorem Node.TrimsAll.bareAll_eq (h : Node.TrimsAll cmp l l') :
    Node.bareAll l' = Node.bareAll l :=
  Aligned.bareAll_eq h (fun _ _ h => ⟨h.isDefinition_eq, h.bare_eq⟩) fun _ h => h.isDefinition_eq

end Shape

section Marking

theorem Aligned.markAllImportant (h : Aligned R (Node.Unused cmp) l l')
    (hR : ∀ a b, R a b → a.markImportant.TrimsTo cmp b.markImportant) :
    Node.TrimsAll cmp (Node.markAllImportant l) (Node.markAllImportant l') := by
  induction h with
  | nil => exact .nil
  | both h _ ih => exact .both (hR _ _ h) ih
  | spare h _ ih =>
    obtain ⟨htrims, d, rfl, hd⟩ := h
    exact .spare ⟨htrims, d, rfl, hd⟩ ih

theorem Node.TrimsTo.markImportant (h : n.TrimsTo cmp m) :
    n.markImportant.TrimsTo cmp m.markImportant := by
  induction h with
  | declaration d => exact .declaration _
  | @ruleset r s R hR h ih =>
    obtain ⟨serial, source, header, rules⟩ := r
    obtain ⟨serial', source', header', rules'⟩ := s
    exact .ruleset (fun _ _ h => h)
      ⟨h.header, h.serial, h.met, h.source, h.rules.markAllImportant ih⟩
  | definition hR hsignature hrules hclosure => exact .definition hR hsignature hrules hclosure
  | call h => exact .call h
  | inclusion i => exact .inclusion i
  | comment c => exact .comment c
  | media hR hrules ih => exact .media (fun _ _ h => h) (hrules.markAllImportant ih)
  | block h => exact .block h
  | directive head => exact .directive head
  | directiveBlock hR hrules ih =>
    exact .directiveBlock (fun _ _ h => h) (hrules.markAllImportant ih)

theorem Node.TrimsAll.markAllImportant (h : Node.TrimsAll cmp l l') :
    Node.TrimsAll cmp (Node.markAllImportant l) (Node.markAllImportant l') :=
  Aligned.markAllImportant h fun _ _ h => h.markImportant

/-- Definitions take hold of frames that are alike. -/
theorem Node.TrimsAll.captureFrames {frames frames' : List Ruleset}
    (hframes : List.Forall₂ (Ruleset.TrimsTo cmp) frames frames') (h : Node.TrimsAll cmp l l') :
    Node.TrimsAll cmp (Stylesheet.captureFrames frames l)
      (Stylesheet.captureFrames frames' l') := by
  refine Aligned.map h ?_ ?_
  · intro n m hn
    cases hn with
    | @definition d e R hR hsignature hrules hclosure =>
      have hd := Node.TrimsTo.of_definition (.definition hR hsignature hrules hclosure)
      obtain ⟨signature, rules, closure⟩ := d
      obtain ⟨signature', rules', closure'⟩ := e
      cases hclosure with
      | none => exact Definition.TrimsTo.node ⟨hd.signature, hd.rules, .some hframes⟩
      | some h => exact hd.node
    | declaration d => exact .declaration d
    | ruleset hR h => exact .ruleset hR h
    | call h => exact .call h
    | inclusion i => exact .inclusion i
    | comment c => exact .comment c
    | media hR hrules => exact .media hR hrules
    | block h => exact .block h
    | directive head => exact .directive head
    | directiveBlock hR hrules => exact .directiveBlock hR hrules
  · rintro _ ⟨htrims, ⟨signature, rules, closure⟩, rfl, hunused⟩
    cases closure with
    | none => exact ⟨htrims, _, rfl, hunused⟩
    | some frames => exact ⟨htrims, _, rfl, hunused⟩

end Marking

section Numbering

variable {α β : Type}

namespace Comparison

/-- From these numbers on, the numbers that both compilations give out go together. -/
def Next (cmp : Comparison) (a b : Nat) : Prop := ∀ k, cmp.number (b + k) = a + k

/-- From this number on, the rulesets of the second compilation may be met. -/
def MeetsFrom (cmp : Comparison) (b : Nat) : Prop := ∀ n, b ≤ n → cmp.meets n

theorem Next.number_eq {a b : Nat} (h : cmp.Next a b) : a = cmp.number b := (h 0).symm

theorem Next.add {a b : Nat} (h : cmp.Next a b) (k : Nat) : cmp.Next (a + k) (b + k) := by
  intro i
  rw [Nat.add_assoc, h (k + i), Nat.add_assoc]

/-- The two numberings give out numbers that go together, and results with `post`. -/
def Numbers (cmp : Comparison) (x y : StateM Nat α) (post : α → α → Prop) : Prop :=
  ∀ a b, cmp.Next a b → cmp.MeetsFrom b →
    cmp.Next (x.run a).2 (y.run b).2 ∧ cmp.MeetsFrom (y.run b).2 ∧ post (x.run a).1 (y.run b).1

theorem Numbers.pure {a b : α} {post : α → α → Prop} (h : post a b) :
    cmp.Numbers (Pure.pure a) (Pure.pure b) post := fun _ _ hnext hmeets => ⟨hnext, hmeets, h⟩

theorem Numbers.bind {x y : StateM Nat α} {z w : α → StateM Nat β} {post : α → α → Prop}
    {post' : β → β → Prop} (hx : cmp.Numbers x y post)
    (hz : ∀ a b, post a b → cmp.Numbers (z a) (w b) post') :
    cmp.Numbers (x >>= z) (y >>= w) post' := by
  intro a b hnext hmeets
  obtain ⟨hnext', hmeets', hpost⟩ := hx a b hnext hmeets
  exact hz _ _ hpost _ _ hnext' hmeets'

/-- A free number on each side. -/
theorem Numbers.fresh :
    cmp.Numbers (modifyGet fun n => (n, n + 1)) (modifyGet fun n => (n, n + 1))
      fun a b => a = cmp.number b ∧ cmp.meets b :=
  fun _ b hnext hmeets => ⟨hnext.add 1, fun n hn => hmeets n (Nat.le_of_succ_le hn),
    hnext.number_eq, hmeets b (Nat.le_refl b)⟩

end Comparison

theorem Aligned.renewAll (h : Aligned R (Node.Unused cmp) l l')
    (hR : ∀ a b, R a b → cmp.Numbers (Node.renew a) (Node.renew b) (Node.TrimsTo cmp)) :
    cmp.Numbers (Node.renewAll l) (Node.renewAll l') (Node.TrimsAll cmp) := by
  induction h with
  | nil => exact .pure .nil
  | both h _ ih => exact (hR _ _ h).bind fun n m hn => ih.bind fun l l' hl => .pure (.both hn hl)
  | spare h _ ih =>
    obtain ⟨htrims, d, rfl, hd⟩ := h
    intro a b hnext hmeets
    obtain ⟨hnext', hmeets', hl⟩ := ih a b hnext hmeets
    exact ⟨hnext', hmeets', .spare ⟨htrims, d, rfl, hd⟩ hl⟩

/-- Nodes that are alike still are after they got new numbers. -/
theorem Node.TrimsTo.renew (h : n.TrimsTo cmp m) :
    cmp.Numbers (Node.renew n) (Node.renew m) (Node.TrimsTo cmp) := by
  induction h with
  | declaration d => exact .pure (.declaration d)
  | @ruleset r s R hR h ih =>
    obtain ⟨serial, source, header, rules⟩ := r
    obtain ⟨serial', source', header', rules'⟩ := s
    refine Comparison.Numbers.fresh.bind fun a b hserial => ?_
    refine (h.rules.renewAll ih).bind fun l l' hl => .pure ?_
    exact .ruleset (fun _ _ h => h) ⟨h.header, hserial.1, hserial.2, h.source, hl⟩
  | definition hR hsignature hrules hclosure =>
    exact .pure (.definition hR hsignature hrules hclosure)
  | call h => exact .pure (.call h)
  | inclusion i => exact .pure (.inclusion i)
  | comment c => exact .pure (.comment c)
  | media hR hrules ih =>
    exact (hrules.renewAll ih).bind fun l l' hl => .pure (.media (fun _ _ h => h) hl)
  | block h => exact .pure (.block h)
  | directive head => exact .pure (.directive head)
  | directiveBlock hR hrules ih =>
    exact (hrules.renewAll ih).bind fun l l' hl => .pure (.directiveBlock (fun _ _ h => h) hl)

theorem Node.TrimsAll.renewAll (h : Node.TrimsAll cmp l l') :
    cmp.Numbers (Node.renewAll l) (Node.renewAll l') (Node.TrimsAll cmp) :=
  Aligned.renewAll h fun _ _ h => h.renew

mutual

/-- How many rulesets a rule has, with those inside it. -/
def Rule.rulesets : Rule → Nat
  | .ruleset _ rules => allRulesets rules + 1
  | .definition _ rules | .media _ rules => allRulesets rules
  | .directive _ (some rules) => allRulesets rules
  | _ => 0

/-- How many rulesets some rules have. -/
def Rule.allRulesets : List Rule → Nat
  | [] => 0
  | rule :: rules => rulesets rule + allRulesets rules

end

namespace Node

mutual

theorem next_ofRule : ∀ (rule : Rule) (next : Nat),
    ((ofRule rule).run next).2 = next + rule.rulesets
  | .declaration _, _ | .call _, _ | .inclusion _, _ | .comment _, _ | .directive _ none, _ => rfl
  | .ruleset _ rules, next => by
    rw [Rule.rulesets, ← Nat.add_assoc, Nat.add_right_comm, ← next_ofRules rules (next + 1)]
    rfl
  | .definition _ rules, next | .media _ rules, next | .directive _ (some rules), next =>
    next_ofRules rules next

theorem next_ofRules : ∀ (rules : List Rule) (next : Nat),
    ((ofRules rules).run next).2 = next + Rule.allRulesets rules
  | [], _ => rfl
  | rule :: rules, next => by
    rw [Rule.allRulesets, ← Nat.add_assoc, ← next_ofRule rule next, ← next_ofRules rules _]
    rfl

end

theorem run_ofRules_cons (rule : Rule) (rules : List Rule) (next : Nat) :
    ((ofRules (rule :: rules)).run next).1 =
      ((ofRule rule).run next).1 :: ((ofRules rules).run (next + rule.rulesets)).1 := by
  rw [← next_ofRule]
  rfl

mutual

/-- Rules that are numbered on both sides are alike, if the numbers that they get go together. -/
theorem trimsTo_ofRule_from : ∀ (rule : Rule), (∀ c ∈ rule.calls, cmp.asks c.selector) →
    ∀ a b : Nat, cmp.MeetsFrom b → (∀ k < rule.rulesets, cmp.number (b + k) = a + k) →
      ((ofRule rule).run a).1.TrimsTo cmp ((ofRule rule).run b).1
  | .declaration d, _, _, _, _, _ => .declaration d
  | .ruleset header rules, h, a, b, hmeets, hnumber => by
    refine .ruleset (fun _ _ h => h)
      ⟨rfl, (hnumber 0 (Nat.succ_pos _)).symm, hmeets b (Nat.le_refl b), rfl, ?_⟩
    refine trimsAll_ofRules_from rules h (a + 1) (b + 1)
      (fun n hn => hmeets n (Nat.le_of_succ_le hn)) fun k hk => ?_
    rw [Nat.add_right_comm b, Nat.add_right_comm a]
    exact hnumber (k + 1) (Nat.succ_lt_succ hk)
  | .definition _ rules, h, a, b, hmeets, hnumber =>
    .definition (fun _ _ h => h) rfl (trimsAll_ofRules_from rules h a b hmeets hnumber) .none
  | .call c, h, _, _, _, _ => .call (h c (by simp [Rule.calls]))
  | .inclusion i, _, _, _, _, _ => .inclusion i
  | .comment c, _, _, _, _, _ => .comment c
  | .media _ rules, h, a, b, hmeets, hnumber =>
    .media (fun _ _ h => h) (trimsAll_ofRules_from rules h a b hmeets hnumber)
  | .directive head none, _, _, _, _, _ => .directive head
  | .directive _ (some rules), h, a, b, hmeets, hnumber =>
    .directiveBlock (fun _ _ h => h) (trimsAll_ofRules_from rules h a b hmeets hnumber)

theorem trimsAll_ofRules_from : ∀ (rules : List Rule),
    (∀ c ∈ Rule.allCalls rules, cmp.asks c.selector) → ∀ a b : Nat, cmp.MeetsFrom b →
      (∀ k < Rule.allRulesets rules, cmp.number (b + k) = a + k) →
        TrimsAll cmp ((ofRules rules).run a).1 ((ofRules rules).run b).1
  | [], _, _, _, _, _ => .nil
  | rule :: rules, h, a, b, hmeets, hnumber => by
    obtain ⟨hrule, hrules⟩ := List.forall_mem_append.1 h
    rw [Rule.allRulesets] at hnumber
    rw [run_ofRules_cons, run_ofRules_cons]
    refine .both (trimsTo_ofRule_from rule hrule a b hmeets fun k hk => hnumber k (by omega)) ?_
    refine trimsAll_ofRules_from rules hrules _ _
      (fun n hn => hmeets n (Nat.le_of_add_right_le hn)) fun k hk => ?_
    rw [Nat.add_assoc, Nat.add_assoc]
    exact hnumber _ (by omega)

end

section Total

variable [cmp.Total]

theorem trimsTo_ofRule (rule : Rule) (h : ∀ c ∈ rule.calls, cmp.asks c.selector) (a b : Nat)
    (hnumber : ∀ k < rule.rulesets, cmp.number (b + k) = a + k) :
    ((ofRule rule).run a).1.TrimsTo cmp ((ofRule rule).run b).1 :=
  trimsTo_ofRule_from rule h a b (fun n _ => Comparison.Total.meets n) hnumber

theorem trimsAll_ofRules (rules : List Rule)
    (h : ∀ c ∈ Rule.allCalls rules, cmp.asks c.selector) (a b : Nat)
    (hnumber : ∀ k < Rule.allRulesets rules, cmp.number (b + k) = a + k) :
    TrimsAll cmp ((ofRules rules).run a).1 ((ofRules rules).run b).1 :=
  trimsAll_ofRules_from rules h a b (fun n _ => Comparison.Total.meets n) hnumber

end Total

end Node

end Numbering

end Stylesheet
