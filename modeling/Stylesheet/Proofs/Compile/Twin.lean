import Stylesheet.Proofs.Compile.Search
import Stylesheet.Proofs.Node.Numbering
import Stylesheet.Proofs.Rule.Calls
import Mathlib.Order.Basic

/-!
# Two trees side by side

Two compilations are compared that differ in nothing that matters: in the numbers of
rulesets, in mixin definitions that no call can find, and in what frames hold besides
variables and mixins. Their trees correspond node by node.

Numbers are given out in both compilations as they go on. A pairing has the rules of all
numbers so far, and tells which numbers stand for corresponding rulesets. It only ever
grows, and what corresponds once corresponds from then on. Frames have numbers of their
own, which stand for no ruleset that could be found.
-/

namespace Stylesheet

/-- Two lists side by side. Related members stand beside each other, and the first list may have
spare members between them. -/
inductive Aligned {α : Type} (R : α → α → Prop) (S : α → Prop) : List α → List α → Prop
  | nil : Aligned R S [] []
  | both {a b : α} {l m : List α} (h : R a b) (rest : Aligned R S l m) :
      Aligned R S (a :: l) (b :: m)
  | spare {a : α} {l m : List α} (h : S a) (rest : Aligned R S l m) : Aligned R S (a :: l) m

namespace Aligned

variable {α β : Type} {R R' : α → α → Prop} {S S' : α → Prop} {l m l' m' : List α}

theorem mono (h : Aligned R S l m) (hR : ∀ a b, R a b → R' a b) (hS : ∀ a, S a → S' a) :
    Aligned R' S' l m := by
  induction h with
  | nil => exact .nil
  | both h _ ih => exact .both (hR _ _ h) ih
  | spare h _ ih => exact .spare (hS _ h) ih

theorem append (h : Aligned R S l m) (h' : Aligned R S l' m') :
    Aligned R S (l ++ l') (m ++ m') := by
  induction h with
  | nil => exact h'
  | both h _ ih => exact .both h ih
  | spare h _ ih => exact .spare h ih

theorem map {T : β → β → Prop} {U : β → Prop} {f g : α → β} (h : Aligned R S l m)
    (hR : ∀ a b, R a b → T (f a) (g b)) (hS : ∀ a, S a → U (f a)) :
    Aligned T U (l.map f) (m.map g) := by
  induction h with
  | nil => exact .nil
  | both h _ ih => exact .both (hR _ _ h) ih
  | spare h _ ih => exact .spare (hS _ h) ih

/-- Filters that agree on related members keep lists aligned. -/
theorem filter {p q : α → Bool} (h : Aligned R S l m) (hR : ∀ a b, R a b → p a = q b) :
    Aligned R S (l.filter p) (m.filter q) := by
  induction h with
  | nil => exact .nil
  | @both a b l m h _ ih =>
    rw [List.filter_cons, List.filter_cons, ← hR a b h]
    split
    · exact .both h ih
    · exact ih
  | @spare a l m h _ ih =>
    rw [List.filter_cons]
    split
    · exact .spare h ih
    · exact ih

/-- Every member of the first list is spare or has a related one beside it. -/
theorem mem_left (h : Aligned R S l m) {a : α} (ha : a ∈ l) : S a ∨ ∃ b ∈ m, R a b := by
  induction h with
  | nil => cases ha
  | @both c d l m h _ ih =>
    rcases List.mem_cons.1 ha with rfl | ha
    · exact .inr ⟨d, by simp, h⟩
    · exact (ih ha).imp_right fun ⟨b, hb, hR⟩ => ⟨b, by simp [hb], hR⟩
  | @spare c l m h _ ih =>
    rcases List.mem_cons.1 ha with rfl | ha
    · exact .inl h
    · exact ih ha

/-- Every member of the second list has a related one beside it. -/
theorem mem_right (h : Aligned R S l m) {b : α} (hb : b ∈ m) : ∃ a ∈ l, R a b := by
  induction h with
  | nil => cases hb
  | @both c d l m h _ ih =>
    rcases List.mem_cons.1 hb with rfl | hb
    · exact ⟨c, by simp, h⟩
    · obtain ⟨a, ha, hR⟩ := ih hb
      exact ⟨a, by simp [ha], hR⟩
  | @spare c l m h _ ih =>
    obtain ⟨a, ha, hR⟩ := ih hb
    exact ⟨a, by simp [ha], hR⟩

end Aligned

/-- The queries that are looked up. They were read or are what is left of such, and what is left of
one of them is one as well. -/
structure Queries where
  Has : Selector → Prop
  isQuery : ∀ {q : Selector}, Has q → q.IsQuery
  rest : ∀ {q : Selector} (count : Nat), Has q → Has (q.rest count)

/-- The queries that some calls come up with: their selectors, and what is left of these. -/
def Queries.ofCalls (calls : List MixinCall)
    (h : ∀ c ∈ calls, ∃ text, Selector.read text = .ok c.selector) : Queries where
  Has := fun q => ∃ c ∈ calls, ∃ count, q = c.selector.rest count
  isQuery := by
    rintro _ ⟨c, hc, count, rfl⟩
    obtain ⟨text, hread⟩ := h c hc
    exact (Selector.IsQuery.of_read hread).drop count
  rest := by
    rintro _ count ⟨c, hc, count', rfl⟩
    exact ⟨c, hc, count' + count, by simp [Selector.rest, Selector.derive, List.drop_drop]⟩

/-- The rules of the rulesets that were numbered in two compilations, and the pairs of numbers of
those that correspond. -/
structure Pairing where
  left : List (List Node)
  right : List (List Node)
  twins : List (Nat × Nat)
  lt_length : ∀ t ∈ twins, t.1 < left.length ∧ t.2 < right.length
  eq_iff_eq : ∀ t ∈ twins, ∀ u ∈ twins, t.1 = u.1 ↔ t.2 = u.2

namespace Pairing

/-- The second pairing goes on from the first: old numbers keep their rules and their partners. -/
structure Le (p q : Pairing) : Prop where
  left : p.left <+: q.left
  right : p.right <+: q.right
  twins : ∀ t ∈ p.twins, t ∈ q.twins
  fresh : ∀ t ∈ q.twins, t ∈ p.twins ∨ p.left.length ≤ t.1 ∧ p.right.length ≤ t.2

variable {p q r : Pairing}

theorem Le.trans (h : Le p q) (h' : Le q r) : Le p r where
  left := List.IsPrefix.trans h.left h'.left
  right := List.IsPrefix.trans h.right h'.right
  twins := fun t ht => h'.twins t (h.twins t ht)
  fresh := by
    intro t ht
    rcases h'.fresh t ht with ht | ⟨hleft, hright⟩
    · exact h.fresh t ht
    · exact .inr ⟨Nat.le_trans h.left.length_le hleft, Nat.le_trans h.right.length_le hright⟩

instance : Preorder Pairing where
  le := Le
  le_refl := fun _ => ⟨List.prefix_rfl, List.prefix_rfl, fun _ h => h, fun _ h => .inl h⟩
  le_trans := fun _ _ _ => Le.trans

/-- No numbers yet. -/
def empty : Pairing := ⟨[], [], [], by simp, by simp⟩

/-- More numbers, none of which have partners. -/
def add (p : Pairing) (left right : List (List Node)) : Pairing where
  left := p.left ++ left
  right := p.right ++ right
  twins := p.twins
  lt_length := by
    intro t ht
    have hlt := p.lt_length t ht
    simp only [List.length_append]
    omega
  eq_iff_eq := p.eq_iff_eq

/-- One more number on each side, which are partners. -/
def pair (p : Pairing) (left right : List Node) : Pairing where
  left := p.left ++ [left]
  right := p.right ++ [right]
  twins := (p.left.length, p.right.length) :: p.twins
  lt_length := by
    refine List.forall_mem_cons.2 ⟨by simp, fun t ht => ?_⟩
    have hlt := p.lt_length t ht
    simp only [List.length_append]
    omega
  eq_iff_eq := by
    have hnew : ∀ t ∈ p.twins, p.left.length = t.1 ↔ p.right.length = t.2 := by
      intro t ht
      have hlt := p.lt_length t ht
      constructor <;> (intro; omega)
    refine List.forall_mem_cons.2 ⟨List.forall_mem_cons.2 ⟨by simp, hnew⟩, fun t ht => ?_⟩
    exact List.forall_mem_cons.2 ⟨by rw [eq_comm, hnew t ht, eq_comm], p.eq_iff_eq t ht⟩

theorem le_add (p : Pairing) (left right : List (List Node)) : p ≤ p.add left right :=
  ⟨List.prefix_append _ _, List.prefix_append _ _, fun _ h => h, fun _ h => .inl h⟩

theorem le_pair (p : Pairing) (left right : List Node) : p ≤ p.pair left right where
  left := List.prefix_append _ _
  right := List.prefix_append _ _
  twins := fun t ht => List.mem_cons_of_mem _ ht
  fresh := by
    intro t ht
    rcases List.mem_cons.1 ht with rfl | ht
    · exact .inr ⟨Nat.le_refl _, Nat.le_refl _⟩
    · exact .inl ht

end Pairing

theorem Ruleset.Filed.mono {ledger ledger' : List (List Node)} (h : ledger <+: ledger')
    {r : Ruleset} (hr : r.Filed (ledger[·]?)) : r.Filed (ledger'[·]?) := by
  obtain ⟨more, rfl⟩ := h
  have hr' : ledger[r.serial]? = some r.rules := hr
  exact (List.getElem?_append_left (List.getElem?_eq_some_iff.1 hr').1).trans hr'

/-- A mixin definition that no query finds. -/
structure Node.Spare (queries : Queries) (ledger : List (List Node)) (n : Node) : Prop where
  definition : ∃ d, n = .definition d ∧
    ∀ q, queries.Has q → q.firstMatch? [d.signature.name] = none
  each : n.Each (Ruleset.Filed (ledger[·]?))

/-- Two lists of rules in which one sees the same variables, and mixins that are related. -/
structure SeenBy (queries : Queries) (p : Pairing) (R : Node → Node → Prop) (l m : List Node) :
    Prop where
  bindings : m.filterMap Node.binding? = l.filterMap Node.binding?
  search : ∀ q, queries.Has q → List.Forall₂ (fun c c' => R c.node c'.node)
    (Node.searchAll q l) (Node.searchAll q m)
  left : ∀ n ∈ l, n.Each (Ruleset.Filed (p.left[·]?))
  right : ∀ n ∈ m, n.Each (Ruleset.Filed (p.right[·]?))

/-- Two frames in which one sees the same, where `R` is the correspondence of what is found. Their
numbers are those of no rulesets that could be found. -/
structure Ruleset.FramesBy (queries : Queries) (p : Pairing) (R : Node → Node → Prop)
    (f g : Ruleset) : Prop where
  header : g.header = f.header
  source : Option.Rel (fun a b => (a, b) ∈ p.twins) f.source g.source
  left : f.Filed (p.left[·]?)
  right : g.Filed (p.right[·]?)
  single : ∀ t ∈ p.twins, t.1 ≠ f.serial ∧ t.2 ≠ g.serial
  seen : SeenBy queries p R f.rules g.rules

/-- The nodes correspond. Calls are among the given queries. The relation `R` stands for the
correspondence of what is inside. -/
inductive Node.Twin (queries : Queries) (p : Pairing) : Node → Node → Prop
  | declaration (d : Declaration) : Twin queries p (.declaration d) (.declaration d)
  | ruleset {r s : Ruleset} {R : Node → Node → Prop} (hR : ∀ a b, R a b → Twin queries p a b)
      (hrules : Aligned R (Spare queries p.left) r.rules s.rules)
      (hheader : s.header = r.header) (hserial : (r.serial, s.serial) ∈ p.twins)
      (hleft : r.Filed (p.left[·]?)) (hright : s.Filed (p.right[·]?)) :
      Twin queries p (.ruleset r) (.ruleset s)
  | definition {d e : Definition} {R : Node → Node → Prop}
      (hR : ∀ a b, R a b → Twin queries p a b)
      (hrules : Aligned R (Spare queries p.left) d.rules e.rules)
      (hsignature : e.signature = d.signature)
      (hclosure : Option.Rel (List.Forall₂ (Ruleset.FramesBy queries p R)) d.closure e.closure) :
      Twin queries p (.definition d) (.definition e)
  | call {c : MixinCall} (h : queries.Has c.selector) : Twin queries p (.call c) (.call c)
  | inclusion (i : Import) : Twin queries p (.inclusion i) (.inclusion i)
  | comment (c : Comment) : Twin queries p (.comment c) (.comment c)
  | media {head : MediaHead} {rules rules' : List Node} {R : Node → Node → Prop}
      (hR : ∀ a b, R a b → Twin queries p a b)
      (hrules : Aligned R (Spare queries p.left) rules rules') :
      Twin queries p (.media head rules) (.media head rules')
  | block (index : Nat) : Twin queries p (.block index) (.block index)
  | directive (head : DirectiveHead) : Twin queries p (.directive head none) (.directive head none)
  | directiveBlock {head : DirectiveHead} {rules rules' : List Node} {R : Node → Node → Prop}
      (hR : ∀ a b, R a b → Twin queries p a b)
      (hrules : Aligned R (Spare queries p.left) rules rules') :
      Twin queries p (.directive head (some rules)) (.directive head (some rules'))

/-- The lists of nodes correspond, up to mixin definitions that no query finds. -/
def Node.TwinAll (queries : Queries) (p : Pairing) : List Node → List Node → Prop :=
  Aligned (Node.Twin queries p) (Node.Spare queries p.left)

/-- In the lists of rules one sees the same. -/
abbrev Seen (queries : Queries) (p : Pairing) (l m : List Node) : Prop :=
  SeenBy queries p (Node.Twin queries p) l m

/-- The frames show the same. -/
abbrev Ruleset.TwinFrames (queries : Queries) (p : Pairing) (f g : Ruleset) : Prop :=
  Ruleset.FramesBy queries p (Node.Twin queries p) f g

/-- The rulesets correspond. -/
structure Ruleset.Twin (queries : Queries) (p : Pairing) (r s : Ruleset) : Prop where
  header : s.header = r.header
  serial : (r.serial, s.serial) ∈ p.twins
  left : r.Filed (p.left[·]?)
  right : s.Filed (p.right[·]?)
  rules : Node.TwinAll queries p r.rules s.rules

/-- The mixin definitions correspond. -/
structure Definition.Twin (queries : Queries) (p : Pairing) (d e : Definition) : Prop where
  signature : e.signature = d.signature
  rules : Node.TwinAll queries p d.rules e.rules
  closure : Option.Rel (List.Forall₂ (Ruleset.TwinFrames queries p)) d.closure e.closure

/-- The candidates correspond. -/
def Candidate.Twin (queries : Queries) (p : Pairing) (c c' : Candidate) : Prop :=
  Node.Twin queries p c.node c'.node

variable {queries : Queries} {p q : Pairing} {R R' : Node → Node → Prop} {n n' : Node}
  {l m l' m' : List Node} {f g : Ruleset}

section Growth

theorem optionRel_imp {α : Type} {P Q : α → α → Prop} {x y : Option α} (h : Option.Rel P x y)
    (hPQ : ∀ a b, P a b → Q a b) : Option.Rel Q x y := by
  cases h with
  | none => exact .none
  | some h => exact .some (hPQ _ _ h)

theorem Node.Each.grow {ledger ledger' : List (List Node)} (h : n.Each (Ruleset.Filed (ledger[·]?)))
    (hle : ledger <+: ledger') : n.Each (Ruleset.Filed (ledger'[·]?)) :=
  h.mono fun _ => .mono hle

theorem Node.Spare.grow {ledger ledger' : List (List Node)} (h : n.Spare queries ledger)
    (hle : ledger <+: ledger') : n.Spare queries ledger' := ⟨h.definition, h.each.grow hle⟩

theorem SeenBy.grow (h : SeenBy queries p R l m) (hle : p ≤ q) (hR : ∀ a b, R a b → R' a b) :
    SeenBy queries q R' l m where
  bindings := h.bindings
  search := fun query hquery => (h.search query hquery).imp fun _ _ => hR _ _
  left := fun n hn => (h.left n hn).grow hle.left
  right := fun n hn => (h.right n hn).grow hle.right

/-- Numbers of frames get no partners later on, since those that get partners are new. -/
theorem Ruleset.FramesBy.grow (h : f.FramesBy queries p R g) (hle : p ≤ q)
    (hR : ∀ a b, R a b → R' a b) : f.FramesBy queries q R' g where
  header := h.header
  source := optionRel_imp h.source fun _ _ ht => hle.twins _ ht
  left := h.left.mono hle.left
  right := h.right.mono hle.right
  single := by
    intro t ht
    rcases hle.fresh t ht with ht | ⟨hleft, hright⟩
    · exact h.single t ht
    · have hf : f.serial < p.left.length := (List.getElem?_eq_some_iff.1 h.left).1
      have hg : g.serial < p.right.length := (List.getElem?_eq_some_iff.1 h.right).1
      omega
  seen := h.seen.grow hle hR

/-- What corresponds once corresponds from then on. -/
theorem Node.Twin.grow (h : n.Twin queries p n') (hle : p ≤ q) : n.Twin queries q n' := by
  have hspare : ∀ n : Node, n.Spare queries p.left → n.Spare queries q.left :=
    fun n hn => hn.grow hle.left
  induction h with
  | declaration d => exact .declaration d
  | ruleset _ hrules hheader hserial hleft hright ih =>
    exact .ruleset ih (hrules.mono (fun _ _ h => h) hspare) hheader (hle.twins _ hserial)
      (hleft.mono hle.left) (hright.mono hle.right)
  | definition _ hrules hsignature hclosure ih =>
    refine .definition ih (hrules.mono (fun _ _ h => h) hspare) hsignature ?_
    exact optionRel_imp hclosure fun _ _ hframes =>
      hframes.imp fun _ _ h => h.grow hle fun _ _ h => h
  | call h => exact .call h
  | inclusion i => exact .inclusion i
  | comment c => exact .comment c
  | media _ hrules ih => exact .media ih (hrules.mono (fun _ _ h => h) hspare)
  | block index => exact .block index
  | directive head => exact .directive head
  | directiveBlock _ hrules ih => exact .directiveBlock ih (hrules.mono (fun _ _ h => h) hspare)

theorem Ruleset.TwinFrames.grow (h : f.TwinFrames queries p g) (hle : p ≤ q) :
    f.TwinFrames queries q g := FramesBy.grow h hle fun _ _ h => h.grow hle

theorem Node.Twin.of_ruleset {r s : Ruleset}
    (h : Node.Twin queries p (.ruleset r) (.ruleset s)) : r.Twin queries p s := by
  cases h with
  | ruleset hR hrules hheader hserial hleft hright =>
    exact ⟨hheader, hserial, hleft, hright, Aligned.mono hrules hR fun _ h => h⟩

theorem Ruleset.Twin.node {r s : Ruleset} (h : r.Twin queries p s) :
    Node.Twin queries p (.ruleset r) (.ruleset s) :=
  .ruleset (fun _ _ h => h) h.rules h.header h.serial h.left h.right

theorem Node.Twin.of_definition {d e : Definition}
    (h : Node.Twin queries p (.definition d) (.definition e)) : d.Twin queries p e := by
  cases h with
  | definition hR hrules hsignature hclosure =>
    refine ⟨hsignature, Aligned.mono hrules hR fun _ h => h, ?_⟩
    exact optionRel_imp hclosure fun _ _ hframes => hframes.imp fun _ _ h => h.grow le_rfl hR

theorem Definition.Twin.node {d e : Definition} (h : d.Twin queries p e) :
    Node.Twin queries p (.definition d) (.definition e) :=
  .definition (fun _ _ h => h) h.rules h.signature h.closure

/-- Candidates that correspond are of one kind. -/
theorem Candidate.Twin.cases {c c' : Candidate} (h : c.Twin queries p c') :
    (∃ r s, c = .ruleset r ∧ c' = .ruleset s ∧ r.Twin queries p s) ∨
      ∃ d e, c = .definition d ∧ c' = .definition e ∧ d.Twin queries p e := by
  cases c with
  | ruleset r =>
    cases c' with
    | ruleset s => exact .inl ⟨r, s, rfl, rfl, Node.Twin.of_ruleset h⟩
    | definition e => cases h
  | definition d =>
    cases c' with
    | ruleset s => cases h
    | definition e => exact .inr ⟨d, e, rfl, rfl, Node.Twin.of_definition h⟩

theorem Seen.grow (h : Seen queries p l m) (hle : p ≤ q) : Seen queries q l m :=
  SeenBy.grow h hle fun _ _ h => h.grow hle

theorem Node.TwinAll.grow (h : Node.TwinAll queries p l m) (hle : p ≤ q) :
    Node.TwinAll queries q l m :=
  Aligned.mono h (fun _ _ h => h.grow hle) fun _ h => h.grow hle.left

theorem Candidate.Twin.grow {c c' : Candidate} (h : c.Twin queries p c') (hle : p ≤ q) :
    c.Twin queries q c' := Node.Twin.grow h hle

end Growth

section Sight

theorem Node.Spare.binding? {ledger : List (List Node)} (h : n.Spare queries ledger) :
    n.binding? = none := by
  obtain ⟨d, rfl, -⟩ := h.definition
  rfl

theorem Node.Spare.search {ledger : List (List Node)} (h : n.Spare queries ledger)
    {query : Selector} (hquery : queries.Has query) : n.search query = [] := by
  obtain ⟨⟨signature, rules, closure⟩, rfl, hmatch⟩ := h.definition
  rw [Node.search, hmatch query hquery]

/-- Of corresponding nodes, either none or both are rulesets and so on: they are of one kind. -/
theorem Node.Twin.binding? (h : n.Twin queries p n') : n'.binding? = n.binding? := by
  cases h <;> rfl

theorem Node.Twin.each_left (h : n.Twin queries p n') : n.Each (Ruleset.Filed (p.left[·]?)) := by
  have hinside : ∀ {R : Node → Node → Prop} {l m : List Node},
      (∀ a b, R a b → a.Each (Ruleset.Filed (p.left[·]?))) → Aligned R (Spare queries p.left) l m →
        ∀ n ∈ l, n.Each (Ruleset.Filed (p.left[·]?)) := by
    intro R l m ih h n hn
    rcases h.mem_left hn with hspare | ⟨b, -, hR⟩
    · exact hspare.each
    · exact ih n b hR
  induction h with
  | ruleset _ hrules _ _ hleft _ ih => exact .ruleset hleft (hinside ih hrules)
  | definition _ hrules _ _ ih => exact .definition (hinside ih hrules)
  | _ => exact .other rfl

theorem Node.Twin.each_right (h : n.Twin queries p n') :
    n'.Each (Ruleset.Filed (p.right[·]?)) := by
  have hinside : ∀ {R : Node → Node → Prop} {l m : List Node},
      (∀ a b, R a b → b.Each (Ruleset.Filed (p.right[·]?))) →
        Aligned R (Spare queries p.left) l m →
          ∀ n ∈ m, n.Each (Ruleset.Filed (p.right[·]?)) := by
    intro R l m ih h n hn
    obtain ⟨a, -, hR⟩ := h.mem_right hn
    exact ih a n hR
  induction h with
  | ruleset _ hrules _ _ _ hright ih => exact .ruleset hright (hinside ih hrules)
  | definition _ hrules _ _ ih => exact .definition (hinside ih hrules)
  | _ => exact .other rfl

/-- Searches in lists whose members correspond find candidates that correspond. -/
theorem Aligned.search {query : Selector} (hquery : queries.Has query)
    (h : Aligned R (Node.Spare queries p.left) l m)
    (hR : ∀ a b, R a b →
      List.Forall₂ (Candidate.Twin queries p) (a.search query) (b.search query)) :
    List.Forall₂ (Candidate.Twin queries p) (Node.searchAll query l) (Node.searchAll query m) := by
  induction h with
  | nil => exact .nil
  | both h _ ih => exact List.rel_append (hR _ _ h) ih
  | spare h _ ih =>
    rw [Node.searchAll, h.search hquery]
    exact ih

theorem Node.Twin.search (h : n.Twin queries p n') {query : Selector}
    (hquery : queries.Has query) :
    List.Forall₂ (Candidate.Twin queries p) (n.search query) (n'.search query) := by
  induction h generalizing query with
  | @ruleset r s R hR hrules hheader hserial hleft hright ih =>
    have htwin : Node.Twin queries p (.ruleset r) (.ruleset s) :=
      .ruleset hR hrules hheader hserial hleft hright
    obtain ⟨serial, source, header, rules⟩ := r
    obtain ⟨serial', source', header', rules'⟩ := s
    obtain rfl : header' = header := hheader
    rw [Node.search, Node.search]
    split
    · exact .nil
    next count _ =>
      split
      · exact hrules.search (queries.rest count hquery) fun a b h =>
          ih a b h (queries.rest count hquery)
      · exact .cons htwin .nil
  | @definition d e R hR hrules hsignature hclosure ih =>
    have htwin : Node.Twin queries p (.definition d) (.definition e) :=
      .definition hR hrules hsignature hclosure
    obtain ⟨signature, rules, closure⟩ := d
    obtain ⟨signature', rules', closure'⟩ := e
    obtain rfl : signature' = signature := hsignature
    rw [Node.search, Node.search]
    split
    · exact .nil
    next count _ =>
      split
      · exact hrules.search (queries.rest count hquery) fun a b h =>
          ih a b h (queries.rest count hquery)
      · exact .cons htwin .nil
  | _ => exact .nil

/-- In lists that correspond one sees the same. -/
theorem Node.TwinAll.seen (h : Node.TwinAll queries p l m) :
    Seen queries p l m where
  bindings := by
    induction h with
    | nil => rfl
    | both h _ ih => rw [List.filterMap_cons, List.filterMap_cons, h.binding?, ih]
    | spare h _ ih => rw [ih, List.filterMap_cons, h.binding?]
  search := fun query hquery => Aligned.search hquery h fun a b hab => hab.search hquery
  left := by
    intro n hn
    rcases Aligned.mem_left h hn with hspare | ⟨b, -, hb⟩
    · exact hspare.each
    · exact hb.each_left
  right := by
    intro n hn
    obtain ⟨a, -, ha⟩ := Aligned.mem_right h hn
    exact ha.each_right

theorem Node.search_of_candidate?_eq_none (h : n.candidate? = none) (query : Selector) :
    n.search query = [] := by
  cases n with
  | ruleset r => cases h
  | definition d => cases h
  | _ => rfl

theorem Node.searchAll_append (query : Selector) (l m : List Node) :
    Node.searchAll query (l ++ m) = Node.searchAll query l ++ Node.searchAll query m := by
  induction l with
  | nil => rfl
  | cons n l ih => rw [List.cons_append, Node.searchAll, Node.searchAll, ih, List.append_assoc]

/-- A node in which one sees nothing. -/
structure Node.Unseen (queries : Queries) (ledger : List (List Node)) (n : Node) : Prop where
  binding? : n.binding? = none
  search : ∀ q, queries.Has q → n.search q = []
  each : n.Each (Ruleset.Filed (ledger[·]?))

theorem Node.Unseen.grow {ledger ledger' : List (List Node)} (h : n.Unseen queries ledger)
    (hle : ledger <+: ledger') : n.Unseen queries ledger' :=
  ⟨h.binding?, h.search, h.each.grow hle⟩

namespace SeenBy

theorem append (h : SeenBy queries p R l m) (h' : SeenBy queries p R l' m') :
    SeenBy queries p R (l ++ l') (m ++ m') where
  bindings := by rw [List.filterMap_append, List.filterMap_append, h.bindings, h'.bindings]
  search := by
    intro query hquery
    rw [Node.searchAll_append, Node.searchAll_append]
    exact List.rel_append (h.search query hquery) (h'.search query hquery)
  left := List.forall_mem_append.2 ⟨h.left, h'.left⟩
  right := List.forall_mem_append.2 ⟨h.right, h'.right⟩

/-- A node in which one sees nothing makes no difference. -/
theorem cons_unseen (h : SeenBy queries p R l m) (hn : n.Unseen queries p.left) :
    SeenBy queries p R (n :: l) m where
  bindings := by rw [List.filterMap_cons, hn.binding?, h.bindings]
  search := by
    intro query hquery
    rw [Node.searchAll, hn.search query hquery]
    exact h.search query hquery
  left := List.forall_mem_cons.2 ⟨hn.each, h.left⟩
  right := h.right

/-- A node may be replaced by another one in which one sees the same. -/
theorem replace (h : SeenBy queries p R (l ++ n :: l') m) (hbinding : n'.binding? = n.binding?)
    (hsearch : ∀ q, queries.Has q → n'.search q = n.search q)
    (heach : n'.Each (Ruleset.Filed (p.left[·]?))) : SeenBy queries p R (l ++ n' :: l') m where
  bindings := by
    rw [h.bindings, List.filterMap_append, List.filterMap_append, List.filterMap_cons,
      List.filterMap_cons, hbinding]
  search := by
    intro query hquery
    have hfound := h.search query hquery
    rw [Node.searchAll_append, Node.searchAll] at hfound ⊢
    rwa [hsearch query hquery]
  left := by
    obtain ⟨hl, hl'⟩ := List.forall_mem_append.1 h.left
    exact List.forall_mem_append.2
      ⟨hl, List.forall_mem_cons.2 ⟨heach, (List.forall_mem_cons.1 hl').2⟩⟩
  right := h.right

end SeenBy

theorem Ruleset.FramesBy.binding? (h : f.FramesBy queries p R g) (name : String) :
    g.binding? name = f.binding? name := by
  rw [Ruleset.binding?, Ruleset.binding?, Ruleset.bindings, Ruleset.bindings, h.seen.bindings]

end Sight

section Numbering

variable {α β : Type}

/-- From the pairing on, the two numberings lead to a pairing and results with `post`. -/
def Numbers (p : Pairing) (x y : StateM Nat α) (post : Pairing → α → α → Prop) : Prop :=
  ∃ q, p ≤ q ∧ (x.run p.left.length).2 = q.left.length ∧
    (y.run p.right.length).2 = q.right.length ∧
      post q (x.run p.left.length).1 (y.run p.right.length).1

namespace Numbers

variable {x y : StateM Nat α} {post : Pairing → α → α → Prop}

theorem pure {a b : α} (h : post p a b) : Numbers p (Pure.pure a) (Pure.pure b) post :=
  ⟨p, le_rfl, rfl, rfl, h⟩

theorem bind {z w : α → StateM Nat β} {post' : Pairing → β → β → Prop}
    (hx : Numbers p x y post)
    (hz : ∀ q a b, p ≤ q → post q a b → Numbers q (z a) (w b) post') :
    Numbers p (x >>= z) (y >>= w) post' := by
  obtain ⟨q, hle, hleft, hright, hpost⟩ := hx
  obtain ⟨r, hle', hleft', hright', hpost'⟩ := hz q _ _ hle hpost
  rw [← hleft] at hleft' hpost'
  rw [← hright] at hright' hpost'
  exact ⟨r, hle.trans hle', hleft', hright', hpost'⟩

end Numbers

/-- A ruleset gets its number before what is inside does. Its rules are filed under the number as
they are in the end, after a change that may follow. -/
theorem exists_twin_ruleset {x y : StateM Nat (List Node)} {k : List Node → List Node}
    (h : ∀ left right, Numbers (p.pair left right) x y fun q l m =>
      Node.TwinAll queries q (k l) (k m))
    (source source' : Option Nat) (header : Header) :
    ∃ q, p ≤ q ∧ (x.run (p.left.length + 1)).2 = q.left.length ∧
      (y.run (p.right.length + 1)).2 = q.right.length ∧
        Node.Twin queries q
          (.ruleset ⟨p.left.length, source, header, k (x.run (p.left.length + 1)).1⟩)
          (.ruleset ⟨p.right.length, source', header, k (y.run (p.right.length + 1)).1⟩) := by
  let left := k (x.run (p.left.length + 1)).1
  let right := k (y.run (p.right.length + 1)).1
  obtain ⟨q, hle, hleft, hright, hrules⟩ := h left right
  have hlength : (p.pair left right).left.length = p.left.length + 1 := by simp [Pairing.pair]
  have hlength' : (p.pair left right).right.length = p.right.length + 1 := by simp [Pairing.pair]
  rw [hlength] at hleft hrules
  rw [hlength'] at hright hrules
  refine ⟨q, (p.le_pair left right).trans hle, hleft, hright, ?_⟩
  refine .ruleset (fun _ _ h => h) hrules rfl (hle.twins _ (by simp [Pairing.pair])) ?_ ?_
  · exact Ruleset.Filed.mono hle.left (by simp [Ruleset.Filed, Pairing.pair, left])
  · exact Ruleset.Filed.mono hle.right (by simp [Ruleset.Filed, Pairing.pair, right])

mutual

/-- Rules that are numbered twice give nodes that correspond. -/
theorem Node.twin_ofRule : ∀ (rule : Rule), (∀ c ∈ rule.calls, queries.Has c.selector) →
    ∀ p : Pairing, Numbers p (ofRule rule) (ofRule rule) (Node.Twin queries)
  | .declaration d, _, p => ⟨p, le_rfl, rfl, rfl, .declaration d⟩
  | .ruleset header rules, h, p =>
    exists_twin_ruleset (k := id) (fun _ _ => twin_ofRules rules h _) none none header
  | .definition _ rules, h, p => (twin_ofRules rules h p).bind fun _ _ _ _ hrules =>
    .pure (.definition (fun _ _ h => h) hrules rfl .none)
  | .call c, h, p => ⟨p, le_rfl, rfl, rfl, .call (h c (by simp [Rule.calls]))⟩
  | .inclusion i, _, p => ⟨p, le_rfl, rfl, rfl, .inclusion i⟩
  | .comment c, _, p => ⟨p, le_rfl, rfl, rfl, .comment c⟩
  | .media _ rules, h, p => (twin_ofRules rules h p).bind fun _ _ _ _ hrules =>
    .pure (.media (fun _ _ h => h) hrules)
  | .directive head none, _, p => ⟨p, le_rfl, rfl, rfl, .directive head⟩
  | .directive _ (some rules), h, p => (twin_ofRules rules h p).bind fun _ _ _ _ hrules =>
    .pure (.directiveBlock (fun _ _ h => h) hrules)

theorem Node.twin_ofRules : ∀ (rules : List Rule),
    (∀ c ∈ Rule.allCalls rules, queries.Has c.selector) → ∀ p : Pairing,
      Numbers p (ofRules rules) (ofRules rules) (Node.TwinAll queries)
  | [], _, p => ⟨p, le_rfl, rfl, rfl, .nil⟩
  | rule :: rules, h, p => by
    obtain ⟨hrule, hrules⟩ := List.forall_mem_append.1 h
    refine (twin_ofRule rule hrule p).bind fun q n n' _ hn => ?_
    refine (twin_ofRules rules hrules q).bind fun r l m hle hl => .pure ?_
    exact .both (hn.grow hle) hl

end

/-- The nodes still correspond after they got new numbers, from any later pairing on, and were
marked as important. -/
def Node.Renewed (queries : Queries) (p : Pairing) (n n' : Node) : Prop :=
  ∀ q, p ≤ q → Numbers q (Node.renew n) (Node.renew n') fun r m m' =>
    (Node.markImportant m).Twin queries r (Node.markImportant m')

theorem Aligned.renew (h : Aligned R (Node.Spare queries p.left) l m)
    (hR : ∀ a b, R a b → a.Renewed queries p b) :
    ∀ q, p ≤ q → Numbers q (Node.renewAll l) (Node.renewAll m) fun r l m =>
      Node.TwinAll queries r (Node.markAllImportant l) (Node.markAllImportant m) := by
  induction h with
  | nil => exact fun q _ => .pure .nil
  | both h _ ih =>
    intro q hq
    refine (hR _ _ h q hq).bind fun r n n' hle hn => ?_
    refine (ih r (hq.trans hle)).bind fun t l m hle' hl => .pure ?_
    exact .both (hn.grow hle') hl
  | spare h _ ih =>
    intro q hq
    obtain ⟨d, rfl, -⟩ := h.definition
    obtain ⟨r, hle, hleft, hright, hl⟩ := ih q hq
    exact ⟨r, hle, hleft, hright, .spare (h.grow (hq.trans hle).left) hl⟩

theorem Node.Twin.renewed (h : n.Twin queries p n') : n.Renewed queries p n' := by
  induction h with
  | declaration d => exact fun q _ => .pure (.declaration _)
  | @ruleset r s R hR hrules hheader hserial hleft hright ih =>
    intro q hq
    obtain ⟨serial, source, header, rules⟩ := r
    obtain ⟨serial', source', header', rules'⟩ := s
    obtain rfl : header' = header := hheader
    exact exists_twin_ruleset (fun left right =>
      Aligned.renew hrules ih _ (hq.trans (q.le_pair left right))) source source' header'
  | @definition d e R hR hrules hsignature hclosure ih =>
    exact fun q hq => .pure (.grow (.definition hR hrules hsignature hclosure) hq)
  | call h => exact fun q _ => .pure (.call h)
  | inclusion i => exact fun q _ => .pure (.inclusion i)
  | comment c => exact fun q _ => .pure (.comment c)
  | media hR hrules ih =>
    exact fun q hq => (hrules.renew ih q hq).bind fun _ _ _ _ h =>
      .pure (.media (fun _ _ h => h) h)
  | block index => exact fun q _ => .pure (.block index)
  | directive head => exact fun q _ => .pure (.directive head)
  | directiveBlock hR hrules ih =>
    exact fun q hq => (hrules.renew ih q hq).bind fun _ _ _ _ h =>
      .pure (.directiveBlock (fun _ _ h => h) h)

end Numbering

end Stylesheet
