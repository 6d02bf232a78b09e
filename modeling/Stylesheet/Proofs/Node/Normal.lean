import Stylesheet.Proofs.Node.Sound

/-!
# Nodes in normal form

A node in normal form has nothing left to compile. It has no mixin call, its values
refer to no variable, its selectors have their holes filled, and its mixin definitions
have hold of the frames around them. What is in the rules of a definition is left as it
was. Imports are left only for the reader of the output, provided that imports are lenient.

Imports are lenient as long as no ruleset is strict about them. Since rules come from
many places, this is asked of everything that can be reached: through the rules of
definitions, the frames that they have hold of, and the blocks that are referred to.
-/

namespace Stylesheet

/-- What can be reached: blocks and rulesets, by their numbers. -/
structure Reach where
  block : Nat → Prop
  ruleset : Nat → Prop

/-- Rules without a ruleset that is strict about imports. -/
def Fit.lenient : Fit where
  header := fun h => h.strictImports = false
  rules := fun _ => True
  course := .any

namespace Node

/-- The node is in normal form, and refers only to blocks with the property. -/
inductive Normal (lenient : Prop) (block : Nat → Prop) : Node → Prop
  | declaration {d : Declaration} (hvalue : d.value.isResolved = true) :
      Normal lenient block (.declaration d)
  | ruleset {r : Ruleset} (hselectors : ∀ s ∈ r.header.selectors, s.evaluated = true)
      (hrules : ∀ n ∈ r.rules, Normal lenient block n) : Normal lenient block (.ruleset r)
  | definition {d : Definition} (hclosure : d.closure.isSome = true) :
      Normal lenient block (.definition d)
  | inclusion {i : Import} (hcss : lenient → i.css = true) : Normal lenient block (.inclusion i)
  | comment (c : Comment) : Normal lenient block (.comment c)
  | media {head : MediaHead} {rules : List Node} (hrules : ∀ n ∈ rules, Normal lenient block n) :
      Normal lenient block (.media head rules)
  | block {index : Nat} (hindex : block index) : Normal lenient block (.block index)
  | directive {head : DirectiveHead} {rules : Option (List Node)}
      (hrules : ∀ body, rules = some body → ∀ n ∈ body, Normal lenient block n) :
      Normal lenient block (.directive head rules)

/-- No ruleset in the node is strict about imports, and it leads only to what is within reach. -/
inductive Lenient (reach : Reach) : Node → Prop
  | declaration (d : Declaration) : Lenient reach (.declaration d)
  | ruleset {r : Ruleset} (hserial : reach.ruleset r.serial)
      (hheader : r.header.strictImports = false) (hrules : ∀ n ∈ r.rules, Lenient reach n) :
      Lenient reach (.ruleset r)
  | definition {d : Definition} (hrules : ∀ n ∈ d.rules, Lenient reach n)
      (hserials : ∀ frames, d.closure = some frames → ∀ frame ∈ frames, reach.ruleset frame.serial)
      (hframes : ∀ frames, d.closure = some frames →
        ∀ frame ∈ frames, ∀ n ∈ frame.rules, Lenient reach n) : Lenient reach (.definition d)
  | call (c : MixinCall) : Lenient reach (.call c)
  | inclusion (i : Import) : Lenient reach (.inclusion i)
  | comment (c : Comment) : Lenient reach (.comment c)
  | media {head : MediaHead} {rules : List Node} (hrules : ∀ n ∈ rules, Lenient reach n) :
      Lenient reach (.media head rules)
  | block {index : Nat} (hindex : reach.block index) : Lenient reach (.block index)
  | directive {head : DirectiveHead} {rules : Option (List Node)}
      (hrules : ∀ body, rules = some body → ∀ n ∈ body, Lenient reach n) :
      Lenient reach (.directive head rules)

variable {lenient : Prop} {block : Nat → Prop} {reach : Reach} {n : Node} {nodes : List Node}

section Numbering

theorem lenient_ofRule {rule : Rule} (h : rule.Fits .lenient) {start : Nat}
    (hreach : ∀ serial, start ≤ serial → reach.ruleset serial) :
    ∀ next, start ≤ next → ((ofRule rule).run next).1.Lenient reach := by
  induction h with
  | declaration d => exact fun _ _ => .declaration d
  | ruleset hheader _ _ ih =>
    intro next hnext
    exact .ruleset (hreach next hnext) hheader (forall_ofRules ih (Nat.le_succ_of_le hnext))
  | definition _ _ ih =>
    intro next hnext
    refine .definition (forall_ofRules ih hnext) ?_ ?_
    · rintro frames ⟨⟩
    · rintro frames ⟨⟩
  | call c => exact fun _ _ => .call c
  | inclusion i => exact fun _ _ => .inclusion i
  | comment c => exact fun _ _ => .comment c
  | media _ _ ih => exact fun next hnext => .media (forall_ofRules ih hnext)
  | @directive head rules _ _ ih =>
    intro next hnext
    cases rules with
    | none => exact .directive fun body hbody => by cases hbody
    | some rules =>
      refine .directive ?_
      rintro body ⟨⟩
      exact forall_ofRules (ih rules rfl) hnext

theorem Lenient.renew (h : n.Lenient reach) {start : Nat}
    (hreach : ∀ serial, start ≤ serial → reach.ruleset serial) :
    ∀ next, start ≤ next → ((Node.renew n).run next).1.Lenient reach := by
  induction h with
  | @ruleset r _ hheader _ ih =>
    intro next hnext
    obtain ⟨serial, source, header, rules⟩ := r
    exact .ruleset (hreach next hnext) hheader (forall_renewAll_of_le ih (Nat.le_succ_of_le hnext))
  | media _ ih => exact fun next hnext => .media (forall_renewAll_of_le ih hnext)
  | @directive head rules hrules ih =>
    intro next hnext
    cases rules with
    | none => exact .directive hrules
    | some rules =>
      refine .directive ?_
      rintro body ⟨⟩
      exact forall_renewAll_of_le (ih rules rfl) hnext
  | declaration d => exact fun _ _ => .declaration d
  | definition hrules hserials hframes => exact fun _ _ => .definition hrules hserials hframes
  | call c => exact fun _ _ => .call c
  | inclusion i => exact fun _ _ => .inclusion i
  | comment c => exact fun _ _ => .comment c
  | block hindex => exact fun _ _ => .block hindex

/-- New numbers do not matter for the normal form. -/
theorem Normal.renew (h : n.Normal lenient block) (next : Nat) :
    ((Node.renew n).run next).1.Normal lenient block := by
  induction h generalizing next with
  | @ruleset r hselectors _ ih =>
    obtain ⟨serial, source, header, rules⟩ := r
    exact .ruleset hselectors (forall_renewAll ih _)
  | media _ ih => exact .media (forall_renewAll ih _)
  | @directive head rules hrules ih =>
    cases rules with
    | none => exact .directive hrules
    | some rules =>
      refine .directive ?_
      rintro body ⟨⟩
      exact forall_renewAll (ih rules rfl) _
  | declaration hvalue => exact .declaration hvalue
  | definition hclosure => exact .definition hclosure
  | inclusion hcss => exact .inclusion hcss
  | comment c => exact .comment c
  | block hindex => exact .block hindex

end Numbering

section Marking

theorem Lenient.markImportant (h : n.Lenient reach) : n.markImportant.Lenient reach := by
  induction h with
  | @ruleset r hserial hheader _ ih =>
    obtain ⟨serial, source, header, rules⟩ := r
    exact .ruleset hserial hheader (forall_markAllImportant ih)
  | media _ ih => exact .media (forall_markAllImportant ih)
  | @directive head rules hrules ih =>
    cases rules with
    | none => exact .directive hrules
    | some rules =>
      refine .directive ?_
      rintro body ⟨⟩
      exact forall_markAllImportant (ih rules rfl)
  | declaration d => exact .declaration _
  | definition hrules hserials hframes => exact .definition hrules hserials hframes
  | call c => exact .call c
  | inclusion i => exact .inclusion i
  | comment c => exact .comment c
  | block hindex => exact .block hindex

theorem Normal.markImportant (h : n.Normal lenient block) :
    n.markImportant.Normal lenient block := by
  induction h with
  | @ruleset r hselectors _ ih =>
    obtain ⟨serial, source, header, rules⟩ := r
    exact .ruleset hselectors (forall_markAllImportant ih)
  | media _ ih => exact .media (forall_markAllImportant ih)
  | @directive head rules hrules ih =>
    cases rules with
    | none => exact .directive hrules
    | some rules =>
      refine .directive ?_
      rintro body ⟨⟩
      exact forall_markAllImportant (ih rules rfl)
  | declaration hvalue => exact .declaration hvalue
  | definition hclosure => exact .definition hclosure
  | inclusion hcss => exact .inclusion hcss
  | comment c => exact .comment c
  | block hindex => exact .block hindex

end Marking

section Inlining

theorem mem_inlineAll_iff {contents : List Node} {m : Node} :
    m ∈ inlineAll contents nodes ↔ ∃ n ∈ nodes, n.inline contents = m := by
  induction nodes with
  | nil => simp [inlineAll]
  | cons n nodes ih => simp [inlineAll, ih, eq_comm]

/-- Writing out blocks in normal form keeps the normal form. -/
theorem Normal.inline {contents : List Node} (h : n.Normal lenient block)
    (hcontents : ∀ index m, block index → contents[index]? = some m → m.Normal lenient block) :
    (n.inline contents).Normal lenient block := by
  have hall : ∀ {nodes : List Node}, (∀ n ∈ nodes, (n.inline contents).Normal lenient block) →
      ∀ m ∈ inlineAll contents nodes, m.Normal lenient block := by
    intro nodes hnodes m hm
    obtain ⟨n, hn, rfl⟩ := mem_inlineAll_iff.1 hm
    exact hnodes n hn
  induction h with
  | @ruleset r hselectors _ ih =>
    obtain ⟨serial, source, header, rules⟩ := r
    exact .ruleset hselectors (hall ih)
  | media _ ih => exact .media (hall ih)
  | @directive head rules hrules ih =>
    cases rules with
    | none => exact .directive hrules
    | some rules =>
      refine .directive ?_
      rintro body ⟨⟩
      exact hall (ih rules rfl)
  | @block index hindex =>
    rw [Node.inline]
    cases hget : contents[index]? with
    | none => exact .block hindex
    | some m => exact hcontents index m hindex hget
  | declaration hvalue => exact .declaration hvalue
  | definition hclosure => exact .definition hclosure
  | inclusion hcss => exact .inclusion hcss
  | comment c => exact .comment c

end Inlining

end Node

/-- What a candidate expands to is lenient about imports. -/
def Candidate.Lenient (reach : Reach) : Candidate → Prop
  | .ruleset r => (Node.ruleset r).Lenient reach
  | .definition d => (Node.definition d).Lenient reach

theorem Candidate.Lenient.rules {reach : Reach} {c : Candidate} (h : c.Lenient reach) :
    ∀ n ∈ c.rules, n.Lenient reach := by
  cases c with
  | ruleset r =>
    cases h with
    | ruleset _ _ hrules => exact hrules
  | definition d =>
    cases h with
    | definition hrules _ _ => exact hrules

theorem Candidate.Lenient.closure {reach : Reach} {c : Candidate} (h : c.Lenient reach) :
    ∀ frame ∈ c.closure, reach.ruleset frame.serial ∧ ∀ n ∈ frame.rules, n.Lenient reach := by
  cases c with
  | ruleset r =>
    intro frame hframe
    cases hframe
  | definition d =>
    cases h with
    | definition _ hserials hframes =>
      intro frame hframe
      rw [Candidate.closure] at hframe
      cases hclosure : d.closure with
      | none =>
        rw [hclosure] at hframe
        cases hframe
      | some frames =>
        rw [hclosure] at hframe
        exact ⟨hserials frames hclosure frame hframe, hframes frames hclosure frame hframe⟩

end Stylesheet
