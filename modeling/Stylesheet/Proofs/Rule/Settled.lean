import Stylesheet.Proofs.Rule.Joined

/-!
# Rules that were compiled, beside their source

Rules without mixin calls and imports keep their shape when they are compiled. Values and
selectors are filled in, and the content of each media block is wrapped in the selectors of all
rulesets around the block, from the outermost on. These selectors are the chain of the block; it
goes on through other media blocks and at-rules.

`Settled` relates such rules to what they are compiled to, and `Restored` to what that is once its
selectors are joined: each wrapper of a media block then has the paths that its selectors have
after those of the wrappers around it.
-/

namespace Stylesheet

namespace Rule

/-- The selectors of a ruleset as a chain, in which rulesets without selectors do not show. -/
def link (selectors : List Selector) : List (List Selector) :=
  if selectors.isEmpty then [] else [selectors]

/-- Rules in rulesets that stand inside each other, each alone in the one around it. -/
def wrapAll : List (List Selector) → List Rule → List Rule
  | [], rules => rules
  | selectors :: chain, rules => [.ruleset { selectors } (wrapAll chain rules)]

mutual

/-- Wrap the content of every media block in a rule, outside of mixin definitions. -/
def bubble (selectors : List Selector) : Rule → Rule
  | .ruleset header rules => .ruleset header (bubbleAll selectors rules)
  | .media head rules => .media head [.ruleset { selectors } (bubbleAll selectors rules)]
  | .directive head (some rules) => .directive head (some (bubbleAll selectors rules))
  | rule => rule

/-- Wrap the content of every media block in some rules. -/
def bubbleAll (selectors : List Selector) : List Rule → List Rule
  | [] => []
  | rule :: rules => bubble selectors rule :: bubbleAll selectors rules

end

mutual

/-- Whether a rule needs no mixin and no import, outside of mixin definitions. -/
def standsAlone : Rule → Bool
  | .ruleset _ rules | .media _ rules => allStandAlone rules
  | .directive _ (some rules) => allStandAlone rules
  | .call _ | .inclusion _ => false
  | .declaration _ | .definition .. | .comment _ | .directive _ none => true

/-- Whether some rules need no mixin and no import. -/
def allStandAlone : List Rule → Bool
  | [] => true
  | rule :: rules => standsAlone rule && allStandAlone rules

end

/-- The rules on the right are compiled from those on the left, inside rulesets with the given
chain. Selectors are not joined yet. -/
inductive Settled : List (List Selector) → List Rule → List Rule → Prop where
  | nil {chain : List (List Selector)} : Settled chain [] []
  | declaration {chain : List (List Selector)} {rules settled : List Rule} {d d' : Declaration}
      (sc : Scope) (hvalue : sc.declaration d = .ok d') (hrest : Settled chain rules settled) :
      Settled chain (.declaration d :: rules) (.declaration d' :: settled)
  | ruleset {chain : List (List Selector)} {rules settled body inside : List Rule}
      {header : Header} {selectors : List Selector} (sc : Scope)
      (hselectors : header.selectors.mapM sc.selector = .ok selectors)
      (hbody : Settled (chain ++ link selectors) body inside)
      (hrest : Settled chain rules settled) :
      Settled chain (.ruleset header body :: rules)
        (.ruleset { header with selectors, paths := [] } inside :: settled)
  | definition {chain : List (List Selector)} {rules settled : List Rule} (signature : Signature)
      (body : List Rule) (hrest : Settled chain rules settled) :
      Settled chain (.definition signature body :: rules) (.definition signature body :: settled)
  | comment {chain : List (List Selector)} {rules settled : List Rule} (c : Comment)
      (hrest : Settled chain rules settled) :
      Settled chain (.comment c :: rules) (.comment c :: settled)
  | media {chain : List (List Selector)} {rules settled body inside : List Rule} (head : MediaHead)
      (hbody : Settled chain body inside) (hrest : Settled chain rules settled) :
      Settled chain (.media head body :: rules) (.media head (wrapAll chain inside) :: settled)
  | directive {chain : List (List Selector)} {rules settled : List Rule} (head : DirectiveHead)
      (hrest : Settled chain rules settled) :
      Settled chain (.directive head none :: rules) (.directive head none :: settled)
  | directiveBlock {chain : List (List Selector)} {rules settled body inside : List Rule}
      (head : DirectiveHead) (hbody : Settled chain body inside)
      (hrest : Settled chain rules settled) :
      Settled chain (.directive head (some body) :: rules)
        (.directive head (some inside) :: settled)

section Bubbling

variable {chain : List (List Selector)} {selectors : List Selector}
variable {rules settled rules' settled' : List Rule}

theorem bubbleAll_wrapAll (chain : List (List Selector)) (rules : List Rule) :
    bubbleAll selectors (wrapAll chain rules) = wrapAll chain (bubbleAll selectors rules) := by
  induction chain with
  | nil => rfl
  | cons link chain ih => rw [wrapAll, bubbleAll, bubble, ih, bubbleAll, wrapAll]

/-- Bubbling puts a link in front of the chain. -/
theorem Settled.bubbleAll (h : Settled chain rules settled) (selectors : List Selector) :
    Settled (selectors :: chain) rules (bubbleAll selectors settled) := by
  induction h with
  | nil => exact .nil
  | declaration sc hvalue _ ih => exact .declaration sc hvalue ih
  | ruleset sc hselectors _ _ ihbody ih => exact .ruleset sc hselectors ihbody ih
  | definition signature body _ ih => exact .definition signature body ih
  | comment c _ ih => exact .comment c ih
  | media head _ _ ihbody ih =>
    rw [Rule.bubbleAll, bubble, bubbleAll_wrapAll]
    exact .media head ihbody ih
  | directive head _ ih => exact .directive head ih
  | directiveBlock head _ _ ihbody ih => exact .directiveBlock head ihbody ih

theorem Settled.append (h : Settled chain rules settled) (h' : Settled chain rules' settled') :
    Settled chain (rules ++ rules') (settled ++ settled') := by
  induction h with
  | nil => exact h'
  | declaration sc hvalue _ ih => exact .declaration sc hvalue (ih h')
  | ruleset sc hselectors hbody _ _ ih => exact .ruleset sc hselectors hbody (ih h')
  | definition signature body _ ih => exact .definition signature body (ih h')
  | comment c _ ih => exact .comment c (ih h')
  | media head hbody _ _ ih => exact .media head hbody (ih h')
  | directive head _ ih => exact .directive head (ih h')
  | directiveBlock head hbody _ _ ih => exact .directiveBlock head hbody (ih h')

end Bubbling

/-- The content on the right is the body on the left in rulesets inside each other, one for each
link of the chain. Each of them is alone in the one around it and has the paths of its selectors in
the context of the paths around it, of which the outermost are the ones given first. The paths
given last are the context of the body. -/
inductive Wrapped :
    List Path → List (List Selector) → List Path → List Rule → List Rule → Prop where
  | nil {context : List Path} {body : List Rule} : Wrapped context [] context body body
  | cons {context paths inner : List Path} {selectors : List Selector}
      {chain : List (List Selector)} {body content : List Rule}
      (hjoin : Path.join context selectors = .ok paths)
      (hinner : Wrapped paths chain inner body content) :
      Wrapped context (selectors :: chain) inner body [.ruleset { selectors, paths } content]

/-- The rules on the right are compiled and joined from those on the left, inside rulesets with the
given chain and in the given context. The content of a media block is its own compiled body in the
wrappers of its chain. -/
inductive Restored : List (List Selector) → List Path → List Rule → List Rule → Prop where
  | nil {chain : List (List Selector)} {context : List Path} : Restored chain context [] []
  | declaration {chain : List (List Selector)} {context : List Path} {rules restored : List Rule}
      {d d' : Declaration} (sc : Scope) (hvalue : sc.declaration d = .ok d')
      (hrest : Restored chain context rules restored) :
      Restored chain context (.declaration d :: rules) (.declaration d' :: restored)
  | ruleset {chain : List (List Selector)} {context paths inner : List Path}
      {rules restored body inside : List Rule} {header : Header} {selectors : List Selector}
      (sc : Scope) (hselectors : header.selectors.mapM sc.selector = .ok selectors)
      (hjoin : ({ header with selectors } : Header).join context = .ok (paths, inner))
      (hbody : Restored (chain ++ link selectors) inner body inside)
      (hrest : Restored chain context rules restored) :
      Restored chain context (.ruleset header body :: rules)
        (.ruleset { header with selectors, paths } inside :: restored)
  | definition {chain : List (List Selector)} {context : List Path} {rules restored : List Rule}
      (signature : Signature) (body : List Rule) (hrest : Restored chain context rules restored) :
      Restored chain context (.definition signature body :: rules)
        (.definition signature body :: restored)
  | comment {chain : List (List Selector)} {context : List Path} {rules restored : List Rule}
      (c : Comment) (hrest : Restored chain context rules restored) :
      Restored chain context (.comment c :: rules) (.comment c :: restored)
  | media {chain : List (List Selector)} {context inner : List Path}
      {rules restored body inside content : List Rule} (head : MediaHead)
      (hwrapped : Wrapped [] chain inner inside content)
      (hbody : Restored chain inner body inside) (hrest : Restored chain context rules restored) :
      Restored chain context (.media head body :: rules) (.media head content :: restored)
  | directive {chain : List (List Selector)} {context : List Path} {rules restored : List Rule}
      (head : DirectiveHead) (hrest : Restored chain context rules restored) :
      Restored chain context (.directive head none :: rules) (.directive head none :: restored)
  | directiveBlock {chain : List (List Selector)} {context : List Path}
      {rules restored body inside : List Rule} (head : DirectiveHead)
      (hbody : Restored chain [] body inside) (hrest : Restored chain context rules restored) :
      Restored chain context (.directive head (some body) :: rules)
        (.directive head (some inside) :: restored)

section Joining

variable {chain : List (List Selector)} {context : List Path} {rules settled joined : List Rule}

theorem link_ne_nil {selectors : List Selector} : ∀ l ∈ link selectors, l ≠ [] := by
  unfold link
  split
  · intro l hl
    cases hl
  · rename_i h
    exact List.forall_mem_singleton.2 (by simpa using h)

/-- Joining wrapped rules gives each wrapper the paths of its selectors after those around it. -/
theorem wrapped_of_joinAll (hchain : ∀ selectors ∈ chain, selectors ≠ [])
    (h : joinAll context (wrapAll chain rules) = .ok joined) :
    ∃ inner inside, Wrapped context chain inner inside joined ∧
      joinAll inner rules = .ok inside := by
  induction chain generalizing context joined with
  | nil => exact ⟨context, joined, .nil, h⟩
  | cons selectors chain ih =>
    obtain ⟨hselectors, hchain⟩ := List.forall_mem_cons.1 hchain
    obtain ⟨wrapper, rest, hwrapper, hrest, rfl⟩ := joinAll_cons_eq_ok_iff.1 h
    obtain ⟨⟩ := hrest
    obtain ⟨paths, inner, content, hjoin, hcontent, rfl⟩ := join_ruleset_eq_ok_iff.1 hwrapper
    rcases Header.join_cases hjoin with ⟨hnone, -, -⟩ | ⟨-, hpaths, rfl⟩
    · exact absurd hnone (by simpa using hselectors)
    · obtain ⟨inner, inside, hwrapped, hinside⟩ := ih hchain hcontent
      exact ⟨inner, inside, .cons hpaths hwrapped, hinside⟩

/-- Settled rules whose selectors are joined are restored. -/
theorem Settled.restored (h : Settled chain rules settled)
    (hchain : ∀ selectors ∈ chain, selectors ≠ [])
    (hjoin : joinAll context settled = .ok joined) : Restored chain context rules joined := by
  induction h generalizing context joined with
  | nil =>
    obtain ⟨⟩ := hjoin
    exact .nil
  | declaration sc hvalue _ ih =>
    obtain ⟨_, rest, ⟨⟩, hrest, rfl⟩ := joinAll_cons_eq_ok_iff.1 hjoin
    exact .declaration sc hvalue (ih hchain hrest)
  | ruleset sc hselectors _ _ ihbody ih =>
    obtain ⟨_, rest, hrule, hrest, rfl⟩ := joinAll_cons_eq_ok_iff.1 hjoin
    obtain ⟨paths, inner, inside, hpaths, hinside, rfl⟩ := join_ruleset_eq_ok_iff.1 hrule
    refine .ruleset sc hselectors hpaths (ihbody ?_ hinside) (ih hchain hrest)
    exact List.forall_mem_append.2 ⟨hchain, link_ne_nil⟩
  | definition signature body _ ih =>
    obtain ⟨_, rest, ⟨⟩, hrest, rfl⟩ := joinAll_cons_eq_ok_iff.1 hjoin
    exact .definition signature body (ih hchain hrest)
  | comment c _ ih =>
    obtain ⟨_, rest, ⟨⟩, hrest, rfl⟩ := joinAll_cons_eq_ok_iff.1 hjoin
    exact .comment c (ih hchain hrest)
  | media head _ _ ihbody ih =>
    obtain ⟨_, rest, hrule, hrest, rfl⟩ := joinAll_cons_eq_ok_iff.1 hjoin
    obtain ⟨content, hcontent, rfl⟩ := join_media_eq_ok_iff.1 hrule
    obtain ⟨inner, inside, hwrapped, hinside⟩ := wrapped_of_joinAll hchain hcontent
    exact .media head hwrapped (ihbody hchain hinside) (ih hchain hrest)
  | directive head _ ih =>
    obtain ⟨_, rest, ⟨⟩, hrest, rfl⟩ := joinAll_cons_eq_ok_iff.1 hjoin
    exact .directive head (ih hchain hrest)
  | directiveBlock head _ _ ihbody ih =>
    obtain ⟨_, rest, hrule, hrest, rfl⟩ := joinAll_cons_eq_ok_iff.1 hjoin
    obtain ⟨inside, hinside, rfl⟩ := join_directive_eq_ok_iff.1 hrule
    exact .directiveBlock head (ihbody hchain hinside) (ih hchain hrest)

end Joining

end Rule

end Stylesheet
