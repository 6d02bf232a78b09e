import Stylesheet.Proofs.Compile.Extent
import Stylesheet.Proofs.Compile.Unused
import Stylesheet.Proofs.Node.Reading

/-!
# Compilations that go on from other stores

Two stores have grown from one start. Since then they may have given out different amounts of
numbers, and the blocks that were added may differ, as long as they are equally high. A scope of
the start cannot tell the two apart. What it leads to is older than the numbers and the blocks
that differ, so a compilation in it runs in lockstep from both stores, and leads to nodes that
read alike.
-/

namespace Stylesheet

variable {start reached : Extent} {count limit : Nat} {n m : Node} {l l' : List Node}

/-- A compilation goes on from two stores that have grown from one start. The second one has reached
the given extent, and the first one has given out `count` more numbers. -/
def Comparison.resuming (start reached : Extent) (count limit : Nat) : Comparison where
  asks _ := True
  asks_rest _ _ := trivial
  number := numberPast reached.rulesets count
  injective := numberPast_injective reached.rulesets count
  limit := limit
  limit' := limit
  limit_le := Nat.le_refl limit
  trims := False
  meets := fun serial => serial < start.rulesets ∨ reached.rulesets ≤ serial
  hides := fun index => start.blocks ≤ index ∧ index < reached.blocks

namespace Comparison

variable {serial : Nat}

theorem number_resuming_of_lt (hle : start ≤ reached) (h : serial < start.rulesets) :
    (resuming start reached count limit).number serial = serial :=
  if_pos (Nat.lt_of_lt_of_le h hle.1)

theorem number_resuming_of_le (h : reached.rulesets ≤ serial) :
    (resuming start reached count limit).number serial = serial + count := if_neg (Nat.not_lt.2 h)

end Comparison

section Old

theorem Aligned.of_forall {α : Type} {R : α → α → Prop} {S : α → Prop} {l : List α}
    (h : ∀ a ∈ l, R a a) : Aligned R S l l := by
  induction l with
  | nil => exact .nil
  | cons a l ih =>
    obtain ⟨ha, hl⟩ := List.forall_mem_cons.1 h
    exact .both ha (ih hl)

variable (count limit) in
theorem Ruleset.NumberedBelow.trimsBy (hle : start ≤ reached) {r : Ruleset}
    (h : r.NumberedBelow start.rulesets) {R : Node → Node → Prop} (hrules : ∀ n ∈ r.rules, R n n) :
    r.TrimsBy (.resuming start reached count limit) R r where
  header := rfl
  serial := (Comparison.number_resuming_of_lt hle h.serial).symm
  met := .inl h.serial
  source := by
    cases hsource : r.source with
    | none => rfl
    | some serial =>
      exact congrArg some (Comparison.number_resuming_of_lt hle (h.source serial hsource)).symm
  rules := Aligned.of_forall hrules

variable (count limit) in
/-- What was there at the start is the same on both sides. -/
theorem Node.Within.trimsTo (hle : start ≤ reached) (h : n.Within start) :
    n.TrimsTo (.resuming start reached count limit) n := by
  induction h with
  | declaration d => exact .declaration d
  | ruleset hr _ ih => exact .ruleset (fun _ _ h => h) (hr.trimsBy count limit hle ih)
  | @definition d _ hclosure _ ih ihframes =>
    refine .definition (fun _ _ h => h) rfl (Aligned.of_forall ih) ?_
    cases hd : d.closure with
    | none => exact .none
    | some frames =>
      refine .some (List.forall₂_same.2 fun frame hframe => ?_)
      exact (hclosure frames hd frame hframe).trimsBy count limit hle
        (ihframes frames hd frame hframe)
  | call c => exact .call trivial
  | inclusion i => exact .inclusion i
  | comment c => exact .comment c
  | media _ ih => exact .media (fun _ _ h => h) (Aligned.of_forall ih)
  | block hindex => exact .block fun h => Nat.not_lt.2 h.1 hindex
  | @directive head rules _ ih =>
    cases rules with
    | none => exact .directive head
    | some rules => exact .directiveBlock (fun _ _ h => h) (Aligned.of_forall (ih rules rfl))

/-- Nothing is left out where no definition may be. -/
theorem Aligned.forall₂_of_not_trims {cmp : Comparison} {R : Node → Node → Prop}
    (hcmp : ¬cmp.trims) (h : Aligned R (Node.Unused cmp) l l') : List.Forall₂ R l l' := by
  induction h with
  | nil => exact .nil
  | both h _ ih => exact .cons h ih
  | spare h _ _ => exact absurd h.1 hcmp

theorem eq_of_forall₂ {α : Type} {R : α → α → Prop} {l m : List α} (h : List.Forall₂ R l m)
    (hR : ∀ a b, b ∈ m → R a b → a = b) : l = m := by
  induction h with
  | nil => rfl
  | cons h _ ih =>
    rw [hR _ _ (by simp) h, ih fun a b hb => hR a b (by simp [hb])]

theorem Ruleset.TrimsBy.eq {R : Node → Node → Prop} (hle : start ≤ reached) {r s : Ruleset}
    (h : r.TrimsBy (.resuming start reached count limit) R s)
    (hs : s.NumberedBelow start.rulesets) (hR : ∀ a b, b ∈ s.rules → R a b → a = b) : r = s := by
  have hserial : r.serial = s.serial :=
    h.serial.trans (Comparison.number_resuming_of_lt hle hs.serial)
  have hsource : r.source = s.source := by
    rw [h.source]
    cases hsource : s.source with
    | none => rfl
    | some serial =>
      exact congrArg some (Comparison.number_resuming_of_lt hle (hs.source serial hsource))
  have hrules := eq_of_forall₂ (h.rules.forall₂_of_not_trims not_false) hR
  obtain ⟨serial, source, header, rules⟩ := r
  obtain ⟨serial', source', header', rules'⟩ := s
  obtain rfl : header' = header := h.header
  obtain rfl : serial = serial' := hserial
  obtain rfl : source = source' := hsource
  obtain rfl : rules = rules' := hrules
  rfl

/-- What is like something of the start is the same. -/
theorem Node.TrimsTo.eq_of_within (hle : start ≤ reached)
    (h : n.TrimsTo (.resuming start reached count limit) m) (hm : m.Within start) : n = m := by
  induction h with
  | ruleset hR h ih =>
    exact congrArg Node.ruleset
      (h.eq hle hm.own fun a b hb hab => ih a b hab (hm.rules b hb))
  | @definition d e R hR hsignature hrules hclosure ih =>
    cases hm with
    | definition hwithin hnumbered hframes =>
      have hrules' : d.rules = e.rules := eq_of_forall₂ (hrules.forall₂_of_not_trims not_false)
        fun a b hb hab => ih a b hab (hwithin b hb)
      have hclosure' : d.closure = e.closure := by
        generalize d.closure = closure at hclosure
        generalize he : e.closure = closure' at hclosure
        cases hclosure with
        | none => rfl
        | @some frames frames' h =>
          refine congrArg some (eq_of_forall₂ h fun f g hg hfg => ?_)
          exact hfg.eq hle (hnumbered frames' he g hg)
            fun a b hb hab => ih a b hab (hframes frames' he g hg b hb)
      obtain ⟨signature, rules, closure⟩ := d
      obtain ⟨signature', rules', closure'⟩ := e
      obtain rfl : signature' = signature := hsignature
      obtain rfl : rules = rules' := hrules'
      obtain rfl : closure = closure' := hclosure'
      rfl
  | @media head rules rules' R hR hrules ih =>
    cases hm with
    | media hwithin =>
      exact congrArg (Node.media head) (eq_of_forall₂ (hrules.forall₂_of_not_trims not_false)
        fun a b hb hab => ih a b hab (hwithin b hb))
  | @directiveBlock head rules rules' R hR hrules ih =>
    cases hm with
    | directive hwithin =>
      exact congrArg (fun rules => Node.directive head (some rules))
        (eq_of_forall₂ (hrules.forall₂_of_not_trims not_false)
          fun a b hb hab => ih a b hab (hwithin rules' rfl b hb))
  | _ => rfl

theorem Candidate.TrimsTo.eq_of_within (hle : start ≤ reached) {c c' : Candidate}
    (h : c.TrimsTo (.resuming start reached count limit) c') (hc : c'.node.Within start) :
    c = c' := by
  have heq : c.node = c'.node := Node.TrimsTo.eq_of_within hle h hc
  cases c <;> cases c' <;> cases heq <;> rfl

/-- The answers for rulesets of the start are the same. -/
theorem Store.TrimsTo.remembered?_eq (hle : start ≤ reached) {s t : Store}
    (h : s.TrimsTo (.resuming start reached count limit) t) (ht : t.Since start) {serial : Nat}
    (hserial : serial < start.rulesets) (key : String) :
    s.remembered? serial key = t.remembered? serial key := by
  have hrel := h.memo serial key (.inl hserial)
  rw [Comparison.number_resuming_of_lt hle hserial] at hrel
  generalize s.remembered? serial key = found at hrel
  generalize hfound : t.remembered? serial key = found' at hrel
  cases hrel with
  | none => rfl
  | @some candidates candidates' hcandidates =>
    refine congrArg some (eq_of_forall₂ hcandidates fun c c' hc' hcc' => ?_)
    exact hcc'.eq_of_within hle (ht.old serial key candidates' hfound hserial c' hc')

/-- A scope of the start shows the same on both sides. -/
theorem Scope.trimsTo_resuming (hle : start ≤ reached) {sc : Scope}
    (hsc : ∀ frame ∈ sc.frames, (Node.ruleset frame).Within start) (count : Nat) :
    sc.TrimsTo (.resuming start reached count sc.options.maxMixinDepth) sc where
  frames := List.forall₂_same.2 fun frame hframe =>
    ((hsc frame hframe).trimsTo count _ hle).of_ruleset
  pending := rfl
  importing := rfl
  depth := rfl
  strictImports := rfl
  limit := rfl
  limit' := rfl
  sources := rfl
  calls := fun _ _ _ _ _ _ => trivial

end Old

section Reading

variable {cmp : Comparison} {look look' : Nat → Rule}

theorem readAll_eq_of_forall₂ {R : Node → Node → Prop} (h : List.Forall₂ R l l')
    (hR : ∀ a b, R a b → a.read look = b.read look') :
    Node.readAll look l = Node.readAll look' l' := by
  induction h with
  | nil => rfl
  | cons h _ ih => rw [Node.readAll, Node.readAll, hR _ _ h, ih]

mutual

/-- A plain rule is what a node reads as where no number has a block. -/
theorem Node.toRule_eq_read : ∀ n : Node, n.toRule = n.read fun _ => .hole
  | .ruleset ⟨_, _, header, rules⟩ => congrArg (Rule.ruleset header) (toRules_eq_readAll rules)
  | .media head rules => congrArg (Rule.media head) (toRules_eq_readAll rules)
  | .directive head (some rules) =>
    congrArg (fun rules => Rule.directive head (some rules)) (toRules_eq_readAll rules)
  | .declaration _ | .definition ⟨_, _, _⟩ | .call _ | .inclusion _ | .comment _ | .block _
  | .directive _ none => rfl

theorem Node.toRules_eq_readAll : ∀ nodes : List Node,
    Node.toRules nodes = Node.readAll (fun _ => .hole) nodes
  | [] => rfl
  | n :: nodes => by
    rw [Node.toRules, Node.readAll, toRule_eq_read n, toRules_eq_readAll nodes]

end

/-- Nodes that are alike read alike, if nothing may be left out of them. -/
theorem Node.TrimsTo.read_eq (hcmp : ¬cmp.trims) (h : n.TrimsTo cmp m)
    (hlook : ∀ index, ¬cmp.hides index → look index = look' index) :
    n.read look = m.read look' := by
  induction h generalizing look look' with
  | @ruleset r s R hR h ih =>
    obtain ⟨serial, source, header, rules⟩ := r
    obtain ⟨serial', source', header', rules'⟩ := s
    obtain rfl : header' = header := h.header
    exact congrArg (Rule.ruleset header')
      (readAll_eq_of_forall₂ (h.rules.forall₂_of_not_trims hcmp) fun a b hab => ih a b hab hlook)
  | @definition d e R hR hsignature hrules hclosure ih =>
    obtain ⟨signature, rules, closure⟩ := d
    obtain ⟨signature', rules', closure'⟩ := e
    obtain rfl : signature' = signature := hsignature
    have hrules' : List.Forall₂ R rules rules' := hrules.forall₂_of_not_trims hcmp
    refine congrArg (Rule.definition signature') ?_
    rw [toRules_eq_readAll, toRules_eq_readAll]
    exact readAll_eq_of_forall₂ hrules' fun a b hab => ih a b hab fun _ _ => rfl
  | @media head rules rules' R hR hrules ih =>
    exact congrArg (Rule.media head)
      (readAll_eq_of_forall₂ (hrules.forall₂_of_not_trims hcmp) fun a b hab => ih a b hab hlook)
  | @directiveBlock head rules rules' R hR hrules ih =>
    exact congrArg (fun rules => Rule.directive head (some rules))
      (readAll_eq_of_forall₂ (hrules.forall₂_of_not_trims hcmp) fun a b hab => ih a b hab hlook)
  | block h => exact hlook _ h
  | _ => rfl

theorem Node.TrimsAll.readAll_eq (hcmp : ¬cmp.trims) (h : Node.TrimsAll cmp l l')
    (hlook : ∀ index, ¬cmp.hides index → look index = look' index) :
    Node.readAll look l = Node.readAll look' l' :=
  readAll_eq_of_forall₂ (Aligned.forall₂_of_not_trims hcmp h) fun _ _ hab => hab.read_eq hcmp hlook

/-- Blocks that are not hidden read alike in stores that are alike. -/
theorem Store.TrimsTo.readBlocks_eq (hcmp : ¬cmp.trims) {s t : Store} (h : s.TrimsTo cmp t)
    {index : Nat} (hindex : ¬cmp.hides index) :
    readBlocks s.blocks index = readBlocks t.blocks index := by
  induction index using Nat.strongRecOn with
  | ind index ih =>
    have hrel := h.blocks index hindex
    cases hs : s.blocks[index]? with
    | none =>
      have hle := List.getElem?_eq_none_iff.1 hs
      rw [readBlocks_of_le hle, readBlocks_of_le (h.length_eq ▸ hle)]
    | some b =>
      cases ht : t.blocks[index]? with
      | none =>
        rw [hs, ht] at hrel
        cases hrel
      | some c =>
        rw [hs, ht] at hrel
        cases hrel with
        | some hblock =>
          rw [readBlocks_of_getElem? hs, readBlocks_of_getElem? ht, hblock.head]
          refine congrArg (Rule.media b.head) (hblock.rules.readAll_eq hcmp fun i hi => ?_)
          by_cases hlt : i < index
          · rw [lookBelow_of_lt _ hlt, lookBelow_of_lt _ hlt, ih i hlt hi]
          · rw [lookBelow_of_le _ (Nat.not_lt.1 hlt), lookBelow_of_le _ (Nat.not_lt.1 hlt)]

end Reading

end Stylesheet
