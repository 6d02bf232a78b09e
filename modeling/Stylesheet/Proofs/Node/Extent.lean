import Stylesheet.Proofs.Node.Numbering
import Stylesheet.Proofs.Node.Sound
import Mathlib.Order.Basic

/-!
# Numbers that were given out

A node has numbers in many places: its rulesets are numbered, they name the rulesets that they
were compiled from, and blocks are referred to by number. Definitions have rules and hold on to
frames, in which there are numbers again. All of these were given out at some time before.

An extent says how many numbers there are at some time. What is within an extent once stays
within all later ones. Moreover, a ruleset keeps its number only as long as it keeps its rules.
So from any time on, a ruleset that has a number of before has only rules of before.
-/

namespace Stylesheet

/-- How many numbers were given out to rulesets, and to blocks. -/
structure Extent where
  rulesets : Nat
  blocks : Nat

instance : Preorder Extent where
  le := fun e e' => e.rulesets ≤ e'.rulesets ∧ e.blocks ≤ e'.blocks
  le_refl := fun _ => ⟨Nat.le_refl _, Nat.le_refl _⟩
  le_trans := fun _ _ _ h h' => ⟨Nat.le_trans h.1 h'.1, Nat.le_trans h.2 h'.2⟩

/-- The property of rulesets holds for all rulesets that the node leads to, also for the frames that
its definitions have hold of, and the property of numbers holds for all blocks. -/
inductive Node.Throughout (ruleset : Ruleset → Prop) (block : Nat → Prop) : Node → Prop
  | declaration (d : Declaration) : Throughout ruleset block (.declaration d)
  | ruleset {r : Ruleset} (hr : ruleset r) (hrules : ∀ n ∈ r.rules, Throughout ruleset block n) :
      Throughout ruleset block (.ruleset r)
  | definition {d : Definition} (hrules : ∀ n ∈ d.rules, Throughout ruleset block n)
      (hclosure : ∀ frames, d.closure = some frames → ∀ frame ∈ frames, ruleset frame)
      (hframes : ∀ frames, d.closure = some frames →
        ∀ frame ∈ frames, ∀ n ∈ frame.rules, Throughout ruleset block n) :
      Throughout ruleset block (.definition d)
  | call (c : MixinCall) : Throughout ruleset block (.call c)
  | inclusion (i : Import) : Throughout ruleset block (.inclusion i)
  | comment (c : Comment) : Throughout ruleset block (.comment c)
  | media {head : MediaHead} {rules : List Node}
      (hrules : ∀ n ∈ rules, Throughout ruleset block n) :
      Throughout ruleset block (.media head rules)
  | block {index : Nat} (hindex : block index) : Throughout ruleset block (.block index)
  | directive {head : DirectiveHead} {rules : Option (List Node)}
      (hrules : ∀ body, rules = some body → ∀ n ∈ body, Throughout ruleset block n) :
      Throughout ruleset block (.directive head rules)

/-- The numbers of the ruleset and of the one that it was compiled from were given out. -/
structure Ruleset.NumberedBelow (next : Nat) (r : Ruleset) : Prop where
  serial : r.serial < next
  source : ∀ serial, r.source = some serial → serial < next

/-- All numbers that the node leads to are within the extent. -/
def Node.Within (e : Extent) : Node → Prop :=
  Node.Throughout (Ruleset.NumberedBelow e.rulesets) (· < e.blocks)

/-- The numbers of the ruleset are within the extent. If its number was given out at the start, then
all of its rules are as old. -/
structure Ruleset.Since (start e : Extent) (r : Ruleset) : Prop where
  numbered : r.NumberedBelow e.rulesets
  old : r.serial < start.rulesets → ∀ n ∈ r.rules, n.Within start

/-- All numbers that the node leads to are within the extent, and the rulesets with numbers of the
start are as they were then. -/
def Node.Since (start e : Extent) : Node → Prop :=
  Node.Throughout (Ruleset.Since start e) (· < e.blocks)

theorem Ruleset.NumberedBelow.mono {next next' : Nat} {r : Ruleset} (h : r.NumberedBelow next)
    (hle : next ≤ next') : r.NumberedBelow next' :=
  ⟨Nat.lt_of_lt_of_le h.serial hle, fun serial hs => Nat.lt_of_lt_of_le (h.source serial hs) hle⟩

namespace Node

variable {start e e' : Extent} {n : Node} {nodes : List Node} {P P' : Ruleset → Prop}
  {Q Q' : Nat → Prop}

section Growth

theorem Throughout.mono (h : n.Throughout P Q) (hP : ∀ r, P r → P' r) (hQ : ∀ i, Q i → Q' i) :
    n.Throughout P' Q' := by
  induction h with
  | declaration d => exact .declaration d
  | ruleset hr _ ih => exact .ruleset (hP _ hr) ih
  | definition _ hclosure _ ih ihframes =>
    exact .definition ih (fun frames h frame hframe => hP _ (hclosure frames h frame hframe))
      ihframes
  | call c => exact .call c
  | inclusion i => exact .inclusion i
  | comment c => exact .comment c
  | media _ ih => exact .media ih
  | block hindex => exact .block (hQ _ hindex)
  | directive _ ih => exact .directive ih

theorem Since.mono (h : n.Since start e) (hle : e ≤ e') : n.Since start e' :=
  Throughout.mono h (fun _ hr => ⟨hr.numbered.mono hle.1, hr.old⟩)
    fun _ hindex => Nat.lt_of_lt_of_le hindex hle.2

/-- What was there at the start is there since. -/
theorem Within.since (h : n.Within start) (hle : start ≤ e) : n.Since start e := by
  induction h with
  | declaration d => exact .declaration d
  | ruleset hr hrules ih => exact .ruleset ⟨hr.mono hle.1, fun _ => hrules⟩ ih
  | definition _ hclosure hframes ih ihframes =>
    refine .definition ih (fun frames h frame hframe => ?_) ihframes
    exact ⟨(hclosure frames h frame hframe).mono hle.1, fun _ => hframes frames h frame hframe⟩
  | call c => exact .call c
  | inclusion i => exact .inclusion i
  | comment c => exact .comment c
  | media _ ih => exact .media ih
  | block hindex => exact .block (Nat.lt_of_lt_of_le hindex hle.2)
  | directive _ ih => exact .directive ih

theorem Since.within (h : n.Since start e) : n.Within e :=
  Throughout.mono h (fun _ hr => hr.numbered) fun _ hindex => hindex

theorem Throughout.rules {r : Ruleset} (h : (Node.ruleset r).Throughout P Q) :
    ∀ n ∈ r.rules, n.Throughout P Q := by
  cases h with
  | ruleset _ hrules => exact hrules

theorem Throughout.own {r : Ruleset} (h : (Node.ruleset r).Throughout P Q) : P r := by
  cases h with
  | ruleset hr _ => exact hr

end Growth

section Numbering

mutual

/-- Rules that are numbered get numbers since the start. -/
theorem since_ofRule : ∀ (rule : Rule) (next : Nat), start.rulesets ≤ next →
    ((ofRule rule).run next).2 ≤ e.rulesets → ((ofRule rule).run next).1.Since start e
  | .declaration d, _, _, _ => .declaration d
  | .ruleset header rules, next, hstart, hlast => by
    have hlt : next < e.rulesets := Nat.lt_of_lt_of_le (le_next_ofRules rules (next + 1)) hlast
    refine .ruleset ⟨⟨hlt, ?_⟩, fun hlt => absurd hlt (Nat.not_lt.2 hstart)⟩
      (since_ofRules rules (next + 1) (Nat.le_succ_of_le hstart) hlast)
    rintro serial ⟨⟩
  | .definition _ rules, next, hstart, hlast => by
    refine .definition (since_ofRules rules next hstart hlast) ?_ ?_
    · rintro frames ⟨⟩
    · rintro frames ⟨⟩
  | .call c, _, _, _ => .call c
  | .inclusion i, _, _, _ => .inclusion i
  | .comment c, _, _, _ => .comment c
  | .media _ rules, next, hstart, hlast => .media (since_ofRules rules next hstart hlast)
  | .directive _ none, _, _, _ => .directive fun _ hbody => by cases hbody
  | .directive _ (some rules), next, hstart, hlast => by
    refine .directive ?_
    rintro body ⟨⟩
    exact since_ofRules rules next hstart hlast

theorem since_ofRules : ∀ (rules : List Rule) (next : Nat), start.rulesets ≤ next →
    ((ofRules rules).run next).2 ≤ e.rulesets →
      ∀ n ∈ ((ofRules rules).run next).1, n.Since start e
  | [], _, _, _, n, hn => by cases hn
  | rule :: rules, next, hstart, hlast, n, hn => by
    rcases List.mem_cons.1 hn with rfl | hn
    · exact since_ofRule rule next hstart (Nat.le_trans (le_next_ofRules rules _) hlast)
    · exact since_ofRules rules _ (Nat.le_trans hstart (le_next_ofRule rule next)) hlast n hn

end

theorem since_renewAll {next : Nat}
    (h : ∀ n ∈ nodes, ∀ next, start.rulesets ≤ next → ((renew n).run next).2 ≤ e.rulesets →
      ((renew n).run next).1.Since start e)
    (hstart : start.rulesets ≤ next) (hlast : ((renewAll nodes).run next).2 ≤ e.rulesets) :
    ∀ m ∈ ((renewAll nodes).run next).1, m.Since start e := by
  induction nodes generalizing next with
  | nil => exact fun m hm => by cases hm
  | cons n nodes ih =>
    obtain ⟨hn, hnodes⟩ := List.forall_mem_cons.1 h
    refine List.forall_mem_cons.2 ⟨?_, ?_⟩
    · exact hn next hstart (Nat.le_trans (le_next_renewAll nodes _) hlast)
    · exact ih hnodes (Nat.le_trans hstart (le_next_renew n next)) hlast

theorem Since.renew (h : n.Since start e) : ∀ next, start.rulesets ≤ next →
    ((Node.renew n).run next).2 ≤ e.rulesets → ((Node.renew n).run next).1.Since start e := by
  induction h with
  | @ruleset r hr _ ih =>
    intro next hstart hlast
    obtain ⟨serial, source, header, rules⟩ := r
    have hlt : next < e.rulesets := Nat.lt_of_lt_of_le (le_next_renewAll rules (next + 1)) hlast
    exact .ruleset ⟨⟨hlt, hr.numbered.source⟩, fun hlt => absurd hlt (Nat.not_lt.2 hstart)⟩
      (since_renewAll ih (Nat.le_succ_of_le hstart) hlast)
  | media _ ih => exact fun next hstart hlast => .media (since_renewAll ih hstart hlast)
  | @directive head rules hrules ih =>
    intro next hstart hlast
    cases rules with
    | none => exact .directive hrules
    | some rules =>
      refine .directive ?_
      rintro body ⟨⟩
      exact since_renewAll (ih rules rfl) hstart hlast
  | declaration d => exact fun _ _ _ => .declaration d
  | definition hrules hclosure hframes =>
    exact fun _ _ _ => .definition hrules hclosure hframes
  | call c => exact fun _ _ _ => .call c
  | inclusion i => exact fun _ _ _ => .inclusion i
  | comment c => exact fun _ _ _ => .comment c
  | block hindex => exact fun _ _ _ => .block hindex

end Numbering

section Marking

theorem Throughout.markImportant (h : n.Throughout P Q)
    (hP : ∀ r : Ruleset, P r → P { r with rules := markAllImportant r.rules }) :
    n.markImportant.Throughout P Q := by
  induction h with
  | @ruleset r hr _ ih =>
    obtain ⟨serial, source, header, rules⟩ := r
    exact .ruleset (hP _ hr) (forall_markAllImportant ih)
  | media _ ih => exact .media (forall_markAllImportant ih)
  | @directive head rules hrules ih =>
    cases rules with
    | none => exact .directive hrules
    | some rules =>
      refine .directive ?_
      rintro body ⟨⟩
      exact forall_markAllImportant (ih rules rfl)
  | declaration d => exact .declaration _
  | definition hrules hclosure hframes => exact .definition hrules hclosure hframes
  | call c => exact .call c
  | inclusion i => exact .inclusion i
  | comment c => exact .comment c
  | block hindex => exact .block hindex

theorem Within.markImportant (h : n.Within e) : n.markImportant.Within e :=
  Throughout.markImportant h fun _ hr => ⟨hr.serial, hr.source⟩

theorem Since.markImportant (h : n.Since start e) : n.markImportant.Since start e :=
  Throughout.markImportant h fun _ hr => ⟨⟨hr.numbered.serial, hr.numbered.source⟩,
    fun hlt => forall_markAllImportant fun n hn => (hr.old hlt n hn).markImportant⟩

end Marking

end Node

end Stylesheet
