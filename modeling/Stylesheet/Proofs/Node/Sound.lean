import Stylesheet.Proofs.Compile.Moments

/-!
# Sound nodes

A node is sound if every ruleset in it has a fitting header, if it refers only to
blocks before a given one, and if every mixin definition that has hold of frames
took hold of them where it stands. This goes through the rules of definitions and
through the frames that they have hold of.

Lists of rules come in two states. Either they are as they were read, and none of
their definitions has hold of frames, or they were compiled, and all have. A sound
node has only such lists in it, and those that were compiled are copies of lists that
were read. The rules of definitions are never compiled in place.

What a fitting header is stays open, and so is which lists of rules there are and which
moments the compilation comes to. Reading rules, renewing numbers and marking
declarations as important keep nodes sound, and the height of a sound node depends only
on the blocks that it may refer to.
-/

namespace Stylesheet

/-- What is asked of the rules of a style sheet: of the headers, and of the lists of rules. The
course has the moments that the compilation comes to. -/
structure Fit where
  header : Header → Prop
  rules : List Rule → Prop
  course : Course

namespace Node

/-- The nodes are a list of rules as it was read, with numbers for the rulesets. -/
def Untouched (fit : Fit) (nodes : List Node) : Prop :=
  ∃ rules next, fit.rules rules ∧ nodes = ((ofRules rules).run next).1

/-- Every mixin definition among the nodes has hold of frames. -/
def AllCaptured (nodes : List Node) : Prop :=
  ∀ d, .definition d ∈ nodes → d.closure.isSome

/-- The nodes are a list of rules as it was read, or a copy of one: what its rules became when they
were compiled, maybe several times, with new numbers, marked as important or wrapped in
selectors. -/
inductive Copied (fit : Fit) : List Node → Prop
  | read {nodes : List Node} (h : Untouched fit nodes) : Copied fit nodes
  | compiled {expand : Expander} {levels : Nat} {sc : Scope} {r result : Ruleset} {s t : Store}
      (hrules : Copied fit r.rules) (hreached : fit.course.reaches (.ruleset expand levels sc r) s)
      (hrun : (expand.nested levels sc r).run.run s = (.ok result, t)) : Copied fit result.rules
  | renewed {nodes : List Node} (h : Copied fit nodes) (next : Nat) :
      Copied fit ((renewAll nodes).run next).1
  | marked {nodes : List Node} (h : Copied fit nodes) : Copied fit (markAllImportant nodes)
  | wrapped {r : Ruleset} (h : Copied fit r.rules) : Copied fit [.ruleset r]

/-- The nodes are as they were read, or they are a copy in which all definitions have hold of
frames. -/
structure Settled (fit : Fit) (nodes : List Node) : Prop where
  copied : Copied fit nodes
  state : AllCaptured nodes ∨ Untouched fit nodes

end Node

/-- The first ruleset is the frame of a ruleset that the compilation comes to, with its selectors
filled in and its imports replaced. The others are the frames around that one. -/
inductive Ruleset.HomeIn (fit : Fit) : Ruleset → List Ruleset → Prop
  | enter {expand : Expander} {levels : Nat} {sc : Scope} {r home : Ruleset}
      {selectors : List Selector} {s t : Store}
      (hreached : fit.course.reaches (.ruleset expand (levels + 1) sc r) s)
      (hsettled : Node.Settled fit r.rules)
      (hselectors : r.header.selectors.mapM sc.selector = .ok selectors)
      (hhome : (r.homeFrame sc selectors).run.run
        (s.record (.compiling selectors r.rules.length)) = (.ok home, t)) :
      HomeIn fit home sc.frames

/-- The definition took hold of the frames when the compilation came to the ruleset in whose rules
it stands, or in whose rules it was put by an import. -/
def Definition.CapturedAt (fit : Fit) (d : Definition) (frames : List Ruleset) : Prop :=
  ∃ home outer, frames = home :: outer ∧ home.HomeIn fit outer ∧
    .definition { d with closure := none } ∈ home.rules

/-- All definitions that stand in the frame have hold of frames, unless it is one that definitions
took hold of as it was then. -/
def Ruleset.InView (fit : Fit) (frame : Ruleset) : Prop :=
  Node.AllCaptured frame.rules ∨ ∃ outer, frame.HomeIn fit outer

/-- All headers and lists in a rule fit, also those in mixin definitions. -/
inductive Rule.Fits (fit : Fit) : Rule → Prop
  | declaration (d : Declaration) : Fits fit (.declaration d)
  | ruleset {header : Header} {rules : List Rule} (hheader : fit.header header)
      (hlist : fit.rules rules) (hrules : ∀ rule ∈ rules, Fits fit rule) :
      Fits fit (.ruleset header rules)
  | definition {signature : Signature} {rules : List Rule} (hlist : fit.rules rules)
      (hrules : ∀ rule ∈ rules, Fits fit rule) : Fits fit (.definition signature rules)
  | call (c : MixinCall) : Fits fit (.call c)
  | inclusion (i : Import) : Fits fit (.inclusion i)
  | comment (c : Comment) : Fits fit (.comment c)
  | media {head : MediaHead} {rules : List Rule} (hlist : fit.rules rules)
      (hrules : ∀ rule ∈ rules, Fits fit rule) : Fits fit (.media head rules)
  | directive {head : DirectiveHead} {rules : Option (List Rule)}
      (hlist : ∀ body, rules = some body → fit.rules body)
      (hrules : ∀ body, rules = some body → ∀ rule ∈ body, Fits fit rule) :
      Fits fit (.directive head rules)

/-- The node is sound: its headers fit, its blocks have numbers below `bound`, its lists of rules
are settled, and its definitions have hold of frames only where they stand. -/
inductive Node.Sound (fit : Fit) (bound : Nat) : Node → Prop
  | declaration (d : Declaration) : Sound fit bound (.declaration d)
  | ruleset {r : Ruleset} (hheader : fit.header r.header) (hsettled : Settled fit r.rules)
      (hrules : ∀ n ∈ r.rules, Sound fit bound n) : Sound fit bound (.ruleset r)
  | definition {d : Definition} (huntouched : Untouched fit d.rules)
      (hrules : ∀ n ∈ d.rules, Sound fit bound n)
      (hcaptured : ∀ frames, d.closure = some frames → d.CapturedAt fit frames)
      (hview : ∀ frames, d.closure = some frames → ∀ frame ∈ frames, frame.InView fit)
      (hframes : ∀ frames, d.closure = some frames →
        ∀ frame ∈ frames, ∀ n ∈ frame.rules, Sound fit bound n) :
      Sound fit bound (.definition d)
  | call (c : MixinCall) : Sound fit bound (.call c)
  | inclusion (i : Import) : Sound fit bound (.inclusion i)
  | comment (c : Comment) : Sound fit bound (.comment c)
  | media {head : MediaHead} {rules : List Node} (hsettled : Settled fit rules)
      (hrules : ∀ n ∈ rules, Sound fit bound n) : Sound fit bound (.media head rules)
  | block {index : Nat} (hindex : index < bound) : Sound fit bound (.block index)
  | directive {head : DirectiveHead} {rules : Option (List Node)}
      (hsettled : ∀ body, rules = some body → Settled fit body)
      (hrules : ∀ body, rules = some body → ∀ n ∈ body, Sound fit bound n) :
      Sound fit bound (.directive head rules)

/-- The node was compiled: no media block is left in it, and in its lists of rules all definitions
have hold of frames. What is in a definition is left as it is. -/
inductive Node.Compiled : Node → Prop
  | declaration (d : Declaration) : Compiled (.declaration d)
  | ruleset {r : Ruleset} (hcaptured : AllCaptured r.rules) (hrules : ∀ n ∈ r.rules, Compiled n) :
      Compiled (.ruleset r)
  | definition (d : Definition) : Compiled (.definition d)
  | call (c : MixinCall) : Compiled (.call c)
  | inclusion (i : Import) : Compiled (.inclusion i)
  | comment (c : Comment) : Compiled (.comment c)
  | block (index : Nat) : Compiled (.block index)
  | directive {head : DirectiveHead} {rules : Option (List Node)}
      (hcaptured : ∀ body, rules = some body → AllCaptured body)
      (hrules : ∀ body, rules = some body → ∀ n ∈ body, Compiled n) :
      Compiled (.directive head rules)

/-- The nodes were compiled as a list of rules. -/
structure Node.AllCompiled (nodes : List Node) : Prop where
  captured : AllCaptured nodes
  compiled : ∀ n ∈ nodes, n.Compiled

/-- All of the nodes are sound. -/
def Node.AllSound (fit : Fit) (bound : Nat) (nodes : List Node) : Prop :=
  ∀ n ∈ nodes, n.Sound fit bound

namespace Node

variable {fit : Fit} {bound bound' : Nat} {n : Node} {nodes more : List Node}

theorem Sound.mono (h : n.Sound fit bound) (hbound : bound ≤ bound') : n.Sound fit bound' := by
  induction h with
  | declaration d => exact .declaration d
  | ruleset hheader hsettled _ ih => exact .ruleset hheader hsettled ih
  | definition huntouched _ hcaptured hview _ ih ihframes =>
    exact .definition huntouched ih hcaptured hview ihframes
  | call c => exact .call c
  | inclusion i => exact .inclusion i
  | comment c => exact .comment c
  | media hsettled _ ih => exact .media hsettled ih
  | block hindex => exact .block (Nat.lt_of_lt_of_le hindex hbound)
  | directive hsettled _ ih => exact .directive hsettled ih

theorem AllSound.mono (h : AllSound fit bound nodes) (hbound : bound ≤ bound') :
    AllSound fit bound' nodes := fun n hn => (h n hn).mono hbound

theorem allSound_nil : AllSound fit bound [] := fun n hn => by cases hn

theorem allSound_append :
    AllSound fit bound (nodes ++ more) ↔ AllSound fit bound nodes ∧ AllSound fit bound more :=
  List.forall_mem_append

theorem allSound_cons :
    AllSound fit bound (n :: nodes) ↔ n.Sound fit bound ∧ AllSound fit bound nodes :=
  List.forall_mem_cons

theorem AllSound.filter (h : AllSound fit bound nodes) (p : Node → Bool) :
    AllSound fit bound (nodes.filter p) := fun n hn => h n (List.mem_of_mem_filter hn)

theorem Sound.settled {r : Ruleset} (h : Sound fit bound (.ruleset r)) :
    Settled fit r.rules := by
  cases h with
  | ruleset _ hsettled _ => exact hsettled

theorem Sound.rules {r : Ruleset} (h : Sound fit bound (.ruleset r)) :
    AllSound fit bound r.rules := by
  cases h with
  | ruleset _ _ hrules => exact hrules

section Captured

theorem allCaptured_nil : AllCaptured [] := fun d hd => by cases hd

theorem allCaptured_append :
    AllCaptured (nodes ++ more) ↔ AllCaptured nodes ∧ AllCaptured more := by
  simp only [AllCaptured, List.mem_append]
  exact ⟨fun h => ⟨fun d hd => h d (.inl hd), fun d hd => h d (.inr hd)⟩,
    fun h d hd => hd.elim (h.1 d) (h.2 d)⟩

theorem allCaptured_singleton (h : ∀ d, n ≠ .definition d) : AllCaptured [n] :=
  fun d hd => absurd (List.mem_singleton.1 hd).symm (h d)

theorem allCompiled_nil : AllCompiled [] := ⟨allCaptured_nil, fun n hn => by cases hn⟩

theorem allCompiled_append :
    AllCompiled (nodes ++ more) ↔ AllCompiled nodes ∧ AllCompiled more := by
  refine ⟨fun h => ?_, fun h => ?_⟩
  · obtain ⟨hnodes, hmore⟩ := allCaptured_append.1 h.captured
    obtain ⟨hnodes', hmore'⟩ := List.forall_mem_append.1 h.compiled
    exact ⟨⟨hnodes, hnodes'⟩, hmore, hmore'⟩
  · exact ⟨allCaptured_append.2 ⟨h.1.captured, h.2.captured⟩,
      List.forall_mem_append.2 ⟨h.1.compiled, h.2.compiled⟩⟩

theorem AllCompiled.filter (h : AllCompiled nodes) (p : Node → Bool) :
    AllCompiled (nodes.filter p) :=
  ⟨fun d hd => h.captured d (List.mem_of_mem_filter hd),
    fun n hn => h.compiled n (List.mem_of_mem_filter hn)⟩

theorem AllCaptured.of_subset (h : AllCaptured more) (hsub : nodes ⊆ more) : AllCaptured nodes :=
  fun d hd => h d (hsub hd)

theorem Untouched.settled (h : Untouched fit nodes) : Settled fit nodes := ⟨.read h, .inr h⟩

/-- A list with a definition that has hold of no frames is as it was read. -/
theorem Settled.untouched (h : Settled fit nodes) {d : Definition} (hd : .definition d ∈ nodes)
    (hclosure : d.closure = none) : Untouched fit nodes := by
  rcases h.state with hcaptured | huntouched
  · simpa [hclosure] using hcaptured d hd
  · exact huntouched

end Captured

section Numbering

theorem untouched_ofRules {rules : List Rule} (h : fit.rules rules) (next : Nat) :
    Untouched fit ((ofRules rules).run next).1 := ⟨rules, next, h, rfl⟩

theorem allSound_ofRules_of {rules : List Rule}
    (h : ∀ rule ∈ rules, ∀ next, ((ofRule rule).run next).1.Sound fit bound) (next : Nat) :
    AllSound fit bound ((ofRules rules).run next).1 := by
  induction rules generalizing next with
  | nil => exact allSound_nil
  | cons rule rules ih =>
    rw [ofRules]
    exact allSound_cons.2 ⟨h rule (by simp) next, ih (fun r hr => h r (by simp [hr])) _⟩

theorem sound_ofRule {rule : Rule} (h : rule.Fits fit) (next : Nat) :
    ((ofRule rule).run next).1.Sound fit bound := by
  induction h generalizing next with
  | declaration d => exact .declaration d
  | ruleset hheader hlist _ ih =>
    exact .ruleset hheader (untouched_ofRules hlist _).settled (allSound_ofRules_of ih _)
  | definition hlist _ ih =>
    refine .definition (untouched_ofRules hlist _) (allSound_ofRules_of ih _) ?_ ?_ ?_
    · rintro frames ⟨⟩
    · rintro frames ⟨⟩
    · rintro frames ⟨⟩
  | call c => exact .call c
  | inclusion i => exact .inclusion i
  | comment c => exact .comment c
  | media hlist _ ih => exact .media (untouched_ofRules hlist _).settled (allSound_ofRules_of ih _)
  | @directive head rules hlist _ ih =>
    cases rules with
    | none => exact .directive (fun body hbody => by cases hbody) fun body hbody => by cases hbody
    | some rules =>
      refine .directive ?_ ?_
      · rintro body ⟨⟩
        exact (untouched_ofRules (hlist rules rfl) _).settled
      · rintro body ⟨⟩
        exact allSound_ofRules_of (ih rules rfl) _

/-- Numbering gives sound nodes, which refer to no block at all. -/
theorem allSound_ofRules {rules : List Rule} (h : ∀ rule ∈ rules, rule.Fits fit) (next : Nat) :
    AllSound fit bound ((ofRules rules).run next).1 :=
  allSound_ofRules_of (fun rule hrule => sound_ofRule (h rule hrule)) next

theorem mem_of_definition_mem_renewAll {d : Definition} {next : Nat}
    (h : .definition d ∈ ((renewAll nodes).run next).1) : .definition d ∈ nodes := by
  induction nodes generalizing next with
  | nil => exact h
  | cons n nodes ih =>
    rcases List.mem_cons.1 h with hd | hd
    · refine List.mem_cons.2 (.inl ?_)
      cases n with
      | ruleset r =>
        obtain ⟨serial, source, header, rules⟩ := r
        cases hd
      | directive head rules => cases rules <;> cases hd
      | definition _ => exact hd
      | _ => cases hd
    · exact List.mem_cons_of_mem n (ih hd)

theorem AllCaptured.renewAll (h : AllCaptured nodes) (next : Nat) :
    AllCaptured ((Node.renewAll nodes).run next).1 :=
  fun d hd => h d (mem_of_definition_mem_renewAll hd)

theorem forall_renewAll {P : Node → Prop} (h : ∀ n ∈ nodes, ∀ next, P ((renew n).run next).1)
    (next : Nat) : ∀ m ∈ ((renewAll nodes).run next).1, P m := by
  induction nodes generalizing next with
  | nil => exact fun m hm => by cases hm
  | cons n nodes ih =>
    intro m hm
    rcases List.mem_cons.1 hm with rfl | hm
    · exact h n (by simp) next
    · exact ih (fun m hm => h m (by simp [hm])) _ m hm

theorem Compiled.renew (h : n.Compiled) (next : Nat) : ((Node.renew n).run next).1.Compiled := by
  induction h generalizing next with
  | @ruleset r hcaptured _ ih =>
    obtain ⟨serial, source, header, rules⟩ := r
    exact .ruleset (hcaptured.renewAll _) (forall_renewAll ih _)
  | @directive head rules hcaptured hrules ih =>
    cases rules with
    | none => exact .directive hcaptured hrules
    | some rules =>
      refine .directive ?_ ?_
      · rintro body ⟨⟩
        exact (hcaptured rules rfl).renewAll _
      · rintro body ⟨⟩
        exact forall_renewAll (ih rules rfl) _
  | declaration d => exact .declaration d
  | definition d => exact .definition d
  | call c => exact .call c
  | inclusion i => exact .inclusion i
  | comment c => exact .comment c
  | block index => exact .block index

theorem AllCompiled.renewAll (h : AllCompiled nodes) (next : Nat) :
    AllCompiled ((Node.renewAll nodes).run next).1 :=
  ⟨h.captured.renewAll next, forall_renewAll (fun n hn => (h.compiled n hn).renew) next⟩

/-- New numbers keep a compiled node sound. One that is as it was read would be so no longer. -/
theorem Sound.renew (h : n.Sound fit bound) (hcompiled : n.Compiled) (next : Nat) :
    ((Node.renew n).run next).1.Sound fit bound := by
  induction h generalizing next with
  | declaration d => exact .declaration d
  | @ruleset r hheader hsettled _ ih =>
    cases hcompiled with
    | ruleset hcaptured hrules =>
      obtain ⟨serial, source, header, rules⟩ := r
      exact .ruleset hheader ⟨hsettled.copied.renewed _, .inl (hcaptured.renewAll _)⟩
        (forall_renewAll (fun n hn => ih n hn (hrules n hn)) _)
  | definition huntouched hrules hcaptured hview hframes =>
    exact .definition huntouched hrules hcaptured hview hframes
  | call c => exact .call c
  | inclusion i => exact .inclusion i
  | comment c => exact .comment c
  | media _ _ _ => cases hcompiled
  | block hindex => exact .block hindex
  | @directive head rules hsettled hsound ih =>
    cases rules with
    | none => exact .directive hsettled hsound
    | some rules =>
      cases hcompiled with
      | directive hcaptured hrules =>
        refine .directive ?_ ?_
        · rintro body ⟨⟩
          exact ⟨(hsettled rules rfl).copied.renewed _, .inl ((hcaptured rules rfl).renewAll _)⟩
        · rintro body ⟨⟩
          exact forall_renewAll (fun n hn => ih rules rfl n hn (hrules rules rfl n hn)) _

theorem AllSound.renewAll (h : AllSound fit bound nodes) (hcompiled : AllCompiled nodes)
    (next : Nat) : AllSound fit bound ((Node.renewAll nodes).run next).1 :=
  forall_renewAll (fun n hn => (h n hn).renew (hcompiled.compiled n hn)) next

end Numbering

section Marking

theorem mem_markAllImportant_iff {m : Node} :
    m ∈ markAllImportant nodes ↔ ∃ n ∈ nodes, n.markImportant = m := by
  induction nodes with
  | nil => simp [markAllImportant]
  | cons n nodes ih => simp [markAllImportant, ih, eq_comm]

theorem AllCaptured.markAllImportant (h : AllCaptured nodes) :
    AllCaptured (Node.markAllImportant nodes) := by
  intro d hd
  obtain ⟨n, hn, hnd⟩ := mem_markAllImportant_iff.1 hd
  cases n with
  | ruleset r =>
    obtain ⟨serial, source, header, rules⟩ := r
    cases hnd
  | directive head rules => cases rules <;> cases hnd
  | definition _ =>
    cases hnd
    exact h d hn
  | _ => cases hnd

theorem forall_markAllImportant {P : Node → Prop} (h : ∀ n ∈ nodes, P n.markImportant) :
    ∀ m ∈ markAllImportant nodes, P m := by
  intro m hm
  obtain ⟨n, hn, rfl⟩ := mem_markAllImportant_iff.1 hm
  exact h n hn

theorem Compiled.markImportant (h : n.Compiled) : n.markImportant.Compiled := by
  induction h with
  | @ruleset r hcaptured _ ih =>
    obtain ⟨serial, source, header, rules⟩ := r
    exact .ruleset hcaptured.markAllImportant (forall_markAllImportant ih)
  | @directive head rules hcaptured hrules ih =>
    cases rules with
    | none => exact .directive hcaptured hrules
    | some rules =>
      refine .directive ?_ ?_
      · rintro body ⟨⟩
        exact (hcaptured rules rfl).markAllImportant
      · rintro body ⟨⟩
        exact forall_markAllImportant (ih rules rfl)
  | declaration d => exact .declaration _
  | definition d => exact .definition d
  | call c => exact .call c
  | inclusion i => exact .inclusion i
  | comment c => exact .comment c
  | block index => exact .block index

theorem AllCompiled.markAllImportant (h : AllCompiled nodes) :
    AllCompiled (Node.markAllImportant nodes) :=
  ⟨h.captured.markAllImportant,
    forall_markAllImportant fun n hn => (h.compiled n hn).markImportant⟩

theorem Sound.markImportant (h : n.Sound fit bound) (hcompiled : n.Compiled) :
    n.markImportant.Sound fit bound := by
  induction h with
  | declaration d => exact .declaration _
  | @ruleset r hheader hsettled _ ih =>
    cases hcompiled with
    | ruleset hcaptured hrules =>
      obtain ⟨serial, source, header, rules⟩ := r
      exact .ruleset hheader ⟨hsettled.copied.marked, .inl hcaptured.markAllImportant⟩
        (forall_markAllImportant fun n hn => ih n hn (hrules n hn))
  | definition huntouched hrules hcaptured hview hframes =>
    exact .definition huntouched hrules hcaptured hview hframes
  | call c => exact .call c
  | inclusion i => exact .inclusion i
  | comment c => exact .comment c
  | media _ _ _ => cases hcompiled
  | block hindex => exact .block hindex
  | @directive head rules hsettled hsound ih =>
    cases rules with
    | none => exact .directive hsettled hsound
    | some rules =>
      cases hcompiled with
      | directive hcaptured hrules =>
        refine .directive ?_ ?_
        · rintro body ⟨⟩
          exact ⟨(hsettled rules rfl).copied.marked, .inl (hcaptured rules rfl).markAllImportant⟩
        · rintro body ⟨⟩
          exact forall_markAllImportant fun n hn => ih rules rfl n hn (hrules rules rfl n hn)

theorem AllSound.markAllImportant (h : AllSound fit bound nodes) (hcompiled : AllCompiled nodes) :
    AllSound fit bound (Node.markAllImportant nodes) :=
  forall_markAllImportant fun n hn => (h n hn).markImportant (hcompiled.compiled n hn)

end Marking

section Heights

variable {blocks blocks' : List Nat}

theorem heights_le_iff {k : Nat} : heights blocks nodes ≤ k ↔ ∀ n ∈ nodes, height blocks n ≤ k := by
  induction nodes with
  | nil => simp [heights]
  | cons n nodes ih => rw [heights, Nat.max_le, ih, List.forall_mem_cons]

theorem height_le_heights (h : n ∈ nodes) : height blocks n ≤ heights blocks nodes :=
  heights_le_iff.1 (Nat.le_refl _) n h

theorem heights_append (blocks : List Nat) (nodes more : List Node) :
    heights blocks (nodes ++ more) = max (heights blocks nodes) (heights blocks more) := by
  induction nodes with
  | nil => simp [heights]
  | cons n nodes ih => rw [List.cons_append, heights, ih, heights, Nat.max_assoc]

theorem heights_congr (h : ∀ n ∈ nodes, height blocks n = height blocks' n) :
    heights blocks nodes = heights blocks' nodes := by
  induction nodes with
  | nil => rfl
  | cons n nodes ih =>
    rw [heights, heights, h n (by simp), ih fun m hm => h m (by simp [hm])]

/-- The height of a sound node depends only on the blocks that it may refer to. -/
theorem Sound.height_congr (h : n.Sound fit bound)
    (hblocks : ∀ index < bound, blocks[index]? = blocks'[index]?) :
    height blocks n = height blocks' n := by
  induction h with
  | @ruleset r _ _ _ ih =>
    obtain ⟨serial, source, header, rules⟩ := r
    exact congrArg (· + 1) (heights_congr ih)
  | media _ _ ih => exact congrArg (· + 1) (heights_congr ih)
  | block hindex => rw [height, height, hblocks _ hindex]
  | @directive head rules _ _ ih =>
    cases rules with
    | none => rfl
    | some rules => exact congrArg (· + 1) (heights_congr (ih rules rfl))
  | _ => rfl

theorem AllSound.heights_congr (h : AllSound fit bound nodes)
    (hblocks : ∀ index < bound, blocks[index]? = blocks'[index]?) :
    heights blocks nodes = heights blocks' nodes :=
  Node.heights_congr fun n hn => (h n hn).height_congr hblocks

mutual

theorem height_ofRule : ∀ (rule : Rule) (next : Nat),
    height blocks ((ofRule rule).run next).1 = rule.height
  | .ruleset _ rules, next => congrArg (· + 1) (heights_ofRules rules (next + 1))
  | .media _ rules, next | .directive _ (some rules), next =>
    congrArg (· + 1) (heights_ofRules rules next)
  | .declaration _, _ | .definition .., _ | .call _, _ | .inclusion _, _ | .comment _, _
  | .directive _ none, _ => rfl

/-- Numbering keeps the height of rules. -/
theorem heights_ofRules : ∀ (rules : List Rule) (next : Nat),
    heights blocks ((ofRules rules).run next).1 = Rule.heights rules
  | [], _ => rfl
  | rule :: rules, next =>
    congr (congrArg max (height_ofRule rule next))
      (heights_ofRules rules ((ofRule rule).run next).2)

end

end Heights

end Node

end Stylesheet
