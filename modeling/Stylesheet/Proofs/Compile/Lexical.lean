import Stylesheet.Proofs.Compile.Observed

/-!
# Mixins see where they are defined

A mixin definition takes hold of the frames around it when the ruleset it stands in is
compiled. From then on, a variable that its rules refer to without declaring it has
the value that it has in that ruleset, wherever the mixin is called. Neither the frames
of the call nor the parameters of another mixin come in between.

A copy of a definition that has hold of no frames sees the frames of the call. There
are such copies in rules that are still as they were read. There are also some in the
frames that a definition takes hold of: these are as they were before, and do not show
that the definitions in them take hold of frames as well. A mixin that is called from
the rules of another one is looked up in such frames first, and sees the parameters of
that one.

The main theorem is about all runs of the compiler at once. It checks the scope of
every declaration in the rules of every definition that is expanded, and says that no
run ever fails a check.
-/

namespace Stylesheet

/-- The lists of rules in a style sheet and its sources, at any depth. -/
inductive Listed (rules : List Rule) (sources : Option Sources) : List Rule → Prop
  | document : Listed rules sources rules
  | source {table : Sources} {entry : String × List Rule} (htable : sources = some table)
      (hentry : entry ∈ table) : Listed rules sources entry.2
  | ruleset {outer inner : List Rule} {header : Header} (houter : Listed rules sources outer)
      (hmem : .ruleset header inner ∈ outer) : Listed rules sources inner
  | definition {outer inner : List Rule} {signature : Signature}
      (houter : Listed rules sources outer) (hmem : .definition signature inner ∈ outer) :
      Listed rules sources inner
  | media {outer inner : List Rule} {head : MediaHead} (houter : Listed rules sources outer)
      (hmem : .media head inner ∈ outer) : Listed rules sources inner
  | directive {outer inner : List Rule} {head : DirectiveHead}
      (houter : Listed rules sources outer) (hmem : .directive head (some inner) ∈ outer) :
      Listed rules sources inner

/-- All lists of rules come from the style sheet, whatever the headers are. -/
def Fit.listed (rules : List Rule) (options : Options) (sources : Option Sources) : Fit where
  header := fun _ => True
  rules := Listed rules sources
  course := .ofSheet rules options sources

section Listed

variable {rules : List Rule} {options : Options} {sources : Option Sources}

mutual

theorem Rule.fits_listed : ∀ (rule : Rule) {outer : List Rule}, Listed rules sources outer →
    rule ∈ outer → rule.Fits (.listed rules options sources)
  | .declaration d, _, _, _ => .declaration d
  | .ruleset _ inner, _, houter, hmem =>
    .ruleset trivial (.ruleset houter hmem)
      (Rule.fits_listed_all inner (.ruleset houter hmem) (List.Subset.refl _))
  | .definition _ inner, _, houter, hmem =>
    .definition (.definition houter hmem)
      (Rule.fits_listed_all inner (.definition houter hmem) (List.Subset.refl _))
  | .call c, _, _, _ => .call c
  | .inclusion i, _, _, _ => .inclusion i
  | .comment c, _, _, _ => .comment c
  | .media _ inner, _, houter, hmem =>
    .media (.media houter hmem)
      (Rule.fits_listed_all inner (.media houter hmem) (List.Subset.refl _))
  | .directive _ none, _, _, _ =>
    .directive (fun _ hbody => by cases hbody) fun _ hbody => by cases hbody
  | .directive _ (some inner), _, houter, hmem =>
    .directive (fun _ hbody => by cases hbody; exact .directive houter hmem)
      fun _ hbody => by
        cases hbody
        exact Rule.fits_listed_all inner (.directive houter hmem) (List.Subset.refl _)

theorem Rule.fits_listed_all : ∀ (inner : List Rule) {outer : List Rule},
    Listed rules sources outer → inner ⊆ outer →
    ∀ rule ∈ inner, rule.Fits (.listed rules options sources)
  | [], _, _, _ => fun _ hrule => by cases hrule
  | rule :: inner, _, houter, hsub => List.forall_mem_cons.2
    ⟨Rule.fits_listed rule houter (hsub List.mem_cons_self),
      Rule.fits_listed_all inner houter fun _ hr => hsub (List.mem_cons_of_mem _ hr)⟩

end

theorem Header.kept_listed : Header.Kept (Fit.listed rules options sources).header :=
  ⟨trivial, fun _ _ _ _ _ => trivial, fun _ _ => trivial⟩

/-- The node is one of the given ones, or one of a source. -/
def Node.DrawnFrom (sources : Option Sources) (nodes : List Node) (n : Node) : Prop :=
  n ∈ nodes ∨ ∃ table, sources = some table ∧ ∃ entry ∈ table, ∃ next,
    n ∈ ((Node.ofRules entry.2).run next).1

/-- The frame that definitions take hold of shows rules of a list of the style sheet or of a copy of
one, and rules of the sources in place of imports. -/
theorem Ruleset.HomeIn.drawnFrom {home : Ruleset} {outer : List Ruleset}
    (h : home.HomeIn (.listed rules options sources) outer) :
    ∃ nodes, Node.Settled (.listed rules options sources) nodes ∧
      ∀ n ∈ home.rules, (∀ i, n ≠ .inclusion i) → n.DrawnFrom sources nodes := by
  cases h with
  | @enter expand levels sc r home selectors s t hreached hsettled hselectors hhome =>
    have hsources : sc.sources = sources := hreached.scope_eq.2
    have himports : sc.Imports fun n =>
        (∀ i, n ≠ .inclusion i) → n.DrawnFrom sources r.rules := by
      refine ⟨fun i hi => absurd rfl (hi i), ?_⟩
      intro table htable entry hentry next n hn _
      exact .inr ⟨table, hsources.symm.trans htable, entry, hentry, next, hn⟩
    have hput := (ensures_homeFrame himports (fun n hn _ => .inl hn) selectors _).of_ok hhome
    exact ⟨r.rules, hsettled, hput.2.good⟩

end Listed

/-- The second list has the rules of a ruleset or of a definition among the nodes of the first one,
at any depth. -/
inductive Node.Encloses : List Node → List Node → Prop
  | ruleset {nodes : List Node} {r : Ruleset} (hmem : .ruleset r ∈ nodes) : Encloses nodes r.rules
  | definition {nodes : List Node} {d : Definition} (hmem : .definition d ∈ nodes) :
      Encloses nodes d.rules
  | trans {nodes rules inner : List Node} (h : Encloses nodes rules) (h' : Encloses rules inner) :
      Encloses nodes inner

/-- The rules of the definition leave the variable to others: it is no parameter, and it is declared
neither by the rules nor by what their calls were replaced by. -/
structure Definition.Leaves (d : Definition) (slots : List Slot) (name : String) : Prop where
  arguments : name ≠ "@arguments"
  params : ∀ p ∈ d.signature.params, p.name ≠ name
  slots : ∀ slot ∈ slots, ¬slot.node.Declares name

/-- What holds wherever a declaration in the rules of a definition is evaluated. The definition was
called from the scope `caller`, its rules became the slots, and the scope of the declaration is
`inner`. -/
structure Definition.LexicallyScoped (fit : Fit) (d : Definition) (caller : Scope)
    (slots : List Slot) (inner : Scope) : Prop where
  /-- The rules of the definition are as they were read. -/
  written : Node.Untouched fit d.rules
  /-- The definition took hold of its frames when the compilation came to the ruleset in which it
  stands. The first of them is the frame of that ruleset. -/
  home : ∀ frames, d.closure = some frames → d.CapturedAt fit frames
  /-- What that ruleset declares is seen by the declaration, whatever the caller declares. -/
  reached : ∀ home outer name b, d.closure = some (home :: outer) → d.Leaves slots name →
    home.binding? name = some b → inner.binding? name = some b
  /-- A definition without frames sees what the caller sees. -/
  unreached : d.closure = none → ∀ name, d.Leaves slots name →
    inner.binding? name = caller.binding? name
  /-- If a definition in a ruleset around the call is without frames, the call stands in the rules
  of a mixin, and the ruleset is one that definitions took hold of, as it was then. -/
  around : ∀ frame ∈ caller.frames, .definition d ∈ frame.rules → d.closure = none →
    caller.depth ≠ 0 ∧ ∃ outer, frame.HomeIn fit outer
  /-- In the other rules that the call can see, a definition is without frames only as long as they
  are as they were read. -/
  elsewhere : ∀ frame ∈ caller.frames, ∀ rules, Node.Encloses frame.rules rules →
    .definition d ∈ rules → d.closure = none → Node.Untouched fit rules

section Bindings

variable {sc : Scope} {c : Candidate} {span : Span} {args : List Value}

/-- A ruleset whose rules declare no such variable has no binding for it. -/
theorem Ruleset.binding?_eq_none {r : Ruleset} {name : String}
    (h : ∀ n ∈ r.rules, ¬n.Declares name) : r.binding? name = none := by
  rw [Ruleset.binding?, List.find?_eq_none]
  intro d hd
  obtain ⟨n, hn, hbinding⟩ := List.mem_filterMap.1 (List.mem_reverse.1 hd)
  simpa using fun hname => h n hn ⟨d, hbinding, hname⟩

theorem Candidate.map_name_bindParams {params : List Param} {rest : List Value}
    {bindings : List Declaration} (h : c.bindParams sc span args params rest = .ok bindings) :
    bindings.map Declaration.name = params.map Param.name := by
  induction params generalizing rest bindings with
  | nil =>
    cases h
    rfl
  | cons p params ih =>
    cases rest with
    | cons arg rest =>
      obtain ⟨more, hmore, ⟨⟩⟩ := bind_eq_ok_iff.1 h
      rw [List.map_cons, List.map_cons, ih hmore]
    | nil =>
      rw [Candidate.bindParams] at h
      split at h
      · cases h
      · obtain ⟨value, -, h⟩ := bind_eq_ok_iff.1 h
        obtain ⟨more, hmore, ⟨⟩⟩ := bind_eq_ok_iff.1 h
        rw [List.map_cons, List.map_cons, ih hmore]

/-- The frame of the parameters declares them and all arguments, and nothing else. -/
theorem Candidate.binding?_params_eq_none {bindings : List Declaration} {params : Ruleset}
    {name : String} (h : c.bindings sc span args = .ok bindings)
    (hparams : params.rules = bindings.map Node.declaration) (harguments : name ≠ "@arguments")
    (hname : ∀ p ∈ c.params, p.name ≠ name) : params.binding? name = none := by
  obtain ⟨bound, hbound, ⟨⟩⟩ := bind_eq_ok_iff.1 h
  refine Ruleset.binding?_eq_none ?_
  rw [hparams]
  rintro n hn ⟨b, hb, rfl⟩
  obtain ⟨d, hd, rfl⟩ := List.mem_map.1 hn
  obtain rfl : d = b := by
    rw [Node.binding?] at hb
    split at hb
    · exact Option.some.inj hb
    · cases hb
  rcases List.mem_append.1 hd with hd | hd
  · have hmem : d.name ∈ c.params.map Param.name :=
      Candidate.map_name_bindParams hbound ▸ List.mem_map_of_mem hd
    obtain ⟨p, hp, hpd⟩ := List.mem_map.1 hmem
    exact hname p hp hpd
  · cases List.mem_singleton.1 hd
    exact harguments rfl

end Bindings

section Scopes

variable {fit : Fit} {caller : Scope} {s : Store} {bound : Nat}

theorem Node.AllSound.of_encloses {nodes rules : List Node} (h : Node.AllSound fit bound nodes)
    (hrules : Node.Encloses nodes rules) :
    Node.AllSound fit bound rules ∧ Node.Settled fit rules := by
  induction hrules with
  | ruleset hmem => exact ⟨(h _ hmem).rules, (h _ hmem).settled⟩
  | definition hmem =>
    cases h _ hmem with
    | definition huntouched hrules _ _ _ => exact ⟨hrules, huntouched.settled⟩
  | trans _ _ ih ih' => exact ih' (ih h).1

/-- Variables that the rules of a definition leave to others are looked up in the frames that it has
hold of, and then in those of the call. -/
theorem Definition.Leaves.binding? {d : Definition} {slots : List Slot} {name : String}
    (h : d.Leaves slots name) {span : Span} {args : List Value} {bindings : List Declaration}
    {params frame : Ruleset} (selectors : List Selector)
    (hbindings : (Candidate.definition d).bindings caller span args = .ok bindings)
    (hparams : params.rules = bindings.map Node.declaration)
    (hdeclared : DeclaredIn slots frame.rules) :
    ((caller.inBody params (.definition d)).enter frame selectors).binding? name =
      (d.closure.getD [] ++ caller.frames).findSome? (·.binding? name) := by
  have hframe : frame.binding? name = none := by
    refine Ruleset.binding?_eq_none fun n hn hname => ?_
    obtain ⟨slot, hslot, hslotName⟩ := hdeclared n hn name hname
    exact h.slots slot hslot hslotName
  have hnone : params.binding? name = none :=
    Candidate.binding?_params_eq_none hbindings hparams h.arguments h.params
  rw [Scope.binding?]
  change (frame :: params :: (d.closure.getD [] ++ caller.frames)).findSome? _ = _
  rw [List.findSome?_cons, hframe, List.findSome?_cons, hnone]

/-- A sound definition that is expanded in a scope that is ready is lexically scoped. -/
theorem lexicallyScoped_of_sound {d : Definition} (hsc : caller.Ready fit s)
    (hd : Node.Sound fit bound (.definition d)) {slots : List Slot} {span : Span}
    {args : List Value} {bindings : List Declaration} {params frame : Ruleset}
    (selectors : List Selector)
    (hbindings : (Candidate.definition d).bindings caller span args = .ok bindings)
    (hparams : params.rules = bindings.map Node.declaration)
    (hdeclared : DeclaredIn slots frame.rules) :
    d.LexicallyScoped fit caller slots
      ((caller.inBody params (.definition d)).enter frame selectors) where
  written := by
    cases hd with
    | definition huntouched _ _ _ _ => exact huntouched
  home := by
    cases hd with
    | definition _ _ hcaptured _ _ => exact hcaptured
  reached := by
    intro home outer name b hclosure hleaves hhome
    rw [hleaves.binding? selectors hbindings hparams hdeclared, hclosure, Option.getD_some,
      List.cons_append, List.findSome?_cons, hhome]
  unreached := by
    intro hclosure name hleaves
    rw [hleaves.binding? selectors hbindings hparams hdeclared, hclosure, Option.getD_none,
      List.nil_append, Scope.binding?]
  around := by
    intro frame hframe hmem hclosure
    have hnot : ¬Node.AllCaptured frame.rules := fun hall => by simpa [hclosure] using hall d hmem
    exact ⟨fun hdepth => hnot (hsc.captured hdepth frame hframe),
      (hsc.view frame hframe).resolve_left hnot⟩
  elsewhere := fun frame hframe _ hrules hmem hclosure =>
    ((hsc.frames frame hframe).of_encloses hrules).2.untouched hmem hclosure

end Scopes

open Classical in
/-- Evaluate the declarations of definitions as the compiler does where they are lexically scoped,
and by another evaluator where they are not. -/
noncomputable def Evaluator.checked (fit : Fit) (other : Evaluator) : Evaluator :=
  fun c caller slots inner d =>
    if ∀ definition, c = .definition definition →
      definition.LexicallyScoped fit caller slots inner then inner.declaration d
    else other c caller slots inner d

theorem Evaluator.faithful_checked (fit : Fit) (other : Evaluator) :
    (Evaluator.checked fit other).Faithful fit := by
  intro sc s c span args bindings params frame selectors slots hsc hc hbindings hparams hdeclared d
  refine if_pos ?_
  rintro definition rfl
  exact lexicallyScoped_of_sound hsc hc selectors hbindings hparams hdeclared

/-- In every run of the compiler, the declarations in the rules of the definitions that are expanded
are lexically scoped: whatever takes the place of the evaluation of those that are not, the result
is the same. -/
theorem compileToCss_lexicallyScoped (rules : List Rule) (options : Options)
    (sources : Option Sources) (other : Evaluator) :
    compileToCssWith (Expander.observed (.checked (.listed rules options sources) other)
      options.maxMixinDepth).compiler rules options sources = compileToCss rules options sources :=
  compileToCss_observed Header.kept_listed (Evaluator.faithful_checked _ other)
    (fun _ _ hroot => .start hroot) trivial .document
    (Rule.fits_listed_all rules .document (List.Subset.refl _))
    fun _ htable entry hentry => Rule.fits_listed_all entry.2 (.source htable hentry)
      (List.Subset.refl _)

/-- A mixin that is called from the rules of another one sees the parameter of that one, and not the
variable of the document in which it is defined. Called directly, it sees the variable of the
document, whatever the caller declares. -/
theorem compileToCss_call_in_mixin :
    let defined : List Rule := [
      .declaration { name := "@c", value := .read "red" },
      .definition { name := { elements := [{ value := ".m" }] } }
        [.declaration { name := "color", value := .read "@c" }],
      .definition { name := { elements := [{ value := ".n" }] }, params := [{ name := "@c" }] }
        [.call { selector := { elements := [{ value := ".m" }] } }]]
    let caller (rules : List Rule) : Rule :=
      .ruleset { selectors := [{ elements := [{ value := ".x" }] }] } rules
    compileToCss (defined ++ [caller
        [.call { selector := { elements := [{ value := ".n" }] }, args := [.read "blue"] }]]) {}
        none = .ok ".x \x7b\n  color: blue;\n\x7d" ∧
      compileToCss (defined ++ [caller
        [.declaration { name := "@c", value := .read "blue" },
          .call { selector := { elements := [{ value := ".m" }] } }]]) {} none =
        .ok ".x \x7b\n  color: red;\n\x7d" := by
  decide +kernel

/-- A mixin that is called before the ruleset around it is compiled sees the variable of the caller.
Called afterwards, it sees the one of its ruleset. -/
example :
    let home : Rule := .ruleset { selectors := [{ elements := [{ value := "#ns" }] }] }
      [.declaration { name := "@c", value := .read "blue" },
        .definition { name := { elements := [{ value := ".m" }] } }
          [.declaration { name := "color", value := .read "@c" }]]
    let caller : Rule := .ruleset { selectors := [{ elements := [{ value := ".x" }] }] }
      [.declaration { name := "@c", value := .read "red" },
        .call { selector :=
          { elements := [{ value := "#ns" }, { combinator := .child, value := ".m" }] } }]
    compileToCss [caller, home] {} none = .ok ".x \x7b\n  color: red;\n\x7d" ∧
      compileToCss [home, caller] {} none = .ok ".x \x7b\n  color: blue;\n\x7d" := by
  decide +kernel

end Stylesheet
