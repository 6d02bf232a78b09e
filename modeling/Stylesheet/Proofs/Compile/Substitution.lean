import Stylesheet.Proofs.Compile.Reported
import Mathlib.Logic.Relation

/-!
# Variables are substituted in full

The variables of a scope form a graph: a variable refers to those that occur in the
value it is bound to. What a variable spells out is its value with each reference
replaced by what the variable there spells out, and nothing else is replaced. A
variable spells out at most one text. It spells out one exactly if all variables that
can be reached from it are bound and none of them is on a cycle.

Resolving follows the references and keeps a list of the variables it is in. All of
them lead to the variable at hand, so one that is met again is on a cycle. Hence each
error names a variable that stands in the way, and a variable that spells out a text
is resolved to it, however often the same variable is needed on the way.
-/

namespace Stylesheet

/-- What variables are bound to. -/
abbrev Bindings := String → Option Declaration

namespace Bindings

variable {bindings : Bindings} {name inner text : String} {d : Declaration}

/-- The value of the first variable refers to the second one. -/
def Refers (bindings : Bindings) (name inner : String) : Prop :=
  ∃ d, bindings name = some d ∧ .reference inner ∈ d.value.parts

/-- The second variable is the first one, or can be reached from it by references. -/
abbrev Reaches (bindings : Bindings) : String → String → Prop :=
  Relation.ReflTransGen bindings.Refers

/-- The variable can be reached from itself. -/
def OnCycle (bindings : Bindings) (name : String) : Prop :=
  Relation.TransGen bindings.Refers name name

mutual

/-- The text of a variable with all references replaced. -/
inductive Spells (bindings : Bindings) : String → String → Prop
  | bound {name text : String} {d : Declaration} (hd : bindings name = some d)
      (hparts : SpellsAll bindings d.value.parts text) : Spells bindings name text

/-- The text of some pieces with all references replaced. -/
inductive SpellsAll (bindings : Bindings) : List Part → String → Prop
  | nil : SpellsAll bindings [] ""
  | text (s : String) {parts : List Part} {rest : String} (hrest : SpellsAll bindings parts rest) :
      SpellsAll bindings (.text s :: parts) (s ++ rest)
  | reference {inner text : String} {parts : List Part} {rest : String}
      (htext : Spells bindings inner text) (hrest : SpellsAll bindings parts rest) :
      SpellsAll bindings (.reference inner :: parts) (text ++ rest)

end

mutual

/-- A variable spells out at most one text. -/
theorem Spells.unique {text' : String} : ∀ {name text : String}, Spells bindings name text →
    Spells bindings name text' → text = text'
  | _, _, .bound hd hparts, .bound hd' hparts' => by
    obtain rfl := Option.some.inj (hd.symm.trans hd')
    exact hparts.unique hparts'

theorem SpellsAll.unique {text' : String} : ∀ {parts : List Part} {text : String},
    SpellsAll bindings parts text → SpellsAll bindings parts text' → text = text'
  | _, _, .nil, .nil => rfl
  | _, _, .text s hrest, .text _ hrest' => by rw [hrest.unique hrest']
  | _, _, .reference htext hrest, .reference htext' hrest' => by
    rw [htext.unique htext', hrest.unique hrest']

end

theorem SpellsAll.exists_of_mem {parts : List Part} : ∀ {text : String},
    SpellsAll bindings parts text → .reference inner ∈ parts → ∃ text, Spells bindings inner text
  | _, .text s hrest, hmem => hrest.exists_of_mem (by simpa using hmem)
  | _, .reference htext hrest, hmem => by
    rcases List.mem_cons.1 hmem with hfirst | hmem
    · cases hfirst
      exact ⟨_, htext⟩
    · exact hrest.exists_of_mem hmem

/-- What can be reached from a variable that spells out a text spells out texts as well. -/
theorem Spells.exists_of_reaches {m : String} (h : Spells bindings name text)
    (hreaches : bindings.Reaches name m) : ∃ text, Spells bindings m text := by
  induction hreaches with
  | refl => exact ⟨text, h⟩
  | tail _ hrefers ih =>
    obtain ⟨_, ⟨hd, hparts⟩⟩ := ih
    obtain ⟨d, hd', hmem⟩ := hrefers
    obtain rfl := Option.some.inj (hd.symm.trans hd')
    exact hparts.exists_of_mem hmem

theorem Spells.exists_binding (h : Spells bindings name text) : ∃ d, bindings name = some d := by
  obtain ⟨hd, -⟩ := h
  exact ⟨_, hd⟩

mutual

/-- A variable that spells out a text is on no cycle: what it refers to would be on it as well. -/
theorem Spells.not_onCycle : ∀ {name text : String}, Spells bindings name text →
    ¬ bindings.OnCycle name
  | _, _, .bound hd hparts, hcycle => by
    obtain ⟨inner, ⟨d, hd', hmem⟩, hback⟩ := Relation.TransGen.head'_iff.1 hcycle
    obtain rfl := Option.some.inj (hd.symm.trans hd')
    exact hparts.not_onCycle hmem (.tail' hback ⟨_, hd, hmem⟩)

theorem SpellsAll.not_onCycle {inner : String} : ∀ {parts : List Part} {text : String},
    SpellsAll bindings parts text → .reference inner ∈ parts → ¬ bindings.OnCycle inner
  | _, _, .text s hrest, hmem => hrest.not_onCycle (by simpa using hmem)
  | _, _, .reference htext hrest, hmem =>
    (List.mem_cons.1 hmem).elim (fun hfirst => Part.reference.inj hfirst ▸ htext.not_onCycle)
      hrest.not_onCycle

end

/-- Pieces whose references are looked up one by one are spelled out. -/
theorem spellsAll_of_forall₂ {lookup : String → Except Error String} {parts : List Part}
    {texts : List String}
    (h : List.Forall₂ (fun part text => part.fill lookup = .ok text) parts texts)
    (hlookup : ∀ inner text, lookup inner = .ok text → Spells bindings inner text) :
    SpellsAll bindings parts (String.join texts) := by
  induction h with
  | nil => exact .nil
  | @cons part text parts texts hpart _ ih =>
    rw [String.join_cons]
    cases part with
    | text s =>
      cases hpart
      exact .text text ih
    | reference inner => exact .reference (hlookup inner text hpart) ih

end Bindings

namespace Value

@[simp] theorem text_literal (s : String) : (literal s).text = s := by
  unfold literal
  split
  next hempty =>
    rw [String.isEmpty_iff.1 hempty]
    rfl
  next => simp [text, Part.source]

/-- Whether it is copied or put together, a value that was filled in reads as its pieces do. -/
theorem exists_of_fill_eq_ok {lookup : String → Except Error String} {v w : Value}
    (h : v.fill lookup = .ok w) :
    ∃ texts, List.Forall₂ (fun part text => part.fill lookup = .ok text) v.parts texts ∧
      w.text = String.join texts := by
  unfold fill at h
  split at h
  next hresolved =>
    cases h
    refine ⟨v.parts.map Part.source, List.forall₂_map_right_iff.2 (List.forall₂_same.2 ?_), rfl⟩
    intro part hpart
    have htext := List.all_eq_true.1 hresolved part hpart
    cases part with
    | text s => rfl
    | reference inner => cases htext
  next =>
    obtain ⟨text, htext, ⟨⟩⟩ := bind_eq_ok_iff.1 h
    obtain ⟨texts, htexts, ⟨⟩⟩ := bind_eq_ok_iff.1 htext
    exact ⟨texts, mapM_eq_ok_iff.1 htexts, text_literal _⟩

end Value

namespace Scope

variable {sc : Scope} {name : String} {span : Span}

/-- What a variable is resolved to is what it spells out. -/
theorem spells_of_resolve {v : Value} (h : sc.resolve name span = .ok v) :
    Bindings.Spells sc.binding? name v.text := by
  induction sc, name, span using Scope.resolve.induct generalizing v with
  | case1 sc name span hd =>
    rw [resolve_of_unbound hd] at h
    cases h
  | case2 sc name span d hd hp =>
    rw [resolve_of_pending hd hp] at h
    cases h
  | case3 sc name span d hd hp ih =>
    rw [resolve_of_bound hd hp] at h
    obtain ⟨texts, htexts, hv⟩ := Value.exists_of_fill_eq_ok h
    rw [hv]
    refine .bound hd (Bindings.spellsAll_of_forall₂ htexts ?_)
    intro inner text hinner
    obtain ⟨w, hw, ⟨⟩⟩ := bind_eq_ok_iff.1 hinner
    exact ih inner hw

/-- The error names a variable that stands in the way of resolving the given one. -/
inductive Blames (bindings : Bindings) (name : String) : Error → Prop
  | unbound {m : String} (position : Span) (hreaches : bindings.Reaches name m)
      (hnone : bindings m = none) : Blames bindings name (.undefinedVariable m position)
  | cycle {m : String} (position : Span) (hreaches : bindings.Reaches name m)
      (hcycle : bindings.OnCycle m) : Blames bindings name (.recursiveVariable m position)

theorem Blames.of_refers {bindings : Bindings} {inner : String} {e : Error}
    (h : Blames bindings inner e) (hrefers : bindings.Refers name inner) :
    Blames bindings name e := by
  cases h with
  | unbound position hreaches hnone => exact .unbound position (.head hrefers hreaches) hnone
  | cycle position hreaches hcycle => exact .cycle position (.head hrefers hreaches) hcycle

/-- As long as all variables that are being resolved lead to the one at hand, an error names one
that stands in the way. -/
theorem blames_of_resolve {e : Error}
    (hpending : ∀ m ∈ sc.pending, Relation.TransGen (Bindings.Refers sc.binding?) m name)
    (h : sc.resolve name span = .error e) : Blames sc.binding? name e := by
  induction sc, name, span using Scope.resolve.induct with
  | case1 sc name span hd =>
    rw [resolve_of_unbound hd] at h
    cases h
    exact .unbound span .refl hd
  | case2 sc name span d hd hp =>
    rw [resolve_of_pending hd hp] at h
    cases h
    exact .cycle span .refl (hpending name hp)
  | case3 sc name span d hd hp ih =>
    rw [resolve_of_bound hd hp] at h
    obtain ⟨inner, hmem, hinner⟩ := exists_of_fill_eq_error h
    have hrefers : Bindings.Refers sc.binding? name inner := ⟨d, hd, hmem⟩
    refine (ih inner ?_ (bind_pure_eq_error_iff.1 hinner)).of_refers hrefers
    exact List.forall_mem_cons.2 ⟨.single hrefers, fun m hm => (hpending m hm).tail hrefers⟩

/-- With nothing being resolved, a variable is resolved if and only if all variables that can be
reached from it are bound and on no cycle. It is then resolved to the text that it spells out.
Otherwise the error names one that is unbound, or one on a cycle. -/
theorem resolve_substitutes (hpending : sc.pending = []) (name : String) (span : Span) :
    ((∃ v, sc.resolve name span = .ok v) ↔
      ∀ m, Bindings.Reaches sc.binding? name m →
        (∃ d, sc.binding? m = some d) ∧ ¬ Bindings.OnCycle sc.binding? m) ∧
    (∀ text, (∃ v, sc.resolve name span = .ok v ∧ v.text = text) ↔
      Bindings.Spells sc.binding? name text) ∧
    ∀ e, sc.resolve name span = .error e → Blames sc.binding? name e := by
  have hblames : ∀ e, sc.resolve name span = .error e → Blames sc.binding? name e :=
    fun e => blames_of_resolve (by simp [hpending])
  have hclear : ∀ text, Bindings.Spells sc.binding? name text →
      ∀ m, Bindings.Reaches sc.binding? name m →
        (∃ d, sc.binding? m = some d) ∧ ¬ Bindings.OnCycle sc.binding? m := by
    intro text hspells m hreaches
    obtain ⟨inner, hinner⟩ := hspells.exists_of_reaches hreaches
    exact ⟨hinner.exists_binding, hinner.not_onCycle⟩
  have hresolves : (∀ m, Bindings.Reaches sc.binding? name m →
      (∃ d, sc.binding? m = some d) ∧ ¬ Bindings.OnCycle sc.binding? m) →
        ∃ v, sc.resolve name span = .ok v := by
    intro h
    cases hresult : sc.resolve name span with
    | ok v => exact ⟨v, rfl⟩
    | error e =>
      cases hblames e hresult with
      | unbound position hreaches hnone =>
        obtain ⟨d, hd⟩ := (h _ hreaches).1
        rw [hnone] at hd
        cases hd
      | cycle position hreaches hcycle => exact absurd hcycle (h _ hreaches).2
  refine ⟨⟨?_, hresolves⟩, fun text => ⟨?_, ?_⟩, hblames⟩
  · rintro ⟨v, hv⟩
    exact hclear _ (spells_of_resolve hv)
  · rintro ⟨v, hv, rfl⟩
    exact spells_of_resolve hv
  · intro hspells
    obtain ⟨v, hv⟩ := hresolves (hclear text hspells)
    exact ⟨v, hv, (spells_of_resolve hv).unique hspells⟩

/-- A variable that is needed twice is not taken for a cycle, and text that looks like a reference
to it is left alone. Beside it, two variables refer to each other. -/
theorem resolve_substitutes_diamond :
    let bind (name : String) (parts : List Part) : Node := .declaration { name, value := { parts } }
    let outer : Ruleset := ⟨0, none, {}, [
      bind "@a" [.reference "@b", .text " ", .reference "@c"], bind "@d" [.text "1"],
      bind "@x" [.reference "@y"], bind "@y" [.text "0", .reference "@x"]]⟩
    let inner : Ruleset := ⟨1, none, {}, [
      bind "@b" [.reference "@d"], bind "@c" [.text "@d", .reference "@d"],
      bind "@d" [.text "2"]]⟩
    let sc : Scope := { frames := [inner, outer] }
    sc.pending = [] ∧ Bindings.Spells sc.binding? "@a" "2 @d2" ∧
      (∀ m, Bindings.Reaches sc.binding? "@a" m → ¬ Bindings.OnCycle sc.binding? m) ∧
      Blames sc.binding? "@x" (.recursiveVariable "@x" {}) := by
  intro bind outer inner sc
  obtain ⟨hclear, hspells, -⟩ := resolve_substitutes (show sc.pending = [] from rfl) "@a" {}
  have hresolve : sc.resolve "@a" {} = .ok (.literal "2 @d2") := by decide +kernel
  refine ⟨rfl, (hspells _).1 ⟨_, hresolve, Value.text_literal _⟩, ?_, ?_⟩
  · exact fun m hm => (hclear.1 ⟨_, hresolve⟩ m hm).2
  · exact (resolve_substitutes rfl "@x" {}).2.2 _ (by decide +kernel)

end Scope

end Stylesheet
