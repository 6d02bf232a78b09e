import Stylesheet.Proofs.Path.WellFormed
import Stylesheet.Rule.Decoder

/-!
# Rule trees that were read

What holds of every rule whose inner rules have it holds of all rules that were read. The
reader of selectors refuses a text without an element, so all selectors in a rule tree that
was read have elements, at any depth.
-/

namespace Stylesheet

/-- A selector that was read has an element. -/
theorem Selector.elements_ne_nil_of_read {text : String} {s : Selector}
    (h : Selector.read text = .ok s) : s.elements ≠ [] := by
  unfold Selector.read at h
  split at h
  · rename_i elements helements
    cases h
    obtain ⟨reader, -, hfinish⟩ := bind_eq_ok_iff.1 helements
    unfold Reader.finish at hfinish
    split at hfinish
    · cases hfinish
    split at hfinish
    · cases hfinish
    split at hfinish
    · cases hfinish
    · rename_i hempty
      cases hfinish
      simpa using hempty
  · cases h

open Decoded

theorem exists_read_of_asSelector {json : Json} {s : Selector} (h : asSelector json = .ok s) :
    ∃ text, Selector.read text = .ok s := by
  obtain ⟨text, -, hread⟩ := bind_eq_ok_iff.1 h
  cases hs : Selector.read text with
  | ok t =>
    rw [hs] at hread
    cases hread
    exact ⟨text, hs⟩
  | error e =>
    rw [hs] at hread
    cases hread

theorem elements_ne_nil_of_selectorsField {fields : Fields} {name : String}
    {selectors : List Selector} (h : fieldOr fields name [] (list asSelector) = .ok selectors) :
    ∀ s ∈ selectors, s.elements ≠ [] := by
  unfold fieldOr at h
  split at h
  · cases h
    exact fun s hs => by cases hs
  · obtain ⟨items, -, hitems⟩ := bind_eq_ok_iff.1 h
    intro s hs
    obtain ⟨json, -, hjson⟩ := exists_of_mem_right (mapM_eq_ok_iff.1 hitems) hs
    obtain ⟨text, hread⟩ := exists_read_of_asSelector hjson
    exact Selector.elements_ne_nil_of_read hread

theorem Header.hasElements_of_ofFields {fields : Fields} {header : Header}
    (h : Header.ofFields fields = .ok header) : header.HasElements := by
  obtain ⟨selectors, hselectors, h⟩ := bind_eq_ok_iff.1 h
  obtain ⟨root, -, h⟩ := bind_eq_ok_iff.1 h
  obtain ⟨firstRoot, -, h⟩ := bind_eq_ok_iff.1 h
  obtain ⟨allowImports, -, h⟩ := bind_eq_ok_iff.1 h
  obtain ⟨strictImports, -, h⟩ := bind_eq_ok_iff.1 h
  obtain ⟨paths, -, ⟨⟩⟩ := bind_eq_ok_iff.1 h
  exact elements_ne_nil_of_selectorsField hselectors

theorem MixinCall.exists_read_of_ofFields {fields : Fields} {c : MixinCall}
    (h : MixinCall.ofFields fields = .ok c) : ∃ text, Selector.read text = .ok c.selector := by
  obtain ⟨selector, hselector, h⟩ := bind_eq_ok_iff.1 h
  obtain ⟨args, -, h⟩ := bind_eq_ok_iff.1 h
  obtain ⟨important, -, h⟩ := bind_eq_ok_iff.1 h
  obtain ⟨span, -, ⟨⟩⟩ := bind_eq_ok_iff.1 h
  unfold field at hselector
  split at hselector
  · cases hselector
  · exact exists_read_of_asSelector hselector

namespace Rule

/-- A rule that some fields give. The rules inside it are what was read from its field `rules`, or
none. -/
inductive Given (fields : Fields) (rules : Option (Decoded (List Rule))) : Rule → Prop
  | declaration {d : Declaration} (hd : Declaration.ofFields fields = .ok d) :
      Given fields rules (.declaration d)
  | ruleset {header : Header} {body : List Rule} (hheader : Header.ofFields fields = .ok header)
      (hbody : rules.getD (.ok []) = .ok body) : Given fields rules (.ruleset header body)
  | definition {signature : Signature} {body : List Rule}
      (hsignature : Signature.ofFields fields = .ok signature)
      (hbody : rules.getD (.ok []) = .ok body) : Given fields rules (.definition signature body)
  | call {c : MixinCall} (hcall : MixinCall.ofFields fields = .ok c) : Given fields rules (.call c)
  | inclusion {i : Import} (hi : Import.ofFields fields = .ok i) :
      Given fields rules (.inclusion i)
  | comment {c : Comment} (hc : Comment.ofFields fields = .ok c) : Given fields rules (.comment c)
  | media {head : MediaHead} {body : List Rule} (hhead : MediaHead.ofFields fields = .ok head)
      (hbody : rules.getD (.ok []) = .ok body) : Given fields rules (.media head body)
  | directive {head : DirectiveHead} (hhead : DirectiveHead.ofFields fields = .ok head) :
      Given fields rules (.directive head none)
  | directiveBlock {head : DirectiveHead} {body : List Rule}
      (hhead : DirectiveHead.ofFields fields = .ok head)
      (hbody : rules.getD (.ok []) = .ok body) : Given fields rules (.directive head (some body))

theorem given_of_ofFields {kind : Kind} {fields : Fields} {rules : Option (Decoded (List Rule))}
    {rule : Rule} (h : ofFields kind fields rules = .ok rule) : Given fields rules rule := by
  cases kind with
  | declaration =>
    obtain ⟨d, hd, ⟨⟩⟩ := bind_eq_ok_iff.1 h
    exact .declaration hd
  | ruleset =>
    obtain ⟨header, hheader, h⟩ := bind_eq_ok_iff.1 h
    obtain ⟨body, hbody, ⟨⟩⟩ := bind_eq_ok_iff.1 h
    exact .ruleset hheader hbody
  | definition =>
    obtain ⟨signature, hsignature, h⟩ := bind_eq_ok_iff.1 h
    obtain ⟨body, hbody, ⟨⟩⟩ := bind_eq_ok_iff.1 h
    exact .definition hsignature hbody
  | call =>
    obtain ⟨c, hcall, ⟨⟩⟩ := bind_eq_ok_iff.1 h
    exact .call hcall
  | inclusion =>
    obtain ⟨i, hi, ⟨⟩⟩ := bind_eq_ok_iff.1 h
    exact .inclusion hi
  | comment =>
    obtain ⟨c, hc, ⟨⟩⟩ := bind_eq_ok_iff.1 h
    exact .comment hc
  | media =>
    obtain ⟨head, hhead, h⟩ := bind_eq_ok_iff.1 h
    obtain ⟨body, hbody, ⟨⟩⟩ := bind_eq_ok_iff.1 h
    exact .media hhead hbody
  | directive =>
    obtain ⟨head, hhead, h⟩ := bind_eq_ok_iff.1 h
    split at h
    · cases h
      exact .directive hhead
    · cases h
      exact .directive hhead
    · obtain ⟨body, hbody, ⟨⟩⟩ := bind_eq_ok_iff.1 h
      exact .directiveBlock hhead hbody

/-- A property that a rule has whenever the rules inside it have it. -/
def Inherits (P : Rule → Prop) : Prop :=
  ∀ {fields : Fields} {rules : Option (Decoded (List Rule))} {rule : Rule},
    (∀ body, rules.getD (.ok []) = .ok body → ∀ r ∈ body, P r) → Given fields rules rule → P rule

theorem inherits_fits : Inherits (Rule.Fits .hasElements) := by
  intro fields rules rule hrules h
  cases h with
  | declaration => exact .declaration _
  | ruleset hheader hbody =>
    exact .ruleset (Header.hasElements_of_ofFields hheader) trivial (hrules _ hbody)
  | definition _ hbody => exact .definition trivial (hrules _ hbody)
  | call => exact .call _
  | inclusion => exact .inclusion _
  | comment => exact .comment _
  | media _ hbody => exact .media trivial (hrules _ hbody)
  | directive => exact .directive (fun _ _ => trivial) fun body hnone => by cases hnone
  | directiveBlock _ hbody =>
    refine .directive (fun _ _ => trivial) ?_
    rintro _ ⟨⟩
    exact hrules _ hbody

section Reading

variable {P : Rule → Prop}

theorem forall_mem_getD {rules : Option (Decoded (List Rule))}
    (h : ∀ body, rules = some (.ok body) → ∀ r ∈ body, P r) :
    ∀ body, rules.getD (.ok []) = .ok body → ∀ r ∈ body, P r := by
  intro body hbody
  cases rules with
  | none =>
    cases hbody
    exact fun r hr => by cases hr
  | some read => exact h body (congrArg some hbody)

mutual

theorem of_ofJson (hP : Inherits P) (nested : Bool) : ∀ (json : Json) (rule : Rule),
    ofJson nested json = .ok rule → P rule
  | .object entries, rule, h => by
    rw [ofJson] at h
    obtain ⟨tag, -, h⟩ := bind_eq_ok_iff.1 h
    obtain ⟨kind, -, h⟩ := bind_eq_ok_iff.1 h
    obtain ⟨fields, -, h⟩ := bind_eq_ok_iff.1 h
    exact hP (forall_mem_getD (of_rulesEntry hP entries)) (given_of_ofFields h)
  | .array (tag :: items), rule, h => by
    rw [ofJson] at h
    obtain ⟨kind, -, h⟩ := bind_eq_ok_iff.1 h
    obtain ⟨fields, -, h⟩ := bind_eq_ok_iff.1 h
    refine hP (forall_mem_getD fun body hlookup => of_eachAsRules hP items body ?_)
      (given_of_ofFields h)
    obtain ⟨before, after, hzip, -⟩ := List.lookup_eq_some_iff.1 hlookup
    exact (List.of_mem_zip (hzip ▸ List.mem_append_right before List.mem_cons_self)).2
  | .array [], _, h | .null, _, h | .bool _, _, h | .natural _, _, h | .number _, _, h
  | .string _, _, h | .invalid, _, h => by cases h

theorem of_listOfJson (hP : Inherits P) (nested : Bool) : ∀ (json : Json) (rules : List Rule),
    listOfJson nested json = .ok rules → ∀ r ∈ rules, P r
  | .array items, rules, h => of_listOfItems hP nested items rules h
  | .null, _, h | .bool _, _, h | .natural _, _, h | .number _, _, h | .string _, _, h
  | .invalid, _, h | .object _, _, h => by cases h

theorem of_listOfItems (hP : Inherits P) (nested : Bool) : ∀ (items : List Json)
    (rules : List Rule), listOfItems nested items = .ok rules → ∀ r ∈ rules, P r
  | [], rules, h => by
    cases h
    exact fun r hr => by cases hr
  | item :: items, rules, h => by
    obtain ⟨rule, hrule, h⟩ := bind_eq_ok_iff.1 h
    obtain ⟨rest, hrest, ⟨⟩⟩ := bind_eq_ok_iff.1 h
    exact List.forall_mem_cons.2
      ⟨of_ofJson hP nested item rule hrule, of_listOfItems hP nested items rest hrest⟩

theorem of_rulesEntry (hP : Inherits P) : ∀ (entries : List (String × Json)) (body : List Rule),
    rulesEntry entries = some (.ok body) → ∀ r ∈ body, P r
  | [], body, h => by cases h
  | (key, value) :: entries, body, h => by
    rw [rulesEntry] at h
    split at h
    · exact of_listOfJson hP true value body (Option.some.inj h)
    · exact of_rulesEntry hP entries body h

theorem of_eachAsRules (hP : Inherits P) : ∀ (items : List Json) (body : List Rule),
    .ok body ∈ eachAsRules items → ∀ r ∈ body, P r
  | [], body, h => by cases h
  | item :: items, body, h => by
    rcases List.mem_cons.1 h with h | h
    · exact of_listOfJson hP true item body h.symm
    · exact of_eachAsRules hP items body h

end

end Reading

/-- All selectors of a rule tree that was read have elements, at any depth. -/
theorem fits_readList {json : Json} {rules : List Rule} (h : readList json = .ok rules) :
    ∀ rule ∈ rules, rule.Fits .hasElements :=
  of_listOfJson inherits_fits false json rules h

end Rule

end Stylesheet
