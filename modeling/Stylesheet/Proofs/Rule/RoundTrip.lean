import Stylesheet.Proofs.Rule.Decoded
import Stylesheet.Proofs.Selector.Readback
import Stylesheet.Proofs.Value.References
import Stylesheet.Rule.Encoder

/-!
# Writing and reading rule trees

A rule tree that was read can be written and read again, and comes back as it is. Each part
of a rule has a reader and a writer of its own. What the reader gave, the writer writes in a
way that the reader understands again. This holds of texts and numbers, of selectors and
values, which have grammars of their own, and from there of everything that is put together
from them.

Nothing is said here of trees that were not read: the text of a selector without elements,
say, is no selector.
-/

namespace Stylesheet

open Decoded

section Readers

variable {α : Type} {read : Json → Decoded α} {write : α → Json} {fields : Fields} {name : String}
variable {a absent : α}

/-- What the reader gave, it gives again for what the writer writes. -/
def Decoded.ReadsBack (read : Json → Decoded α) (write : α → Json) : Prop :=
  ∀ (json : Json) (a : α), read json = .ok a → read (write a) = .ok a

theorem readsBack_asString : ReadsBack asString Json.string := fun _ _ _ => rfl

theorem readsBack_asWord : ReadsBack asWord Json.natural := by
  intro json n h
  cases json with
  | natural m =>
    have hword : ofOption (if m < UInt64.size then some m else none) = .ok n := h
    split at hword
    next hlt =>
      obtain rfl := Except.ok.inj hword
      exact h
    next => cases hword
  | _ => cases h

/-- The text of a selector is read by the grammar of selectors. -/
theorem readsBack_asSelector : ReadsBack asSelector Selector.toJson := by
  intro json s h
  obtain ⟨text, hread⟩ := exists_read_of_asSelector h
  have htext : asString s.toJson = .ok s.text := rfl
  rw [asSelector, htext, ok_bind, Selector.read_text hread]
  rfl

/-- The text of a value is read by the grammar of values. -/
theorem readsBack_asValue : ReadsBack asValue Value.toJson := by
  intro json v h
  obtain ⟨source, -, ⟨⟩⟩ := bind_eq_ok_iff.1 h
  show Except.ok (Value.read (Value.read source).text) = .ok (Value.read source)
  rw [Value.text_read]

namespace Decoded.ReadsBack

theorem list (h : ReadsBack read write) :
    ReadsBack (Decoded.list read) fun as => .array (as.map write) := by
  intro json as has
  obtain ⟨items, -, hitems⟩ := bind_eq_ok_iff.1 has
  show (as.map write).mapM read = .ok as
  refine mapM_eq_ok_iff.2 (List.forall₂_map_left_iff.2 ?_)
  refine List.forall₂_same.2 fun a ha => ?_
  obtain ⟨item, -, hitem⟩ := exists_of_mem_right (mapM_eq_ok_iff.1 hitems) ha
  exact h item a hitem

theorem nullable (h : ReadsBack read write) (hwrite : ∀ a, write a ≠ .null) :
    ReadsBack (Decoded.nullable read) fun a => (a.map write).getD .null := by
  have hsome : ∀ {json : Json}, json ≠ .null →
      Decoded.nullable read json = (read json).map some := by
    intro json hjson
    cases json with
    | null => exact absurd rfl hjson
    | _ => rfl
  intro json a ha
  cases a with
  | none => rfl
  | some a =>
    have hjson : json ≠ .null := by
      rintro rfl
      cases ha
    rw [hsome hjson] at ha
    show Decoded.nullable read (write a) = .ok (some a)
    rw [hsome (hwrite a)]
    cases hread : read json with
    | error e =>
      rw [hread] at ha
      cases ha
    | ok b =>
      rw [hread] at ha
      cases ha
      rw [h json a hread]
      rfl

theorem of_field (h : ReadsBack read write) (hfield : field fields name read = .ok a) :
    read (write a) = .ok a := by
  unfold field at hfield
  split at hfield
  · cases hfield
  · exact h _ _ hfield

theorem of_fieldOr (h : ReadsBack read write) (habsent : read (write absent) = .ok absent)
    (hfield : fieldOr fields name absent read = .ok a) : read (write a) = .ok a := by
  unfold fieldOr at hfield
  split at hfield
  · obtain rfl := Except.ok.inj hfield
    exact habsent
  · exact h _ _ hfield

end Decoded.ReadsBack

theorem readsBack_span : ReadsBack Span.ofJson Span.toJson := by
  intro json s h
  obtain ⟨fields, -, h⟩ := bind_eq_ok_iff.1 h
  obtain ⟨file, -, h⟩ := bind_eq_ok_iff.1 h
  obtain ⟨line, hline, h⟩ := bind_eq_ok_iff.1 h
  obtain ⟨column, hcolumn, ⟨⟩⟩ := bind_eq_ok_iff.1 h
  have hline' := readsBack_asWord.of_fieldOr rfl hline
  have hcolumn' := readsBack_asWord.of_fieldOr rfl hcolumn
  cases file with
  | none =>
    show (asWord (.natural line) >>= fun line => asWord (.natural column) >>= fun column =>
      (pure { line, column } : Decoded Span)) = _
    rw [hline', ok_bind, hcolumn']
    rfl
  | some file =>
    show (asWord (.natural line) >>= fun line => asWord (.natural column) >>= fun column =>
      (pure { file := some file, line, column } : Decoded Span)) = _
    rw [hline', ok_bind, hcolumn']
    rfl

theorem readsBack_spanField {span : Span} (h : spanField fields = .ok span) :
    Span.ofJson span.toJson = .ok span :=
  readsBack_span.of_fieldOr rfl h

theorem readsBack_param : ReadsBack Param.ofJson Param.toJson := by
  intro json p h
  obtain ⟨fields, -, h⟩ := bind_eq_ok_iff.1 h
  obtain ⟨name, -, h⟩ := bind_eq_ok_iff.1 h
  obtain ⟨fallback, hfallback, ⟨⟩⟩ := bind_eq_ok_iff.1 h
  have hfallback' := (readsBack_asValue.nullable (by simp [Value.toJson])).of_fieldOr rfl hfallback
  show (nullable asValue ((fallback.map Value.toJson).getD .null) >>= fun fallback =>
    (pure { name, fallback } : Decoded Param)) = _
  rw [hfallback']
  rfl

end Readers

section Fields

variable {fields : Fields}

theorem Declaration.ofFields_toFields {d : Declaration} (h : Declaration.ofFields fields = .ok d) :
    Declaration.ofFields d.toFields = .ok d := by
  obtain ⟨name, -, h⟩ := bind_eq_ok_iff.1 h
  obtain ⟨value, hvalue, h⟩ := bind_eq_ok_iff.1 h
  obtain ⟨important, -, h⟩ := bind_eq_ok_iff.1 h
  obtain ⟨span, hspan, ⟨⟩⟩ := bind_eq_ok_iff.1 h
  show (asValue value.toJson >>= fun value => Span.ofJson span.toJson >>= fun span =>
    (pure { name, value, important, span } : Decoded Declaration)) = _
  rw [readsBack_asValue.of_field hvalue, ok_bind, readsBack_spanField hspan]
  rfl

/-- The field for the paths is left out if there are none, and then none are read. -/
theorem Header.ofFields_toFields {header : Header} (h : Header.ofFields fields = .ok header)
    (rules : List Json) : Header.ofFields (header.toFields rules) = .ok header := by
  obtain ⟨selectors, hselectors, h⟩ := bind_eq_ok_iff.1 h
  obtain ⟨root, -, h⟩ := bind_eq_ok_iff.1 h
  obtain ⟨firstRoot, -, h⟩ := bind_eq_ok_iff.1 h
  obtain ⟨allowImports, -, h⟩ := bind_eq_ok_iff.1 h
  obtain ⟨strictImports, -, h⟩ := bind_eq_ok_iff.1 h
  obtain ⟨paths, hpaths, ⟨⟩⟩ := bind_eq_ok_iff.1 h
  have hselectors' := readsBack_asSelector.list.of_fieldOr rfl hselectors
  have hpaths' := readsBack_asSelector.list.list.of_fieldOr rfl hpaths
  cases paths with
  | nil =>
    show (list asSelector (.array (selectors.map Selector.toJson)) >>= fun selectors =>
      (pure { selectors, root, firstRoot, allowImports, strictImports } : Decoded Header)) = _
    rw [hselectors']
    rfl
  | cons path paths =>
    show (list asSelector (.array (selectors.map Selector.toJson)) >>= fun selectors =>
      list (list asSelector) (.array ((path :: paths).map fun path =>
        .array (path.map Selector.toJson))) >>= fun paths =>
          (pure { selectors, root, firstRoot, allowImports, strictImports, paths } :
            Decoded Header)) = _
    rw [hselectors', ok_bind, hpaths']
    rfl

theorem Signature.ofFields_toFields {signature : Signature}
    (h : Signature.ofFields fields = .ok signature) (rules : List Json) :
    Signature.ofFields (signature.toFields rules) = .ok signature := by
  obtain ⟨name, hname, h⟩ := bind_eq_ok_iff.1 h
  obtain ⟨params, hparams, h⟩ := bind_eq_ok_iff.1 h
  obtain ⟨span, hspan, ⟨⟩⟩ := bind_eq_ok_iff.1 h
  show (asSelector name.toJson >>= fun name =>
    list Param.ofJson (.array (params.map Param.toJson)) >>= fun params =>
      Span.ofJson span.toJson >>= fun span =>
        (pure { name, params, span } : Decoded Signature)) = _
  rw [readsBack_asSelector.of_field hname, ok_bind, readsBack_param.list.of_fieldOr rfl hparams,
    ok_bind, readsBack_spanField hspan]
  rfl

theorem MixinCall.ofFields_toFields {c : MixinCall} (h : MixinCall.ofFields fields = .ok c) :
    MixinCall.ofFields c.toFields = .ok c := by
  obtain ⟨selector, hselector, h⟩ := bind_eq_ok_iff.1 h
  obtain ⟨args, hargs, h⟩ := bind_eq_ok_iff.1 h
  obtain ⟨important, -, h⟩ := bind_eq_ok_iff.1 h
  obtain ⟨span, hspan, ⟨⟩⟩ := bind_eq_ok_iff.1 h
  show (asSelector selector.toJson >>= fun selector =>
    list asValue (.array (args.map Value.toJson)) >>= fun args =>
      Span.ofJson span.toJson >>= fun span =>
        (pure { selector, args, important, span } : Decoded MixinCall)) = _
  rw [readsBack_asSelector.of_field hselector, ok_bind,
    readsBack_asValue.list.of_fieldOr rfl hargs, ok_bind, readsBack_spanField hspan]
  rfl

theorem Import.ofFields_toFields {i : Import} (h : Import.ofFields fields = .ok i) :
    Import.ofFields i.toFields = .ok i := by
  obtain ⟨path, -, h⟩ := bind_eq_ok_iff.1 h
  obtain ⟨css, -, h⟩ := bind_eq_ok_iff.1 h
  obtain ⟨span, hspan, ⟨⟩⟩ := bind_eq_ok_iff.1 h
  show (Span.ofJson span.toJson >>= fun span => (pure { path, css, span } : Decoded Import)) = _
  rw [readsBack_spanField hspan]
  rfl

theorem Comment.ofFields_toFields (c : Comment) : Comment.ofFields c.toFields = .ok c := rfl

theorem MediaHead.ofFields_toFields {head : MediaHead} (h : MediaHead.ofFields fields = .ok head)
    (rules : List Json) : MediaHead.ofFields (head.toFields rules) = .ok head := by
  obtain ⟨features, -, h⟩ := bind_eq_ok_iff.1 h
  obtain ⟨span, hspan, ⟨⟩⟩ := bind_eq_ok_iff.1 h
  show (Span.ofJson span.toJson >>= fun span =>
    (pure { features, span } : Decoded MediaHead)) = _
  rw [readsBack_spanField hspan]
  rfl

theorem DirectiveHead.ofFields_toFields {head : DirectiveHead}
    (h : DirectiveHead.ofFields fields = .ok head) (rules : Json) :
    DirectiveHead.ofFields (head.toFields rules) = .ok head := by
  obtain ⟨name, -, h⟩ := bind_eq_ok_iff.1 h
  obtain ⟨value, hvalue, h⟩ := bind_eq_ok_iff.1 h
  obtain ⟨span, hspan, ⟨⟩⟩ := bind_eq_ok_iff.1 h
  have hvalue' := (readsBack_asString.nullable (by simp)).of_fieldOr rfl hvalue
  show (nullable asString ((value.map Json.string).getD .null) >>= fun value =>
    Span.ofJson span.toJson >>= fun span =>
      (pure { name, value, span } : Decoded DirectiveHead)) = _
  rw [hvalue', ok_bind, readsBack_spanField hspan]
  rfl

end Fields

namespace Rule

theorem Kind.nodup_fields (kind : Kind) : kind.fields.Nodup := by
  cases kind <;> decide

theorem Kind.type_not_mem_fields (kind : Kind) : "type" ∉ kind.fields := by
  cases kind <;> decide

theorem Kind.ofJson_name (nested : Bool) (kind : Kind) :
    Kind.ofJson nested (.string kind.name) = .ok kind := by
  cases kind <;> rfl

/-- An object that was written with some of the fields of its kind is read from these. -/
theorem ofJson_tagged {kind : Kind} {fields : Fields}
    (hkeys : (fields.map Prod.fst).Sublist kind.fields) (nested : Bool) :
    ofJson nested (tagged kind fields) = ofFields kind fields (rulesEntry fields) := by
  have hmem : ∀ entry ∈ fields, entry.1 ∈ kind.fields :=
    fun entry hentry => hkeys.subset (List.mem_map_of_mem hentry)
  have hfields : fields.filter (fun entry => kind.fields.contains entry.1) = fields :=
    List.filter_eq_self.2 fun entry hentry => List.contains_iff_mem.2 (hmem entry hentry)
  have htypes : fields.filter (·.1 = "type") = [] := by
    refine List.filter_eq_nil_iff.2 fun entry hentry htype => kind.type_not_mem_fields ?_
    rw [← of_decide_eq_true htype]
    exact hmem entry hentry
  have htag : tag? (("type", .string kind.name) :: fields) = some (.string kind.name) := by
    rw [tag?, List.filter_cons_of_pos (by simp), htypes]
  have hgiven : (Json.object (("type", .string kind.name) :: fields)).fields? kind.fields =
      some fields := by
    have hnot : ¬ kind.fields.contains "type" = true :=
      fun h => kind.type_not_mem_fields (List.contains_iff_mem.1 h)
    dsimp only [Json.fields?]
    rw [List.filter_cons, if_neg hnot, hfields]
    exact if_pos (kind.nodup_fields.sublist hkeys)
  have hrules : rulesEntry (("type", .string kind.name) :: fields) = rulesEntry fields := by
    rw [rulesEntry, if_neg (by decide)]
  rw [tagged, ofJson, htag, hrules]
  show (Kind.ofJson nested (.string kind.name) >>= fun kind' =>
    ofOption ((Json.object (("type", .string kind.name) :: fields)).fields? kind'.fields) >>=
      fun fields' => ofFields kind' fields' (rulesEntry fields)) = _
  rw [Kind.ofJson_name, ok_bind, hgiven]
  rfl

/-- The rule comes back when it is written and read again. -/
def ReadsBack (rule : Rule) : Prop := ∀ nested, ofJson nested rule.toJson = .ok rule

theorem listOfItems_listToJson {rules : List Rule} (h : ∀ rule ∈ rules, rule.ReadsBack)
    (nested : Bool) : listOfItems nested (listToJson rules) = .ok rules := by
  induction rules with
  | nil => rfl
  | cons rule rules ih =>
    obtain ⟨hrule, hrules⟩ := List.forall_mem_cons.1 h
    rw [listToJson, listOfItems, hrule nested, ok_bind, ih hrules]
    rfl

theorem sublist_toFields (header : Header) (rules : List Json) :
    ((header.toFields rules).map Prod.fst).Sublist Kind.ruleset.fields := by
  unfold Header.toFields
  split
  · exact List.sublist_append_left
      ["selectors", "rules", "root", "first_root", "allow_imports", "strict_imports"] ["paths"]
  · exact .refl _

/-- A rule comes back if the rules inside it do. -/
theorem inherits_readsBack : Inherits ReadsBack := by
  intro fields rules rule hrules h nested
  have hbody : ∀ body, rules.getD (.ok []) = .ok body →
      listOfItems true (listToJson body) = .ok body :=
    fun body hbody => listOfItems_listToJson (hrules body hbody) true
  cases h with
  | declaration hd =>
    rw [toJson, ofJson_tagged (.refl _), ofFields, Declaration.ofFields_toFields hd]
    rfl
  | @ruleset header body hheader h =>
    have hentry : (rulesEntry (header.toFields (listToJson body))).getD (.ok []) = .ok body :=
      hbody body h
    rw [toJson, ofJson_tagged (sublist_toFields header _), ofFields,
      Header.ofFields_toFields hheader, ok_bind, hentry]
    rfl
  | @definition signature body hsignature h =>
    have hentry : (rulesEntry (signature.toFields (listToJson body))).getD (.ok []) = .ok body :=
      hbody body h
    rw [toJson, ofJson_tagged (.refl _), ofFields, Signature.ofFields_toFields hsignature, ok_bind,
      hentry]
    rfl
  | call hc =>
    rw [toJson, ofJson_tagged (.refl _), ofFields, MixinCall.ofFields_toFields hc]
    rfl
  | inclusion hi =>
    rw [toJson, ofJson_tagged (.refl _), ofFields, Import.ofFields_toFields hi]
    rfl
  | @comment c _ =>
    rw [toJson, ofJson_tagged (.refl _), ofFields, Comment.ofFields_toFields c]
    rfl
  | @media head body hhead h =>
    have hentry : (rulesEntry (head.toFields (listToJson body))).getD (.ok []) = .ok body :=
      hbody body h
    rw [toJson, ofJson_tagged (.refl _), ofFields, MediaHead.ofFields_toFields hhead, ok_bind,
      hentry]
    rfl
  | @directive head hhead =>
    rw [toJson, ofJson_tagged (.refl _), ofFields, DirectiveHead.ofFields_toFields hhead]
    rfl
  | @directiveBlock head body hhead h =>
    have hentry : (rulesEntry (head.toFields (.array (listToJson body)))).getD (.ok []) =
        .ok body := hbody body h
    rw [toJson, ofJson_tagged (.refl _), ofFields, DirectiveHead.ofFields_toFields hhead, ok_bind,
      hentry]
    rfl

/-- A list of rules that was read comes back when it is written and read again: all rules, at any
depth, with all that they are made of. -/
theorem readList_listToJson {json : Json} {rules : List Rule} (h : readList json = .ok rules) :
    readList (.array (listToJson rules)) = .ok rules :=
  listOfItems_listToJson (of_listOfJson inherits_readsBack false json rules h) false

/-- A ruleset with a path, and in it an at-rule without rules, a declaration, and a mixin that is
given as an array and by the number of its kind. -/
theorem readList_listToJson_nested :
    let mixin : Json := .array [.natural 2, .string ".m",
      .array [.array [.string "@p"],
        .object [("name", .string "@q"), ("default", .string "1px @p")]],
      .array [.array [.string "comment", .string "/* x */"]], .object [("line", .natural 3)]]
    let json : Json := .array [.object [
      ("selectors", .array [.string "a>b:hover", .string "& @\x7bc\x7d"]),
      ("paths", .array [.array [.string ".a", .string "+ b"]]), ("type", .string "ruleset"),
      ("rules", .array [mixin, .object [("type", .string "directive"), ("name", .string "@x")],
        .object [("value", .string "@p"), ("type", .string "declaration"),
          ("important", .bool true), ("name", .string "top")]])]]
    let signature : Signature := {
      name := { elements := [⟨.compound, ".m"⟩] }
      params := [{ name := "@p" }, { name := "@q", fallback := some (.read "1px @p") }]
      span := { line := 3 } }
    let header : Header := {
      selectors := [{ elements := [⟨.compound, "a"⟩, ⟨.child, "b"⟩, ⟨.compound, ":hover"⟩] },
        { elements := [⟨.compound, "&"⟩, ⟨.descendant, "@\x7bc\x7d"⟩] }]
      paths := [[{ elements := [⟨.compound, ".a"⟩] }, { elements := [⟨.sibling, "b"⟩] }]] }
    let rules : List Rule := [.ruleset header [
      .definition signature [.comment { text := "/* x */" }], .directive { name := "@x" } none,
      .declaration { name := "top", value := .read "@p", important := true }]]
    readList json = .ok rules ∧ readList (.array (listToJson rules)) = .ok rules := by
  intro mixin json signature header rules
  have h : readList json = .ok rules := rfl
  exact ⟨h, readList_listToJson h⟩

end Rule

end Stylesheet
