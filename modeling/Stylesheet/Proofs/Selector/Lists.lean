import Stylesheet.Proofs.Selector.Terms

/-!
# Reading lists of selectors

What is printed for a selector that was read is read as that selector again, and the
same holds of a list. The terms of a list are separable, and what is printed for a
selector differs from its term in blanks only, so that the list is cut at the same places.

Texts of selectors that are put together with commas need not be separable, since the
cut counts brackets in another way than the reader does. Where they are, the list is read
as the selectors of the texts. Where they are not, it is not read: either a text is cut
inside its brackets, or a comma between two texts is taken for a part of a selector.
-/

namespace Stylesheet

namespace Selector

section Printed

variable {text : String} {s : Selector}

/-- What is printed for a selector that was read is read as that selector. -/
theorem read_css (h : read text = .ok s) (compact : Bool) : read (s.css compact) = .ok s := by
  obtain ⟨helements, hevaluated⟩ := read_eq_ok_iff.1 h
  have hne : 0 < s.elements.length := by
    obtain ⟨r, -, hfinish⟩ := bind_eq_ok_iff.1 helements
    exact List.length_pos_of_ne_nil (Reader.finish_eq_ok_iff.1 hfinish).2.2.2
  have hback := readElements_spell compact helements hne
  rw [List.drop_zero, leading_of_readElements helements,
    ← dropBlanks_css (begins_of_readElements helements), readElements_dropBlanks] at hback
  exact read_eq_ok_iff.2 ⟨hback, hevaluated⟩

/-- All texts of a selector are the same but for blanks. -/
theorem dense_of_read (h : read text = .ok s) :
    Text.dense text.toList = Text.dense (s.css true).toList := by
  rw [toList_css, (keeps_of_readElements (readElements_of_read h)).1]

end Printed

section Lists

variable {text : String} {texts texts' : List String} {selectors : List Selector}

/-- A list is read if each of its terms is. -/
theorem readList_eq_ok_iff :
    readList text = .ok selectors ↔
      List.Forall₂ (fun cs s => read (String.ofList cs) = .ok s)
        (((splitTerms 0 [] text.toList).map Text.trimBlanks).filter (!·.isEmpty)) selectors := by
  rw [readList, mapM_eq_ok_iff, terms, List.forall₂_map_left_iff]

theorem toList_intercalate_comma (gap : String) (texts : List String) :
    (("," ++ gap).intercalate texts).toList =
      (',' :: gap.toList).intercalate (texts.map String.toList) := by
  rw [String.toList_intercalate, String.toList_append]
  rfl

theorem isBlank_space : ∀ c ∈ " ".toList, Text.isBlank c = true :=
  List.forall_mem_singleton.2 (by decide)

/-- Texts of the same selectors are all separable or none is. -/
theorem separable_iff_of_read
    (h : List.Forall₂ (fun t s => read t = .ok s) texts selectors)
    (h' : List.Forall₂ (fun t s => read t = .ok s) texts' selectors) :
    Separable (texts.map String.toList) ↔ Separable (texts'.map String.toList) := by
  have hdense : ∀ {ts : List String}, List.Forall₂ (fun t s => read t = .ok s) ts selectors →
      (ts.map String.toList).map Text.dense =
        selectors.map fun s => Text.dense (s.css true).toList := by
    intro ts hts
    rw [List.map_map]
    exact (map_eq_map_of_forall₂ (hts.imp fun _ _ hread => (dense_of_read hread).symm)).symm
  rw [← separable_map_dense_iff, hdense h, ← hdense h', separable_map_dense_iff]

/-- Separable texts of selectors with commas between them are read as these selectors. -/
theorem readList_intercalate (h : List.Forall₂ (fun t s => read t = .ok s) texts selectors)
    (hseparable : Separable (texts.map String.toList)) (gap : String)
    (hgap : ∀ c ∈ gap.toList, Text.isBlank c = true) :
    readList (("," ++ gap).intercalate texts) = .ok selectors := by
  have hkept : ((texts.map String.toList).map Text.trimBlanks).filter (!·.isEmpty) =
      (texts.map String.toList).map Text.trimBlanks := by
    rw [List.filter_eq_self, List.map_map]
    intro cs hcs
    obtain ⟨t, ht, rfl⟩ := List.mem_map.1 hcs
    obtain ⟨s, -, hs⟩ := exists_of_mem_left h ht
    simpa using trimBlanks_ne_nil_of_readElements (readElements_of_read hs)
  have hread : List.Forall₂ (fun cs s => read (String.ofList cs) = .ok s)
      ((texts.map String.toList).map Text.trimBlanks) selectors := by
    rw [List.map_map, List.forall₂_map_left_iff]
    refine h.imp fun t s hs => read_trimBlanks.2 ?_
    rwa [String.ofList_toList]
  rw [readList_eq_ok_iff, toList_intercalate_comma]
  cases texts with
  | nil =>
    obtain rfl := List.forall₂_nil_left_iff.1 h
    exact .nil
  | cons t ts =>
    have htrim : (ts.map String.toList).map (Text.trimBlanks ∘ (gap.toList ++ ·)) =
        (ts.map String.toList).map Text.trimBlanks :=
      List.map_congr_left fun cs _ => trimBlanks_append hgap cs
    rw [List.map_cons, splitTerms_intercalate hseparable hgap [], List.map_cons, List.map_map,
      htrim, List.nil_append, ← List.map_cons, ← List.map_cons, hkept]
    exact hread

/-- The terms of a list that was read are separable texts of its selectors. -/
theorem exists_terms_of_readList (h : readList text = .ok selectors) :
    ∃ texts, List.Forall₂ (fun t s => read t = .ok s) texts selectors ∧
      Separable (texts.map String.toList) := by
  refine ⟨terms text, mapM_eq_ok_iff.1 h, ?_⟩
  have hsplit : Separable (splitTerms 0 [] text.toList) :=
    separable_splitTerms (unbroken_nil 0) text.toList
  have htrim : Separable ((splitTerms 0 [] text.toList).map Text.trimBlanks) := by
    rw [← separable_map_dense_iff, List.map_map]
    have hdense : Text.dense ∘ Text.trimBlanks = Text.dense := funext dense_trimBlanks
    rwa [hdense, separable_map_dense_iff]
  have htexts : (terms text).map String.toList =
      ((splitTerms 0 [] text.toList).map Text.trimBlanks).filter (!·.isEmpty) := by
    rw [terms, List.map_map]
    exact List.map_id'' (fun _ => String.toList_ofList) _
  rw [htexts]
  exact htrim.sublist List.filter_sublist

/-- The printed forms of a list that was read, with commas between them, are read as that list. -/
theorem readList_printed (h : readList text = .ok selectors) {print : Selector → String}
    (hprint : ∀ t s, read t = .ok s → read (print s) = .ok s) (gap : String)
    (hgap : ∀ c ∈ gap.toList, Text.isBlank c = true) :
    readList (("," ++ gap).intercalate (selectors.map print)) = .ok selectors := by
  obtain ⟨texts, hread, hseparable⟩ := exists_terms_of_readList h
  have hprinted : List.Forall₂ (fun t s => read t = .ok s) (selectors.map print) selectors := by
    rw [List.forall₂_map_left_iff, List.forall₂_same]
    intro s hs
    obtain ⟨t, -, ht⟩ := exists_of_mem_right hread hs
    exact hprint t s ht
  exact readList_intercalate hprinted ((separable_iff_of_read hread hprinted).1 hseparable) gap hgap

/-- What is printed for selectors that were read gives them back, in each of the printed forms,
one by one and in lists. -/
theorem read_printed (text : String) :
    (∀ s, read text = .ok s →
      read s.text = .ok s ∧ read (s.css false) = .ok s ∧ read (s.css true) = .ok s) ∧
    ∀ selectors, readList text = .ok selectors →
      readList (", ".intercalate (selectors.map Selector.text)) = .ok selectors ∧
      readList (",".intercalate (selectors.map (css true))) = .ok selectors := by
  refine ⟨fun s h => ⟨read_text h, read_css h false, read_css h true⟩, fun selectors h => ⟨?_, ?_⟩⟩
  · exact readList_printed h (fun _ _ => read_text) " " isBlank_space
  · exact readList_printed h (fun _ _ hs => read_css hs true) "" (by simp)

/-- A selector that starts with a sign, and a list in which a bracket is left open at the end. -/
theorem read_printed_brackets :
    (∃ s, read " >a[x=(]::b&  .c" = .ok s ∧ s.elements.length = 5 ∧
      s.css false = " > a[x=(]::b& .c" ∧ read " > a[x=(]::b& .c" = .ok s) ∧
    ∃ selectors, readList "a ,, :is(b , c)>d, [(] " = .ok selectors ∧ selectors.length = 3 ∧
      ", ".intercalate (selectors.map Selector.text) = "a, :is(b , c) > d, [(]" ∧
      readList "a, :is(b , c) > d, [(]" = .ok selectors :=
  ⟨⟨_, rfl, rfl, rfl, ((read_printed " >a[x=(]::b&  .c").1 _ rfl).2.1⟩,
    ⟨_, rfl, rfl, rfl, ((read_printed "a ,, :is(b , c)>d, [(] ").2 _ rfl).1⟩⟩

/-- The error of a list is that of one of its terms. -/
theorem exists_fault_of_readList {e : Error} (h : readList text = .error e) :
    ∃ term fault, e = .selectorSyntax term fault .unknown := by
  obtain ⟨term, -, hterm⟩ := exists_of_mapM_eq_error h
  unfold read at hterm
  split at hterm
  · cases hterm
  next fault _ => exact ⟨term, fault, (Except.error.inj hterm).symm⟩

/-- Texts of selectors are separable if the list of them is read. -/
theorem separable_of_readList (h : List.Forall₂ (fun t s => read t = .ok s) texts selectors)
    (gap : String) (hgap : ∀ c ∈ gap.toList, Text.isBlank c = true) {found : List Selector}
    (hfound : readList (("," ++ gap).intercalate texts) = .ok found) :
    Separable (texts.map String.toList) := by
  cases texts with
  | nil => exact ⟨by simp, .nil⟩
  | cons t ts =>
    rw [readList_eq_ok_iff, toList_intercalate_comma] at hfound
    refine separable_of_readable hgap [] (by simp) ?_ fun cs hcs hne => ?_
    · rw [← List.map_cons, List.forall_mem_map]
      intro u hu
      obtain ⟨s, -, hs⟩ := exists_of_mem_left h hu
      exact ⟨_, readElements_of_read hs⟩
    · obtain ⟨s, -, hs⟩ := exists_of_mem_left hfound
        (List.mem_filter.2 ⟨List.mem_map_of_mem hcs, by simpa using hne⟩)
      have hread := readElements_of_read (read_trimBlanks.1 hs)
      rw [String.toList_ofList] at hread
      exact ⟨_, hread⟩

end Lists

/-- How many brackets of both kinds are opened in a text. -/
def openings (cs : List Char) : Nat := cs.count '(' + cs.count '['

/-- How many brackets of both kinds are closed in a text. -/
def closings (cs : List Char) : Nat := cs.count ')' + cs.count ']'

/-- The brackets of both kinds together are closed in a text, and none before it is opened. -/
structure Nested (cs : List Char) : Prop where
  closed : closings cs = openings cs
  ordered : ∀ p, p <+: cs → closings p ≤ openings p

section Nesting

variable {cs : List Char} {k : Chunk} {chunks : List Chunk}

/-- As long as no bracket is closed that was not opened, the cut counts them all. -/
theorem depthAfter_add_closings (depth : Nat) (cs : List Char)
    (h : ∀ p, p <+: cs → closings p ≤ depth + openings p) :
    depthAfter depth cs + closings cs = depth + openings cs := by
  induction cs generalizing depth with
  | nil => rfl
  | cons c cs ih =>
    have hnest : nest depth c + closings [c] = depth + openings [c] := by
      have hfirst := h [c] ⟨cs, rfl⟩
      unfold nest
      split <;> simp_all [closings, openings]
    have hsplit : ∀ ds, closings (c :: ds) = closings [c] + closings ds ∧
        openings (c :: ds) = openings [c] + openings ds := by
      intro ds
      simp only [closings, openings, List.count_cons, List.count_nil]
      omega
    have hrest := ih (nest depth c) fun p hp => by
      have hp' := h (c :: p) (List.cons_prefix_cons.2 ⟨rfl, hp⟩)
      have := hsplit p
      omega
    have := hsplit cs
    rw [depthAfter_cons]
    omega

theorem Nested.unbroken (h : Nested cs) (depth : Nat) : Unbroken (depth + 1) cs := by
  intro before hbefore
  have hprefix : before <+: cs := (List.prefix_append before [',']).trans hbefore
  have hcount := depthAfter_add_closings (depth + 1) before fun p hp => by
    have := h.ordered p (hp.trans hprefix)
    omega
  have := h.ordered before hprefix
  omega

theorem Nested.depthAfter_eq (h : Nested cs) (depth : Nat) : depthAfter depth cs = depth := by
  have hcount := depthAfter_add_closings depth cs fun p hp => by
    have := h.ordered p hp
    omega
  have := h.closed
  omega

/-- A chunk of a selector in which brackets are nested is not cut, and leaves none open. -/
theorem Chunk.Valid.unbroken (hvalid : k.Valid) (hcomma : k.kind ≠ .comma)
    (hnested : ∀ b inside, k = .region b inside → Nested inside) :
    Unbroken 0 k.chars ∧ depthAfter 0 k.chars = 0 := by
  cases k with
  | plain c =>
    have hc : c ≠ ',' := by
      rintro rfl
      exact hcomma (by decide)
    have hsquare : c ≠ '[' := hvalid .square
    have hround : c ≠ '(' := hvalid .round
    refine ⟨unbroken_cons_iff.2 ⟨fun h => absurd h hc, unbroken_nil _⟩, ?_⟩
    rw [Chunk.chars, depthAfter_cons, depthAfter_nil]
    unfold nest
    split <;> simp_all
  | region b inside =>
    have hinside := hnested b inside rfl
    have hopening : nest 0 b.opening = 1 ∧ b.opening ≠ ',' := by cases b <;> decide
    have hclosing : nest 1 b.closing = 0 ∧ b.closing ≠ ',' := by cases b <;> decide
    rw [Chunk.chars, unbroken_cons_iff, unbroken_append_iff, unbroken_cons_iff, depthAfter_cons,
      depthAfter_append, hopening.1, hinside.depthAfter_eq, depthAfter_cons, hclosing.1]
    exact ⟨⟨fun h => absurd h hopening.2, hinside.unbroken 0, fun h => absurd h hclosing.2,
      unbroken_nil _⟩, rfl⟩

theorem Outline.unbroken (houtline : Outline cs chunks) (hcomma : .comma ∉ chunks.map Chunk.kind)
    (hnested : ∀ b inside, .region b inside ∈ chunks → Nested inside) :
    Unbroken 0 cs ∧ depthAfter 0 cs = 0 := by
  obtain ⟨rfl, hvalid⟩ := houtline
  induction chunks with
  | nil => exact ⟨unbroken_nil 0, rfl⟩
  | cons k chunks ih =>
    rw [List.forall_mem_cons] at hvalid
    rw [List.map_cons, List.mem_cons, not_or] at hcomma
    obtain ⟨hk, hzero⟩ := hvalid.1.unbroken (Ne.symm hcomma.1) fun b inside h =>
      hnested b inside (h ▸ List.mem_cons_self)
    obtain ⟨hrest, hend⟩ := ih hcomma.2 (fun b inside h =>
      hnested b inside (List.mem_cons_of_mem _ h)) hvalid.2
    rw [List.flatMap_cons, unbroken_append_iff, depthAfter_append, hzero]
    exact ⟨⟨hk, hrest⟩, hend⟩

end Nesting

section Joined

variable {texts : List String} {selectors : List Selector}

/-- Selectors in which brackets of both kinds are nested are separable. -/
theorem separable_of_nested (h : List.Forall₂ (fun t s => read t = .ok s) texts selectors)
    (hnested : ∀ text ∈ texts, ∀ chunks, Outline text.toList chunks →
      ∀ b inside, .region b inside ∈ chunks → Nested inside) :
    Separable (texts.map String.toList) := by
  have hclosed : ∀ cs ∈ texts.map String.toList, Unbroken 0 cs ∧ depthAfter 0 cs = 0 := by
    rw [List.forall_mem_map]
    intro text htext
    obtain ⟨s, -, hs⟩ := exists_of_mem_left h htext
    have hread := readElements_of_read hs
    obtain ⟨chunks, houtline⟩ := exists_outline_of_readElements hread
    exact houtline.unbroken ((exists_readElements_iff houtline).1 ⟨_, hread⟩).comma
      (hnested text htext chunks houtline)
  exact ⟨fun cs hcs => (hclosed cs hcs).1, List.pairwise_of_forall_mem_list fun cs hcs _ _ =>
    (hclosed cs hcs).2⟩

/-- Texts of selectors with commas between them are read as these selectors if and only if no
comma in them stands where the cut sees no open bracket, and no bracket is open for the cut between
two of them. If brackets of both kinds are nested in every text, this is so, and if it is not so,
the list is refused. -/
theorem readList_joined_iff (h : List.Forall₂ (fun t s => read t = .ok s) texts selectors) :
    (readList (", ".intercalate texts) = .ok selectors ↔ Separable (texts.map String.toList)) ∧
    ((∀ text ∈ texts, ∀ chunks, Outline text.toList chunks →
        ∀ b inside, .region b inside ∈ chunks → Nested inside) →
      Separable (texts.map String.toList)) ∧
    (¬ Separable (texts.map String.toList) →
      ∃ term fault,
        readList (", ".intercalate texts) = .error (.selectorSyntax term fault .unknown)) := by
  refine ⟨⟨separable_of_readList h " " isBlank_space, fun hs =>
    readList_intercalate h hs " " isBlank_space⟩, separable_of_nested h, fun hs => ?_⟩
  cases hresult : readList (", ".intercalate texts) with
  | ok found => exact absurd (separable_of_readList h " " isBlank_space hresult) hs
  | error e =>
    obtain ⟨term, fault, rfl⟩ := exists_fault_of_readList hresult
    exact ⟨term, fault, rfl⟩

/-- A bracket of the other kind may stay open in the last text. -/
theorem readList_joined_iff_last :
    List.Forall₂ (fun t s => read t = .ok s) [":is(a, [b=(c)]) > d", "e)", "[(]"]
      [{ elements := [⟨.compound, ":is(a, [b=(c)])"⟩, ⟨.child, "d"⟩] },
        { elements := [⟨.compound, "e)"⟩] }, { elements := [⟨.compound, "[(]"⟩] }] ∧
    readList ":is(a, [b=(c)]) > d, e), [(]" =
      .ok [{ elements := [⟨.compound, ":is(a, [b=(c)])"⟩, ⟨.child, "d"⟩] },
        { elements := [⟨.compound, "e)"⟩] }, { elements := [⟨.compound, "[(]"⟩] }] ∧
    Separable ([":is(a, [b=(c)]) > d", "e)", "[(]"].map String.toList) := by
  have hread : List.Forall₂ (fun t s => read t = .ok s) [":is(a, [b=(c)]) > d", "e)", "[(]"]
      [{ elements := [⟨.compound, ":is(a, [b=(c)])"⟩, ⟨.child, "d"⟩] },
        { elements := [⟨.compound, "e)"⟩] }, { elements := [⟨.compound, "[(]"⟩] }] := by
    refine .cons ?_ (.cons ?_ (.cons ?_ .nil)) <;> decide +kernel
  exact ⟨hread, by decide +kernel, (readList_joined_iff hread).1.1 (by decide +kernel)⟩

/-- A bracket of the other kind inside a selector joins two texts into one, or cuts a text. -/
theorem readList_stray_bracket :
    (read "[(]" = .ok { elements := [⟨.compound, "[(]"⟩] } ∧
      read ".b" = .ok { elements := [⟨.compound, ".b"⟩] } ∧
      readList (", ".intercalate ["[(]", ".b"]) =
        .error (.selectorSyntax "[(], .b" .comma .unknown)) ∧
    read "[),]" = .ok { elements := [⟨.compound, "[),]"⟩] } ∧
      readList "[),]" = .error (.selectorSyntax "[)" .unbalanced .unknown) :=
  ⟨⟨rfl, rfl, rfl⟩, rfl, rfl⟩

end Joined

end Selector

end Stylesheet
