import Stylesheet.Proofs.Selector.Grammar

/-!
# The terms of a selector list

A list is cut at commas before its terms are read. The cut counts the brackets of both
kinds together, and a closing one too many counts as none. What the count makes of a
text depends neither on its blanks nor on how the text goes on.

Terms are separable if no comma inside one stands where the count is zero, and if the
count is zero behind every term but the last. The terms of any text are separable, and
separable terms with commas between them are cut at just these commas.

The blanks around a term do not matter: a selector is read from it with or without them.
-/

namespace Stylesheet

namespace Selector

namespace Reader

variable {r q r' : Reader} {c : Char} {cs : List Char} {es : List Element}

/-- The readers differ at most in whether a blank was seen, and only before the first element. -/
def Awaits (r q : Reader) : Prop :=
  ∃ spaced, q = { r with spaced } ∧ (r.elements = [] ∨ spaced = r.spaced)

theorem awaits_refl (r : Reader) : Awaits r r := ⟨r.spaced, rfl, .inr rfl⟩

/-- A character that belongs to no element is a blank, a sign or a comma outside brackets. -/
theorem waits_of_not_move {region : Option (Bracket × Nat)} {colon : Bool}
    (h : move? region colon c = none) :
    region = none ∧ (Text.isBlank c = true ∨ (∃ x, IsSign c x) ∨ c = ',') := by
  obtain rfl := region_of_not_move h
  refine ⟨rfl, ?_⟩
  unfold move? at h
  dsimp only at h
  split at h
  · cases h
  · unfold bareMove? at h
    split at h
    next hblank => exact .inl hblank
    next =>
      right
      split at h
      case h_1 => exact .inl ⟨_, .child⟩
      case h_2 => exact .inl ⟨_, .sibling⟩
      case h_3 => exact .inl ⟨_, .generalSibling⟩
      case h_4 => exact .inr rfl
      all_goals cases h

namespace Awaits

theorem symm (h : Awaits r q) : Awaits q r := by
  obtain ⟨spaced, rfl, hspaced⟩ := h
  exact ⟨r.spaced, rfl, hspaced.imp id Eq.symm⟩

theorem flush (h : Awaits r q) : Awaits r.flush q.flush := by
  obtain ⟨spaced, rfl, hspaced⟩ := h
  by_cases hnil : r.current = []
  · rw [flush_of_nil hnil, flush_of_nil (r := { r with spaced }) hnil]
    exact ⟨spaced, rfl, hspaced⟩
  · have hnext : ({ r with spaced } : Reader).nextCombinator = r.nextCombinator := by
      rcases hspaced with hempty | rfl
      · simp [nextCombinator, hempty]
      · rfl
    rw [flush_of_ne_nil hnil, flush_of_ne_nil (r := { r with spaced }) hnil, hnext]
    exact awaits_refl _

theorem push (h : Awaits r q) (c : Char) : Awaits (r.push c) (q.push c) := by
  obtain ⟨spaced, rfl, hspaced⟩ := h
  exact ⟨spaced, rfl, hspaced⟩

theorem withColon (h : Awaits r q) (colon : Bool) :
    Awaits { r with colon } { q with colon } := by
  obtain ⟨spaced, rfl, hspaced⟩ := h
  exact ⟨spaced, rfl, hspaced⟩

theorem withRegion (h : Awaits r q) (region : Option (Bracket × Nat)) :
    Awaits { r with region } { q with region } := by
  obtain ⟨spaced, rfl, hspaced⟩ := h
  exact ⟨spaced, rfl, hspaced⟩

theorem apply (h : Awaits r q) (m : Move) (c : Char) : Awaits (m.apply c r) (m.apply c q) := by
  cases m with
  | extend colon region => exact ((h.push c).withColon colon).withRegion region
  | start colon region => exact ((h.flush.push c).withColon colon).withRegion region
  | single => exact (h.flush.push c).flush.withColon false
  | close => exact (h.push c).flush.withRegion none

theorem fields (h : Awaits r q) :
    q.elements = r.elements ∧ q.combinator = r.combinator ∧ q.region = r.region ∧
      q.colon = r.colon := by
  obtain ⟨spaced, rfl, -⟩ := h
  exact ⟨rfl, rfl, rfl, rfl⟩

/-- The second reader makes each step of the first. -/
theorem step (h : Awaits r q) (hstep : r.step c = .ok r') :
    ∃ q', q.step c = .ok q' ∧ Awaits r' q' := by
  obtain ⟨-, -, hregion, hcolon⟩ := h.fields
  cases hmove : move? r.region r.colon c with
  | some m =>
    rw [step_of_move hmove] at hstep
    obtain rfl := Except.ok.inj hstep
    rw [← hregion, ← hcolon] at hmove
    exact ⟨_, step_of_move hmove, h.apply m c⟩
  | none =>
    obtain ⟨hr, hblank | ⟨x, hx⟩ | rfl⟩ := waits_of_not_move hmove
    · rw [step_of_blank hr hblank] at hstep
      obtain rfl := Except.ok.inj hstep
      refine ⟨_, step_of_blank (hregion.trans hr) hblank, ?_⟩
      obtain ⟨spaced, hflush, -⟩ := h.flush
      rw [hflush]
      exact awaits_refl _
    · rw [step_of_sign hr hx] at hstep
      obtain ⟨spaced, hflush, hspaced⟩ := h.flush
      split at hstep
      · cases hstep
      next hnone =>
        obtain rfl := Except.ok.inj hstep
        rw [step_of_sign (hregion.trans hr) hx, hflush]
        exact ⟨_, if_neg hnone, spaced, rfl, hspaced⟩
    · have hcomma := read_comma (k := .plain ',') hr (by decide)
      rw [Chunk.chars, List.foldlM_cons, hstep] at hcomma
      cases hcomma

theorem read (h : Awaits r q) (hread : cs.foldlM Reader.step r = .ok r') :
    ∃ q', cs.foldlM Reader.step q = .ok q' ∧ Awaits r' q' := by
  induction cs generalizing r q with
  | nil =>
    obtain rfl := Except.ok.inj hread
    exact ⟨q, rfl, h⟩
  | cons c cs ih =>
    obtain ⟨p, hstep, hrest⟩ := bind_eq_ok_iff.1 hread
    obtain ⟨p', hstep', hawaits⟩ := h.step hstep
    obtain ⟨q', hrest', hawaits'⟩ := ih hawaits hrest
    exact ⟨q', bind_eq_ok_iff.2 ⟨p', hstep', hrest'⟩, hawaits'⟩

theorem finish (h : Awaits r q) (hfinish : r.finish = .ok es) : q.finish = .ok es := by
  obtain ⟨hregion, hcombinator, helements, hne⟩ := finish_eq_ok_iff.1 hfinish
  obtain ⟨helements', hcombinator', -, -⟩ := h.flush.fields
  exact finish_eq_ok_iff.2 ⟨h.fields.2.2.1.trans hregion, hcombinator'.trans hcombinator,
    helements'.trans helements, hne⟩

end Awaits

end Reader

section Blanks

variable {c : Char} {cs : List Char} {es : List Element}

theorem readElements_cons_blank (hc : Text.isBlank c = true) :
    readElements (c :: cs) = .ok es ↔ readElements cs = .ok es := by
  have hawaits : Reader.Awaits {} { spaced := true } := ⟨true, rfl, .inl rfl⟩
  have hcons : readElements (c :: cs) =
      (cs.foldlM Reader.step { spaced := true } >>= Reader.finish) := by
    rw [readElements, List.foldlM_cons, Reader.step_of_blank rfl hc]
    rfl
  rw [hcons, readElements, bind_eq_ok_iff, bind_eq_ok_iff]
  constructor
  · rintro ⟨r, hread, hfinish⟩
    obtain ⟨q, hread', h⟩ := hawaits.symm.read hread
    exact ⟨q, hread', h.finish hfinish⟩
  · rintro ⟨r, hread, hfinish⟩
    obtain ⟨q, hread', h⟩ := hawaits.read hread
    exact ⟨q, hread', h.finish hfinish⟩

/-- Outside brackets a blank at the end only ends an element, and inside none is closed by it. -/
theorem Reader.finish_of_step_blank {r q : Reader} (hc : Text.isBlank c = true)
    (hstep : r.step c = .ok q) : q.finish = .ok es ↔ r.finish = .ok es := by
  cases hr : r.region with
  | none =>
    rw [step_of_blank hr hc] at hstep
    obtain rfl := Except.ok.inj hstep
    have hflush : ({ r.flush with spaced := true, colon := false } : Reader).flush =
        { r.flush with spaced := true, colon := false } := flush_of_nil (current_flush r)
    rw [finish_eq_ok_iff, finish_eq_ok_iff, hflush]
    simp [hr]
  | some region =>
    obtain ⟨b, more⟩ := region
    have hbracket : c ≠ b.opening ∧ c ≠ b.closing := by
      constructor <;> (rintro rfl; revert hc; cases b <;> decide)
    have hinside : r.inside b more c = r.push c := by simp [inside, hbracket]
    rw [step_of_region hr, hinside] at hstep
    obtain rfl := Except.ok.inj hstep
    simp [finish_eq_ok_iff, push, hr]

theorem readElements_concat_blank (hc : Text.isBlank c = true) :
    readElements (cs ++ [c]) = .ok es ↔ readElements cs = .ok es := by
  rw [readElements, readElements, List.foldlM_append, bind_eq_ok_iff, bind_eq_ok_iff]
  constructor
  · rintro ⟨q, hread, hfinish⟩
    obtain ⟨r, hfront, hlast⟩ := bind_eq_ok_iff.1 hread
    obtain ⟨p, hstep, hp⟩ := bind_eq_ok_iff.1 hlast
    obtain rfl := Except.ok.inj hp
    exact ⟨r, hfront, (Reader.finish_of_step_blank hc hstep).1 hfinish⟩
  · rintro ⟨r, hread, hfinish⟩
    have hr := (Reader.finish_eq_ok_iff.1 hfinish).1
    have hstep := Reader.step_of_blank hr hc
    refine ⟨_, bind_eq_ok_iff.2 ⟨r, hread, bind_eq_ok_iff.2 ⟨_, hstep, rfl⟩⟩, ?_⟩
    exact (Reader.finish_of_step_blank hc hstep).2 hfinish

theorem readElements_dropBlanks (cs : List Char) :
    readElements (Text.dropBlanks cs) = .ok es ↔ readElements cs = .ok es := by
  induction cs with
  | nil => rfl
  | cons c cs ih =>
    by_cases hc : Text.isBlank c = true
    · rw [Text.dropBlanks, List.dropWhile_cons_of_pos hc, readElements_cons_blank hc]
      exact ih
    · rw [Text.dropBlanks, List.dropWhile_cons_of_neg hc]

theorem readElements_reverse_dropBlanks (cs : List Char) :
    readElements (Text.dropBlanks cs).reverse = .ok es ↔ readElements cs.reverse = .ok es := by
  induction cs with
  | nil => rfl
  | cons c cs ih =>
    by_cases hc : Text.isBlank c = true
    · rw [Text.dropBlanks, List.dropWhile_cons_of_pos hc, List.reverse_cons,
        readElements_concat_blank hc]
      exact ih
    · rw [Text.dropBlanks, List.dropWhile_cons_of_neg hc]

/-- The blanks around a selector do not matter. -/
theorem readElements_trimBlanks (cs : List Char) :
    readElements (Text.trimBlanks cs) = .ok es ↔ readElements cs = .ok es := by
  rw [Text.trimBlanks, readElements_reverse_dropBlanks, List.reverse_reverse,
    readElements_dropBlanks]

theorem read_eq_ok_iff {text : String} {s : Selector} :
    read text = .ok s ↔ readElements text.toList = .ok s.elements ∧ s.evaluated = false := by
  obtain ⟨elements, evaluated⟩ := s
  unfold read
  cases readElements text.toList with
  | ok es => simp [eq_comm]
  | error fault => simp

theorem read_trimBlanks {cs : List Char} {s : Selector} :
    read (String.ofList (Text.trimBlanks cs)) = .ok s ↔ read (String.ofList cs) = .ok s := by
  rw [read_eq_ok_iff, read_eq_ok_iff, String.toList_ofList, String.toList_ofList,
    readElements_trimBlanks]

theorem dense_dropBlanks (cs : List Char) : Text.dense (Text.dropBlanks cs) = Text.dense cs := by
  induction cs with
  | nil => rfl
  | cons c cs ih =>
    by_cases hc : Text.isBlank c = true
    · rw [Text.dropBlanks, List.dropWhile_cons_of_pos hc, Text.dense,
        Text.dense, List.filter_cons_of_neg (by simp [hc])]
      exact ih
    · rw [Text.dropBlanks, List.dropWhile_cons_of_neg hc]

theorem dense_trimBlanks (cs : List Char) : Text.dense (Text.trimBlanks cs) = Text.dense cs := by
  have hreverse : ∀ ds, Text.dense ds.reverse = (Text.dense ds).reverse := fun ds =>
    List.filter_reverse
  rw [Text.trimBlanks, hreverse, dense_dropBlanks, hreverse, List.reverse_reverse,
    dense_dropBlanks]

theorem trimBlanks_append {gap : List Char} (hgap : ∀ c ∈ gap, Text.isBlank c = true)
    (cs : List Char) : Text.trimBlanks (gap ++ cs) = Text.trimBlanks cs := by
  have hdrop : Text.dropBlanks (gap ++ cs) = Text.dropBlanks cs :=
    List.dropWhile_append_of_pos hgap
  rw [Text.trimBlanks, hdrop, Text.trimBlanks]

theorem trimBlanks_eq_nil_iff : Text.trimBlanks cs = [] ↔ ∀ c ∈ cs, Text.isBlank c = true := by
  constructor
  · intro hnil
    have hdense : Text.dense cs = [] := by rw [← dense_trimBlanks, hnil]; rfl
    simpa [Text.dense] using hdense
  · intro hblank
    simpa using trimBlanks_append hblank []

theorem readElements_append_blanks {gap : List Char} (hgap : ∀ c ∈ gap, Text.isBlank c = true) :
    readElements (gap ++ cs) = .ok es ↔ readElements cs = .ok es := by
  rw [← readElements_trimBlanks, trimBlanks_append hgap, readElements_trimBlanks]

/-- A term that has a character besides blanks is a selector. -/
def Readable (term : List Char) : Prop :=
  Text.trimBlanks term ≠ [] → ∃ es, readElements term = .ok es

/-- A term without characters besides blanks is no selector. -/
theorem trimBlanks_ne_nil_of_readElements (h : readElements cs = .ok es) :
    Text.trimBlanks cs ≠ [] := by
  intro hnil
  rw [← readElements_trimBlanks, hnil] at h
  cases h

theorem Readable.of_append {gap : List Char} (h : Readable (gap ++ cs))
    (hgap : ∀ c ∈ gap, Text.isBlank c = true) : Readable cs := by
  intro hne
  rw [← trimBlanks_append hgap] at hne
  obtain ⟨es, hes⟩ := h hne
  exact ⟨es, (readElements_append_blanks hgap).1 hes⟩

/-- Behind a term a comma is not read. -/
theorem Readable.not_read_comma (h : Readable cs) (after : List Char) :
    readElements (cs ++ ',' :: after) ≠ .ok es := by
  have hcomma : ∀ (before : List Char) (r : Reader), before.foldlM Reader.step {} = .ok r →
      r.region = none → readElements (before ++ ',' :: after) ≠ .ok es := by
    intro before r hread hr hok
    have hfault := Reader.read_comma (k := .plain ',') hr (by decide)
    obtain ⟨q, hq, -⟩ := bind_eq_ok_iff.1 hok
    rw [List.foldlM_append, hread, ok_bind, ← List.singleton_append, List.foldlM_append,
      ← Chunk.chars, hfault] at hq
    cases hq
  by_cases hnil : Text.trimBlanks cs = []
  · rw [ne_eq, readElements_append_blanks (trimBlanks_eq_nil_iff.1 hnil)]
    exact hcomma [] {} rfl rfl
  · obtain ⟨es', hes⟩ := h hnil
    obtain ⟨r, hread, hfinish⟩ := bind_eq_ok_iff.1 hes
    exact hcomma cs r hread (Reader.finish_eq_ok_iff.1 hfinish).1

end Blanks

/-- How many brackets are open behind a character, of both kinds together. -/
def nest (depth : Nat) (c : Char) : Nat :=
  match c with
  | '(' | '[' => depth + 1
  | ')' | ']' => depth - 1
  | _ => depth

/-- How many brackets are open behind a text. -/
def depthAfter (depth : Nat) (cs : List Char) : Nat := cs.foldl nest depth

/-- Every comma stands where brackets are open. -/
def Unbroken (depth : Nat) (cs : List Char) : Prop :=
  ∀ before, before ++ [','] <+: cs → depthAfter depth before ≠ 0

/-- No term has a comma outside brackets, and no bracket is open between two terms. -/
structure Separable (terms : List (List Char)) : Prop where
  unbroken : ∀ term ∈ terms, Unbroken 0 term
  closed : terms.Pairwise fun term _ => depthAfter 0 term = 0

section Splitting

variable {depth : Nat} {c : Char} {cs ds term rest gap : List Char} {terms : List (List Char)}

@[simp] theorem depthAfter_nil (depth : Nat) : depthAfter depth [] = depth := rfl

@[simp] theorem depthAfter_cons (depth : Nat) (c : Char) (cs : List Char) :
    depthAfter depth (c :: cs) = depthAfter (nest depth c) cs := rfl

theorem depthAfter_append (depth : Nat) (cs ds : List Char) :
    depthAfter depth (cs ++ ds) = depthAfter (depthAfter depth cs) ds :=
  List.foldl_append

theorem unbroken_nil (depth : Nat) : Unbroken depth [] := by
  intro before h
  simp at h

theorem unbroken_cons_iff :
    Unbroken depth (c :: cs) ↔ (c = ',' → depth ≠ 0) ∧ Unbroken (nest depth c) cs := by
  constructor
  · intro h
    refine ⟨?_, fun before hbefore => ?_⟩
    · rintro rfl
      exact h [] ⟨cs, rfl⟩
    · exact h (c :: before) (List.cons_prefix_cons.2 ⟨rfl, hbefore⟩)
  · rintro ⟨hc, h⟩ before hbefore
    cases before with
    | nil => exact hc (List.cons_prefix_cons.1 hbefore).1.symm
    | cons d before =>
      obtain ⟨rfl, hrest⟩ := List.cons_prefix_cons.1 hbefore
      exact h before hrest

theorem unbroken_append_iff :
    Unbroken depth (cs ++ ds) ↔ Unbroken depth cs ∧ Unbroken (depthAfter depth cs) ds := by
  induction cs generalizing depth with
  | nil => simp [unbroken_nil]
  | cons c cs ih =>
    rw [List.cons_append, unbroken_cons_iff, unbroken_cons_iff, ih, depthAfter_cons, and_assoc]

/-- A text in which a comma stands outside brackets, up to the first one. -/
theorem exists_of_not_unbroken (h : ¬ Unbroken depth cs) :
    ∃ before after, cs = before ++ ',' :: after ∧ Unbroken depth before ∧
      depthAfter depth before = 0 := by
  induction cs generalizing depth with
  | nil => exact absurd (unbroken_nil depth) h
  | cons c cs ih =>
    by_cases hc : c = ',' ∧ depth = 0
    · obtain ⟨rfl, rfl⟩ := hc
      exact ⟨[], cs, rfl, unbroken_nil 0, rfl⟩
    · have hfirst : c = ',' → depth ≠ 0 := fun hcomma hzero => hc ⟨hcomma, hzero⟩
      obtain ⟨before, after, rfl, hbefore, hzero⟩ :=
        ih fun hrest => h (unbroken_cons_iff.2 ⟨hfirst, hrest⟩)
      exact ⟨c :: before, after, rfl, unbroken_cons_iff.2 ⟨hfirst, hbefore⟩, hzero⟩

theorem nest_of_blank (hc : Text.isBlank c = true) (depth : Nat) : nest depth c = depth := by
  unfold nest
  split <;> first | rfl | exact absurd hc (by decide)

/-- Blanks do not count. -/
theorem depthAfter_dense (depth : Nat) (cs : List Char) :
    depthAfter depth (Text.dense cs) = depthAfter depth cs := by
  induction cs generalizing depth with
  | nil => rfl
  | cons c cs ih =>
    by_cases hc : Text.isBlank c = true
    · rw [Text.dense, List.filter_cons_of_neg (by simp [hc]), depthAfter_cons, nest_of_blank hc]
      exact ih depth
    · rw [Text.dense, List.filter_cons_of_pos (by simp [hc])]
      exact ih (nest depth c)

theorem unbroken_dense_iff : Unbroken depth (Text.dense cs) ↔ Unbroken depth cs := by
  induction cs generalizing depth with
  | nil => rfl
  | cons c cs ih =>
    by_cases hc : Text.isBlank c = true
    · have hcomma : c ≠ ',' := by
        rintro rfl
        revert hc
        decide
      rw [Text.dense, List.filter_cons_of_neg (by simp [hc]), unbroken_cons_iff, nest_of_blank hc]
      exact ih.trans (by simp [hcomma])
    · rw [Text.dense, List.filter_cons_of_pos (by simp [hc]), unbroken_cons_iff, unbroken_cons_iff]
      exact and_congr_right fun _ => ih

theorem unbroken_of_blanks (depth : Nat) (hgap : ∀ c ∈ gap, Text.isBlank c = true) :
    Unbroken depth gap ∧ depthAfter depth gap = depth := by
  have hdense : Text.dense gap = [] := List.filter_eq_nil_iff.2 fun c hc => by simp [hgap c hc]
  rw [← unbroken_dense_iff, ← depthAfter_dense, hdense]
  exact ⟨unbroken_nil depth, rfl⟩

theorem separable_map_dense_iff : Separable (terms.map Text.dense) ↔ Separable terms := by
  constructor
  · rintro ⟨hunbroken, hclosed⟩
    refine ⟨fun term hterm => ?_, ?_⟩
    · exact unbroken_dense_iff.1 (hunbroken _ (List.mem_map_of_mem hterm))
    · simpa only [List.pairwise_map, depthAfter_dense] using hclosed
  · rintro ⟨hunbroken, hclosed⟩
    refine ⟨List.forall_mem_map.2 fun term hterm => ?_, ?_⟩
    · exact unbroken_dense_iff.2 (hunbroken term hterm)
    · simpa only [List.pairwise_map, depthAfter_dense] using hclosed

theorem Separable.sublist {kept : List (List Char)} (h : Separable terms)
    (hkept : kept.Sublist terms) : Separable kept :=
  ⟨fun term hterm => h.unbroken term (hkept.subset hterm), h.closed.sublist hkept⟩

theorem splitTerms_cons (depth : Nat) (term : List Char) (c : Char) (cs : List Char) :
    splitTerms depth term (c :: cs) =
      if c = ',' ∧ depth = 0 then term :: splitTerms 0 [] cs
      else splitTerms (nest depth c) (term ++ [c]) cs := rfl

/-- A text without a comma outside brackets is not cut. -/
theorem splitTerms_append (h : Unbroken depth cs) (term rest : List Char) :
    splitTerms depth term (cs ++ rest) = splitTerms (depthAfter depth cs) (term ++ cs) rest := by
  induction cs generalizing depth term with
  | nil => simp
  | cons c cs ih =>
    obtain ⟨hc, hrest⟩ := unbroken_cons_iff.1 h
    have hcut : ¬ (c = ',' ∧ depth = 0) := fun hcut => hc hcut.1 hcut.2
    rw [List.cons_append, splitTerms_cons, if_neg hcut, ih hrest, depthAfter_cons,
      List.append_assoc, List.singleton_append]

theorem splitTerms_comma (term rest : List Char) :
    splitTerms 0 term (',' :: rest) = term :: splitTerms 0 [] rest := by
  rw [splitTerms_cons, if_pos ⟨rfl, rfl⟩]

/-- What was read of the first term is the start of it. -/
theorem exists_splitTerms_eq (depth : Nat) (term cs : List Char) :
    ∃ more others, splitTerms depth term cs = (term ++ more) :: others := by
  induction cs generalizing depth term with
  | nil => exact ⟨[], [], by simp [splitTerms]⟩
  | cons c cs ih =>
    rw [splitTerms_cons]
    split
    · exact ⟨[], splitTerms 0 [] cs, by simp⟩
    · obtain ⟨more, others, h⟩ := ih (nest depth c) (term ++ [c])
      exact ⟨c :: more, others, by rw [h]; simp⟩

/-- The terms of a text are separable. -/
theorem separable_splitTerms (hterm : Unbroken 0 term) (cs : List Char) :
    Separable (splitTerms (depthAfter 0 term) term cs) := by
  induction cs generalizing term with
  | nil =>
    refine ⟨fun t ht => ?_, List.pairwise_singleton ..⟩
    rwa [List.mem_singleton.1 ht]
  | cons c cs ih =>
    rw [splitTerms_cons]
    split
    next hcut =>
      have hrest := ih (unbroken_nil 0)
      refine ⟨List.forall_mem_cons.2 ⟨hterm, hrest.unbroken⟩, ?_⟩
      exact List.pairwise_cons.2 ⟨fun _ _ => hcut.2, hrest.closed⟩
    next hcut =>
      have hlonger : Unbroken 0 (term ++ [c]) := by
        refine unbroken_append_iff.2 ⟨hterm, unbroken_cons_iff.2 ⟨?_, unbroken_nil _⟩⟩
        exact fun hc hzero => hcut ⟨hc, hzero⟩
      have hrest := ih hlonger
      rwa [depthAfter_append] at hrest

/-- Separable terms with commas between them are cut at these commas. -/
theorem splitTerms_intercalate (h : Separable (term :: terms)) {gap : List Char}
    (hgap : ∀ c ∈ gap, Text.isBlank c = true) (lead : List Char) :
    splitTerms 0 lead ((',' :: gap).intercalate (term :: terms)) =
      (lead ++ term) :: terms.map (gap ++ ·) := by
  have hterm := h.unbroken term List.mem_cons_self
  induction terms generalizing term lead with
  | nil =>
    rw [List.intercalate_singleton, ← List.append_nil term,
      splitTerms_append (by simpa using hterm)]
    simp [splitTerms]
  | cons next terms ih =>
    have hrest : Separable (next :: terms) := h.sublist (List.sublist_cons_self ..)
    obtain ⟨hblank, hzero⟩ := unbroken_of_blanks 0 hgap
    have hclosed : depthAfter 0 term = 0 :=
      (List.pairwise_cons.1 h.closed).1 next List.mem_cons_self
    rw [List.intercalate_cons_cons, List.append_assoc, splitTerms_append hterm, hclosed,
      List.cons_append, splitTerms_comma, splitTerms_append hblank, hzero, List.nil_append,
      ih hrest gap (hrest.unbroken next List.mem_cons_self), List.map_cons]

section Cut

variable {lead : List Char} (hlead : ∀ c ∈ lead, Text.isBlank c = true)
  (hread : ∃ es, readElements term = .ok es)

include hlead hread

/-- A selector is not cut inside if what is cut out can be read. -/
theorem unbroken_of_readable (hcut : ∀ t ∈ splitTerms 0 lead (term ++ rest), Readable t) :
    Unbroken 0 term := by
  by_contra hbroken
  obtain ⟨before, after, rfl, hbefore, hzero⟩ := exists_of_not_unbroken hbroken
  rw [List.append_assoc, splitTerms_append hbefore, hzero, List.cons_append,
    splitTerms_comma] at hcut
  have hfirst : Readable before := (hcut _ List.mem_cons_self).of_append hlead
  obtain ⟨es, hes⟩ := hread
  exact hfirst.not_read_comma after hes

/-- No bracket is open behind a selector if what is cut out can be read. -/
theorem depthAfter_of_readable (hterm : Unbroken 0 term)
    (hcut : ∀ t ∈ splitTerms 0 lead (term ++ ',' :: rest), Readable t) :
    depthAfter 0 term = 0 := by
  by_contra hopen
  obtain ⟨more, others, hsplit⟩ :=
    exists_splitTerms_eq (nest (depthAfter 0 term) ',') (lead ++ term ++ [',']) rest
  rw [splitTerms_append hterm, splitTerms_cons, if_neg fun h => hopen h.2, hsplit] at hcut
  have hfirst : Readable (lead ++ (term ++ ',' :: more)) := by
    simpa using hcut _ List.mem_cons_self
  have hne : Text.trimBlanks (term ++ ',' :: more) ≠ [] := by
    intro hnil
    have hblank := trimBlanks_eq_nil_iff.1 hnil ',' (by simp)
    revert hblank
    decide
  obtain ⟨es, hes⟩ := hfirst.of_append hlead hne
  exact Readable.not_read_comma (fun _ => hread) more hes

end Cut

/-- Selectors with commas between them are separable if what is cut out can be read. -/
theorem separable_of_readable (hgap : ∀ c ∈ gap, Text.isBlank c = true) (lead : List Char)
    (hlead : ∀ c ∈ lead, Text.isBlank c = true)
    (hread : ∀ t ∈ term :: terms, ∃ es, readElements t = .ok es)
    (hcut : ∀ t ∈ splitTerms 0 lead ((',' :: gap).intercalate (term :: terms)), Readable t) :
    Separable (term :: terms) := by
  obtain ⟨hfirst, hothers⟩ := List.forall_mem_cons.1 hread
  induction terms generalizing term lead with
  | nil =>
    rw [List.intercalate_singleton, ← List.append_nil term] at hcut
    have hterm := unbroken_of_readable hlead hfirst hcut
    exact ⟨by simpa using hterm, List.pairwise_singleton ..⟩
  | cons next terms ih =>
    rw [List.intercalate_cons_cons, List.append_assoc, List.cons_append] at hcut
    have hterm := unbroken_of_readable hlead hfirst hcut
    have hclosed := depthAfter_of_readable hlead hfirst hterm hcut
    obtain ⟨hblank, hzero⟩ := unbroken_of_blanks 0 hgap
    rw [splitTerms_append hterm, hclosed, splitTerms_comma, splitTerms_append hblank, hzero,
      List.nil_append] at hcut
    obtain ⟨hnext, hlater⟩ := List.forall_mem_cons.1 hothers
    have hrest := ih gap hgap hothers (List.forall_mem_cons.1 hcut).2 hnext hlater
    refine ⟨List.forall_mem_cons.2 ⟨hterm, hrest.unbroken⟩, ?_⟩
    exact List.pairwise_cons.2 ⟨fun _ _ => hclosed, hrest.closed⟩

end Splitting

end Selector

end Stylesheet
