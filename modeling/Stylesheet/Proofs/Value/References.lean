import Stylesheet.Value.Reader
import Mathlib.Data.List.Chain

/-!
# The references in a value

Taking a value apart loses nothing, and finds exactly the references. An at-sign opens a
reference if a name starts behind it and no word ends before it. What is before it starts
at the end of the last reference: where a reference ends, another one may begin.

`Division` says how a text is divided, by the first at-sign in it that opens a reference and
what is behind the name there. It speaks of the text alone, while the scanner only knows
the text since the last reference and whether a word runs up to the present character.
-/

namespace Stylesheet

/-- The characters that the pieces of a value were written with. -/
def Part.sources (parts : List Part) : List Char := parts.flatMap fun part => part.source.toList

namespace Value

theorem sources_textPart (cs : List Char) : Part.sources (textPart cs) = cs := by
  unfold textPart
  split
  next hempty => exact (List.isEmpty_iff.1 hempty).symm
  next => simp [Part.sources, Part.source]

/-- Taking a value apart loses nothing. -/
theorem sources_scan (before : List Char) (glued : Bool) (cs : List Char) :
    Part.sources (scan before glued cs) = before ++ cs := by
  fun_induction scan before glued cs with
  | case1 before => rw [sources_textPart, List.append_nil]
  | case2 before => rw [sources_textPart]
  | case3 before glued d more hname ih =>
    rw [Part.sources, List.flatMap_append, List.flatMap_cons]
    change Part.sources (textPart before) ++ (_ ++ Part.sources _) = _
    rw [sources_textPart, ih]
    simp [Part.source]
  | case4 before glued d more hname ih =>
    rw [ih]
    simp
  | case5 before glued c rest hc ih =>
    rw [ih]
    simp

/-- The text of a value that was read is what was read. -/
theorem text_read (source : String) : (read source).text = source := by
  have hsources := sources_scan [] false source.toList
  apply String.ext
  rw [text, String.toList_join, List.flatMap_map]
  exact hsources

/-- The places and the names of the references in some pieces. -/
def references : List Part → List (Nat × String)
  | [] => []
  | .text s :: parts => (references parts).map fun r => (s.length + r.1, r.2)
  | .reference name :: parts =>
    (0, name) :: (references parts).map fun r => (name.length + r.1, r.2)

/-- A reference begins at the place. -/
def BeginsAt (parts : List Part) (place : Nat) : Prop := ∃ name, (place, name) ∈ references parts

/-- A reference ends at the place. -/
def EndsAt (parts : List Part) (place : Nat) : Prop :=
  ∃ start name, (start, name) ∈ references parts ∧ start + name.length = place

/-- No word runs up to the end of the text. -/
def Free (before : List Char) : Prop :=
  before = [] ∨ ∃ c, before.getLast? = some c ∧ continuesName c = false

/-- A name starts the text. -/
def Named (after : List Char) : Prop := ∃ c, after.head? = some c ∧ startsName c = true

/-- How a text is divided that starts where a reference may begin. -/
inductive Division : List Char → List Part → Prop
  /-- No at-sign opens a reference. -/
  | plain {cs : List Char}
      (hplain : ∀ before after, cs = before ++ '@' :: after → Free before → ¬ Named after) :
      Division cs (textPart cs)
  /-- The first at-sign that opens a reference does so with the whole name behind it. -/
  | reference {before after : List Char} {parts : List Part} (hfree : Free before)
      (hnamed : Named after)
      (hfirst : ∀ before' after', before ++ '@' :: after = before' ++ '@' :: after' →
        before'.length < before.length → Free before' → ¬ Named after')
      (hrest : Division (after.dropWhile continuesName) parts) :
      Division (before ++ '@' :: after) (textPart before ++
        .reference (String.ofList ('@' :: after.takeWhile continuesName)) :: parts)

section Scanner

theorem continuesName_of_startsName {c : Char} (h : startsName c = true) :
    continuesName c = true := by
  simp only [startsName, Bool.or_eq_true] at h
  simp only [continuesName, Text.isAlphanumeric, Bool.or_eq_true]
  tauto

theorem continuesName_at : continuesName '@' = false := by decide

theorem free_concat_iff (before : List Char) (c : Char) :
    Free (before ++ [c]) ↔ continuesName c = false := by
  simp [Free]

/-- Where the text since the last reference has been passed over without finding one, what the
scanner does with the rest divides the whole of it. -/
theorem division_scan (before : List Char) (glued : Bool) (cs : List Char)
    (hglued : glued = false ↔ Free before)
    (hpassed : ∀ before' after', before ++ cs = before' ++ '@' :: after' →
      before'.length < before.length → Free before' → ¬ Named after') :
    Division (before ++ cs) (scan before glued cs) := by
  -- An at-sign in the text was passed over, or is the present character.
  have hplace : ∀ {before : List Char} {c : Char} {rest before' after' : List Char},
      before ++ c :: rest = before' ++ '@' :: after' → before'.length < before.length + 1 →
        before'.length < before.length ∨ before' = before ∧ c = '@' ∧ after' = rest := by
    intro before c rest before' after' heq hlt
    rcases Nat.lt_or_ge before'.length before.length with hshort | hlong
    · exact .inl hshort
    · obtain ⟨hbefore, hrest⟩ := List.append_inj heq (by omega)
      obtain ⟨hc, hafter⟩ := List.cons.inj hrest
      exact .inr ⟨hbefore.symm, hc, hafter.symm⟩
  fun_induction scan before glued cs with
  | case1 before glued =>
    rw [List.append_nil] at hpassed ⊢
    refine .plain fun before' after' heq => hpassed before' after' heq ?_
    rw [heq]
    simp
  | case2 before glued =>
    refine .plain fun before' after' heq hfree => ?_
    have hlength := congrArg List.length heq
    simp only [List.length_append, List.length_cons, List.length_nil] at hlength
    rcases hplace heq (by omega) with hshort | ⟨-, -, rfl⟩
    · exact hpassed before' after' heq hshort hfree
    · simp [Named]
  | case3 before glued d more hname ih =>
    obtain ⟨hstarts, hfree⟩ : startsName d = true ∧ glued = false := by simpa using hname
    have hcontinues := continuesName_of_startsName hstarts
    have hnamed : Named (d :: more) := ⟨d, rfl, hstarts⟩
    have hrest : Division ((d :: more).dropWhile continuesName)
        (scan [] false (more.dropWhile continuesName)) := by
      rw [List.dropWhile_cons_of_pos hcontinues]
      exact ih (by simp [Free]) (by simp)
    have hdivision := Division.reference (hglued.1 hfree) hnamed hpassed hrest
    rwa [List.takeWhile_cons_of_pos hcontinues] at hdivision
  | case4 before glued d more hname ih =>
    have hdivision := ih (by simp [free_concat_iff, continuesName_at]) ?_
    · rwa [List.append_assoc] at hdivision
    · intro before' after' heq hlt hfree
      rw [List.append_assoc] at heq
      rw [List.length_append] at hlt
      rcases hplace heq hlt with hshort | ⟨rfl, -, rfl⟩
      · exact hpassed before' after' heq hshort hfree
      · rintro ⟨c, hc, hstarts⟩
        obtain rfl := Option.some.inj hc
        exact hname (by simp [hstarts, hglued.2 hfree])
  | case5 before glued c rest hc ih =>
    have hdivision := ih (by rw [free_concat_iff]) ?_
    · rwa [List.append_assoc] at hdivision
    · intro before' after' heq hlt hfree
      rw [List.append_assoc] at heq
      rw [List.length_append] at hlt
      rcases hplace heq hlt with hshort | ⟨-, hat, -⟩
      · exact hpassed before' after' heq hshort hfree
      · exact absurd hat hc

theorem division_read (source : String) : Division source.toList (read source).parts :=
  division_scan [] false source.toList (by simp [Free]) (by simp)

end Scanner

section Divisions

variable {cs before after : List Char} {parts : List Part} {place : Nat} {name : String}

theorem mem_map_shift_iff {shift : Nat} {found : List (Nat × String)} :
    (place, name) ∈ found.map (fun r => (shift + r.1, r.2)) ↔
      ∃ start, place = shift + start ∧ (start, name) ∈ found := by
  simp only [List.mem_map, Prod.mk.injEq, Prod.exists]
  constructor
  · rintro ⟨start, _, hmem, rfl, rfl⟩
    exact ⟨start, rfl, hmem⟩
  · rintro ⟨start, rfl, hmem⟩
    exact ⟨start, name, hmem, rfl, rfl⟩

theorem references_textPart (cs : List Char) : references (textPart cs) = [] := by
  unfold textPart
  split <;> rfl

theorem references_textPart_append (cs : List Char) (parts : List Part) :
    references (textPart cs ++ parts) =
      (references parts).map fun r => (cs.length + r.1, r.2) := by
  unfold textPart
  split
  next hempty =>
    obtain rfl := List.isEmpty_iff.1 hempty
    simp
  next =>
    rw [List.singleton_append, references, String.length_ofList]

/-- The references of a text that is divided at its first one. -/
theorem mem_references_iff {first : String} :
    (place, name) ∈ references (textPart before ++ .reference first :: parts) ↔
      place = before.length ∧ name = first ∨
        ∃ start, place = before.length + first.length + start ∧
          (start, name) ∈ references parts := by
  rw [references_textPart_append, mem_map_shift_iff, references]
  constructor
  · rintro ⟨start, rfl, hmem⟩
    rcases List.mem_cons.1 hmem with hfirst | hlater
    · obtain ⟨rfl, rfl⟩ := Prod.mk.inj hfirst
      exact .inl ⟨rfl, rfl⟩
    · obtain ⟨later, rfl, hparts⟩ := mem_map_shift_iff.1 hlater
      exact .inr ⟨later, by omega, hparts⟩
  · rintro (⟨rfl, rfl⟩ | ⟨start, rfl, hmem⟩)
    · exact ⟨0, rfl, List.mem_cons_self⟩
    · exact ⟨first.length + start, by omega,
        List.mem_cons_of_mem _ (mem_map_shift_iff.2 ⟨start, rfl, hmem⟩)⟩

theorem beginsAt_iff {first : String} :
    BeginsAt (textPart before ++ .reference first :: parts) place ↔
      place = before.length ∨
        ∃ start, place = before.length + first.length + start ∧ BeginsAt parts start := by
  constructor
  · rintro ⟨name, hmem⟩
    rcases mem_references_iff.1 hmem with ⟨hplace, -⟩ | ⟨start, hplace, hmem⟩
    · exact .inl hplace
    · exact .inr ⟨start, hplace, name, hmem⟩
  · rintro (hplace | ⟨start, hplace, name, hmem⟩)
    · exact ⟨first, mem_references_iff.2 (.inl ⟨hplace, rfl⟩)⟩
    · exact ⟨name, mem_references_iff.2 (.inr ⟨start, hplace, hmem⟩)⟩

theorem endsAt_iff {first : String} :
    EndsAt (textPart before ++ .reference first :: parts) place ↔
      place = before.length + first.length ∨
        ∃ start, place = before.length + first.length + start ∧ EndsAt parts start := by
  constructor
  · rintro ⟨start, name, hmem, rfl⟩
    rcases mem_references_iff.1 hmem with ⟨rfl, rfl⟩ | ⟨later, rfl, hparts⟩
    · exact .inl rfl
    · exact .inr ⟨later + name.length, by omega, later, name, hparts, rfl⟩
  · rintro (rfl | ⟨_, rfl, start, name, hmem, rfl⟩)
    · exact ⟨before.length, first, mem_references_iff.2 (.inl ⟨rfl, rfl⟩), rfl⟩
    · exact ⟨_, name, mem_references_iff.2 (.inr ⟨start, rfl, hmem⟩), by omega⟩

theorem free_append_iff {front back : List Char} (h : back ≠ []) :
    Free (front ++ back) ↔ Free back := by
  simp [Free, h]

/-- An at-sign behind the start of a name stands behind the whole of it. -/
theorem exists_of_at_behind {middle : List Char} (h : after = middle ++ '@' :: cs) :
    ∃ rest, middle = after.takeWhile continuesName ++ rest ∧
      after.dropWhile continuesName = rest ++ '@' :: cs := by
  have hsplit : after.takeWhile continuesName ++ after.dropWhile continuesName =
      middle ++ '@' :: cs := List.takeWhile_append_dropWhile.trans h
  rcases List.append_eq_append_iff.1 hsplit with ⟨rest, hmiddle, hrest⟩ | ⟨rest, hname, hrest⟩
  · exact ⟨rest, hmiddle, hrest⟩
  · cases rest with
    | nil => exact ⟨[], by simpa using hname.symm, hrest.symm⟩
    | cons c rest =>
      obtain ⟨rfl, -⟩ := List.cons.inj hrest
      have hall := List.all_eq_true.1 (List.all_takeWhile (p := continuesName) (l := after))
      have hcontinues := hall '@' (by rw [hname]; simp)
      rw [continuesName_at] at hcontinues
      cases hcontinues

/-- An at-sign of a text stands before the first reference, at its start or behind it. -/
theorem at_cases {first behind : List Char}
    (heq : first ++ '@' :: behind = before ++ '@' :: after) :
    before.length < first.length ∨ before = first ∧ after = behind ∨
      ∃ rest, before = first ++ '@' :: behind.takeWhile continuesName ++ rest ∧
        behind.dropWhile continuesName = rest ++ '@' :: after := by
  rcases List.append_eq_append_iff.1 heq with ⟨middle, rfl, htail⟩ | ⟨middle, rfl, htail⟩
  · cases middle with
    | nil => exact .inr (.inl ⟨by simp, (List.cons.inj htail).2.symm⟩)
    | cons c middle =>
      obtain ⟨rfl, hbehind⟩ := List.cons.inj htail
      obtain ⟨rest, rfl, hrest⟩ := exists_of_at_behind hbehind
      exact .inr (.inr ⟨rest, by simp, hrest⟩)
  · cases middle with
    | nil => exact .inr (.inl ⟨by simp, (List.cons.inj htail).2⟩)
    | cons c middle => exact .inl (by simp)

namespace Division

/-- A reference begins exactly at the at-signs that open one. -/
theorem beginsAt_iff (h : Division cs parts) (heq : cs = before ++ '@' :: after) :
    BeginsAt parts before.length ↔
      Named after ∧ (EndsAt parts before.length ∨ Free before) := by
  induction h generalizing before after with
  | @plain cs hplain =>
    have hnone : references (textPart cs) = [] := references_textPart cs
    constructor
    · rintro ⟨name, hmem⟩
      simp [hnone] at hmem
    · rintro ⟨hnamed, ⟨start, name, hmem, -⟩ | hfree⟩
      · simp [hnone] at hmem
      · exact absurd hnamed (hplain before after heq hfree)
  | @reference first behind parts hfree hnamed hfirst hrest ih =>
    rw [Value.beginsAt_iff, endsAt_iff, String.length_ofList, List.length_cons]
    obtain hshort | ⟨rfl, rfl⟩ | ⟨rest, rfl, hdrop⟩ := at_cases heq
    · -- Before the first reference nothing begins or ends.
      constructor
      · rintro (hplace | ⟨start, hplace, -⟩) <;> omega
      · rintro ⟨hname, (hplace | ⟨start, hplace, -⟩) | hbefore⟩
        · omega
        · omega
        · exact absurd hname (hfirst before after heq hshort hbefore)
    · exact iff_of_true (.inl rfl) ⟨hnamed, .inr hfree⟩
    · -- Behind it the place is counted from its end, where a reference has just ended.
      obtain ⟨size, hsize⟩ : ∃ size,
          size = first.length + ((behind.takeWhile continuesName).length + 1) := ⟨_, rfl⟩
      have hlength : (first ++ '@' :: behind.takeWhile continuesName ++ rest).length =
          size + rest.length := by
        rw [List.length_append, List.length_append, List.length_cons, hsize]
      have hne : size + rest.length ≠ first.length := by omega
      rw [hlength, ← hsize]
      simp only [hne, false_or, Nat.add_left_cancel_iff, exists_eq_left', Nat.add_eq_left,
        List.length_eq_zero_iff]
      rw [ih hdrop]
      by_cases hnil : rest = []
      · simp [hnil, Free]
      · rw [free_append_iff hnil]
        simp [hnil]

/-- The name of a reference is as long as it can be. -/
theorem exists_of_mem (h : Division cs parts) (hmem : (place, name) ∈ references parts) :
    ∃ before after, cs = before ++ '@' :: after ∧ before.length = place ∧
      name.toList = '@' :: after.takeWhile continuesName := by
  induction h generalizing place with
  | plain => simp [references_textPart] at hmem
  | @reference first behind parts hfree hnamed hfirst hrest ih =>
    rcases mem_references_iff.1 hmem with ⟨rfl, rfl⟩ | ⟨start, rfl, hparts⟩
    · exact ⟨first, behind, rfl, rfl, String.toList_ofList⟩
    · obtain ⟨before, after, hdrop, rfl, hname⟩ := ih hparts
      refine ⟨first ++ '@' :: behind.takeWhile continuesName ++ before, after, ?_, ?_, hname⟩
      · rw [List.append_assoc, List.append_assoc, List.cons_append, ← hdrop,
          List.takeWhile_append_dropWhile]
      · rw [List.length_append, List.length_append, String.length_ofList, List.length_cons]

theorem text_ne_empty (h : Division cs parts) {s : String} (hmem : .text s ∈ parts) : s ≠ "" := by
  have htext : ∀ cs : List Char, .text s ∈ textPart cs → s ≠ "" := by
    intro cs hs
    unfold textPart at hs
    split at hs
    · cases hs
    next hne =>
      obtain rfl : s = String.ofList cs := by simpa using hs
      simpa using hne
  induction h with
  | plain => exact htext _ hmem
  | reference hfree hnamed hfirst hrest ih =>
    rcases List.mem_append.1 hmem with hs | hs
    · exact htext _ hs
    · exact ih (by simpa using hs)

/-- Of two pieces next to each other, one is a reference. -/
theorem isChain (h : Division cs parts) :
    parts.IsChain fun p q => ∃ name, p = .reference name ∨ q = .reference name := by
  induction h with
  | @plain cs =>
    unfold textPart
    split
    · exact .nil
    · exact .singleton _
  | @reference first behind parts hfree hnamed hfirst hrest ih =>
    have hreference : ∀ name, (Part.reference name :: parts).IsChain
        fun p q => ∃ name, p = .reference name ∨ q = .reference name := by
      intro name
      cases parts with
      | nil => exact .singleton _
      | cons next parts => exact .cons_cons ⟨name, .inl rfl⟩ ih
    unfold textPart
    split
    · exact hreference _
    · exact .cons_cons ⟨_, .inr rfl⟩ (hreference _)

end Division

end Divisions

/-- Reading a value loses nothing and finds exactly the references. An at-sign starts a reference if
and only if a name starts behind it, and a reference ends before it or no word does. The name is as
long as it can be. -/
theorem read_finds_references (source : String) :
    (read source).text = source ∧
    (∀ s, .text s ∈ (read source).parts → s ≠ "") ∧
    (∀ front s t back, (read source).parts ≠ front ++ .text s :: .text t :: back) ∧
    (∀ before after, source.toList = before ++ '@' :: after →
      ((∃ name, (before.length, name) ∈ references (read source).parts) ↔
        (∃ c, after.head? = some c ∧ startsName c = true) ∧
        ((∃ start name, (start, name) ∈ references (read source).parts ∧
            start + name.length = before.length) ∨
          before = [] ∨ ∃ c, before.getLast? = some c ∧ continuesName c = false))) ∧
    ∀ start name, (start, name) ∈ references (read source).parts →
      ∃ before after, source.toList = before ++ '@' :: after ∧ before.length = start ∧
        name.toList = '@' :: after.takeWhile continuesName := by
  have h := division_read source
  refine ⟨text_read source, fun s hs => h.text_ne_empty hs, ?_, ?_, fun _ _ => h.exists_of_mem⟩
  · intro front s t back heq
    have hchain := h.isChain
    rw [heq, List.isChain_append_cons_cons] at hchain
    simpa using hchain.2.1
  · intro before after heq
    exact h.beginsAt_iff heq

/-- A sign without a name, one glued to a word, one behind another sign, and one right behind a
reference. -/
theorem read_finds_references_signs :
    references (read "@1 a@b @@ü@c-1").parts = [(8, "@ü"), (10, "@c-1")] ∧
    "@1 a@b @@ü@c-1".toList = "@1 a@b @@ü".toList ++ '@' :: "c-1".toList ∧
    ((∃ name, ("@1 a@b @@ü".toList.length, name) ∈ references (read "@1 a@b @@ü@c-1").parts) ↔
      (∃ c, "c-1".toList.head? = some c ∧ startsName c = true) ∧
      ((∃ start name, (start, name) ∈ references (read "@1 a@b @@ü@c-1").parts ∧
          start + name.length = "@1 a@b @@ü".toList.length) ∨
        "@1 a@b @@ü".toList = [] ∨
          ∃ c, "@1 a@b @@ü".toList.getLast? = some c ∧ continuesName c = false)) :=
  have hsource : "@1 a@b @@ü@c-1".toList = "@1 a@b @@ü".toList ++ '@' :: "c-1".toList := by decide
  ⟨by decide +kernel, hsource,
    (read_finds_references "@1 a@b @@ü@c-1").2.2.2.1 "@1 a@b @@ü".toList "c-1".toList hsource⟩

end Value

end Stylesheet
