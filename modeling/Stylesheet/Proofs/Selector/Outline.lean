import Stylesheet.Selector.Reader
import Mathlib.Data.List.Induction

/-!
# The outline of a selector

The outline of a text cuts it into chunks: characters outside brackets, and pairs of
brackets with all that is between them. Inside a pair only brackets of that kind are
counted. A text has at most one outline, and it has one unless a bracket outside of all
pairs is never closed.

Whether a text is a selector is told from its outline: there is no comma, there is an
element, and between two signs and after the last one there is an element.
-/

namespace Stylesheet.Selector

/-- Every closing bracket of the pair has an opening one before it, and every opening one a closing
one behind it. -/
structure Bracket.Balanced (b : Bracket) (cs : List Char) : Prop where
  closed : cs.count b.closing = cs.count b.opening
  ordered : ∀ p, p <+: cs → p.count b.closing ≤ p.count b.opening

/-- A piece of a text as it is seen from outside brackets. -/
inductive Chunk where
  | plain (c : Char)
  /-- A pair of brackets and what is between them. -/
  | region (b : Bracket) (inside : List Char)

/-- What a chunk is to a selector. -/
inductive Kind where
  | blank
  | sign
  | comma
  /-- It belongs to an element. -/
  | part
deriving DecidableEq

namespace Chunk

/-- The characters of a chunk. -/
def chars : Chunk → List Char
  | .plain c => [c]
  | .region b inside => b.opening :: (inside ++ [b.closing])

/-- A character outside brackets opens none, and a pair ends at the bracket that closes it. -/
def Valid : Chunk → Prop
  | .plain c => ∀ b : Bracket, c ≠ b.opening
  | .region b inside => b.Balanced inside

/-- The kind of a chunk. -/
def kind : Chunk → Kind
  | .plain c =>
    if Text.isBlank c then .blank
    else if c = '>' ∨ c = '+' ∨ c = '~' then .sign
    else if c = ',' then .comma
    else .part
  | .region _ _ => .part

end Chunk

/-- The chunks of a text. -/
structure Outline (cs : List Char) (chunks : List Chunk) : Prop where
  chars : cs = chunks.flatMap Chunk.chars
  valid : ∀ k ∈ chunks, k.Valid

section Outlines

variable {b : Bracket} {cs rest rest' inside inside' : List Char} {chunks chunks' : List Chunk}
  {k : Chunk}

theorem Bracket.opening_ne_closing (b : Bracket) : b.opening ≠ b.closing := by
  cases b <;> decide

theorem Bracket.opening_injective {b b' : Bracket} (h : b.opening = b'.opening) : b = b' := by
  cases b <;> cases b' <;> revert h <;> decide

/-- What another closing bracket does to the counts. -/
theorem Bracket.count_closing (b : Bracket) (cs : List Char) :
    (cs ++ [b.closing]).count b.closing = cs.count b.closing + 1 ∧
      (cs ++ [b.closing]).count b.opening = cs.count b.opening := by
  have hne := b.opening_ne_closing
  simp [List.count_append, hne.symm]

/-- A pair ends at one place only. -/
theorem Bracket.Balanced.eq_of_le (h : b.Balanced inside) (h' : b.Balanced inside')
    (heq : inside ++ b.closing :: rest = inside' ++ b.closing :: rest') (hle : inside <+: inside') :
    inside = inside' := by
  obtain ⟨more, rfl⟩ := hle
  cases more with
  | nil => simp
  | cons c more =>
    obtain rfl : b.closing = c := by simp_all
    have hordered := h'.ordered (inside ++ [b.closing]) ⟨more, by simp⟩
    have hclosed := h.closed
    obtain ⟨hmore, hsame⟩ := b.count_closing inside
    omega

theorem Bracket.Balanced.unique (h : b.Balanced inside) (h' : b.Balanced inside')
    (heq : inside ++ b.closing :: rest = inside' ++ b.closing :: rest') : inside = inside' := by
  rcases List.prefix_or_prefix_of_prefix ⟨_, heq⟩ (List.prefix_append inside' _) with hle | hle
  · exact h.eq_of_le h' heq hle
  · exact (h'.eq_of_le h heq.symm hle).symm

theorem outline_nil : Outline [] [] := ⟨rfl, by simp⟩

theorem Outline.append (h : Outline cs chunks) (h' : Outline rest chunks') :
    Outline (cs ++ rest) (chunks ++ chunks') :=
  ⟨by rw [h.chars, h'.chars, List.flatMap_append], List.forall_mem_append.2 ⟨h.valid, h'.valid⟩⟩

theorem outline_singleton (h : k.Valid) : Outline k.chars [k] := ⟨by simp, by simpa using h⟩

/-- Two chunks at the start of one text are the same, and so is what follows. -/
theorem Chunk.Valid.unique {k k' : Chunk} (h : k.Valid) (h' : k'.Valid)
    (heq : k.chars ++ rest = k'.chars ++ rest') : k = k' ∧ rest = rest' := by
  cases k with
  | plain c =>
    cases k' with
    | plain c' => simpa [chars] using heq
    | region b inside => exact absurd (List.cons.inj heq).1 (h b)
  | region b inside =>
    cases k' with
    | plain c => exact absurd (List.cons.inj heq).1.symm (h' b)
    | region b' inside' =>
      obtain rfl := Bracket.opening_injective (List.cons.inj heq).1
      have htail : inside ++ b.closing :: rest = inside' ++ b.closing :: rest' := by
        simpa [chars] using heq
      obtain rfl := Bracket.Balanced.unique h h' htail
      simpa using htail

theorem Chunk.chars_ne_nil (k : Chunk) : k.chars ≠ [] := by
  cases k <;> simp [chars]

/-- A text has at most one outline. -/
theorem Outline.unique (h : Outline cs chunks) (h' : Outline cs chunks') : chunks = chunks' := by
  obtain ⟨rfl, hvalid⟩ := h
  obtain ⟨heq, hvalid'⟩ := h'
  induction chunks generalizing chunks' with
  | nil =>
    cases chunks' with
    | nil => rfl
    | cons k' chunks' => simp [Chunk.chars_ne_nil] at heq
  | cons k chunks ih =>
    cases chunks' with
    | nil => simp [Chunk.chars_ne_nil] at heq
    | cons k' chunks' =>
      rw [List.forall_mem_cons] at hvalid hvalid'
      obtain ⟨rfl, hrest⟩ := hvalid.1.unique hvalid'.1 heq
      rw [ih hvalid.2 hrest hvalid'.2]

/-- A text without an outline has a bracket outside of all pairs that is never closed. -/
theorem exists_outline_or_unclosed (cs : List Char) :
    (∃ chunks, Outline cs chunks) ∨
      ∃ (before inside : List Char) (chunks : List Chunk) (b : Bracket),
        Outline before chunks ∧ cs = before ++ b.opening :: inside ∧
          ∀ p, p <+: inside → p.count b.closing ≤ p.count b.opening := by
  induction cs using List.reverseRecOn with
  | nil => exact .inl ⟨[], outline_nil⟩
  | append_singleton cs c ih =>
    rcases ih with ⟨chunks, houtline⟩ | ⟨before, inside, chunks, b, houtline, rfl, hordered⟩
    · by_cases hopening : ∃ b : Bracket, c = b.opening
      · obtain ⟨b, rfl⟩ := hopening
        exact .inr ⟨cs, [], chunks, b, houtline, rfl, by simp⟩
      · have hvalid : (Chunk.plain c).Valid := fun b hb => hopening ⟨b, hb⟩
        exact .inl ⟨_, houtline.append (outline_singleton hvalid)⟩
    · have hinside := hordered inside List.prefix_rfl
      by_cases hends : c = b.closing ∧ inside.count b.closing = inside.count b.opening
      · obtain ⟨rfl, hclosed⟩ := hends
        have hvalid : (Chunk.region b inside).Valid := ⟨hclosed, hordered⟩
        exact .inl ⟨_, by
          simpa [Chunk.chars] using houtline.append (outline_singleton hvalid)⟩
      · refine .inr ⟨before, inside ++ [c], chunks, b, houtline, by simp, ?_⟩
        intro p hp
        rcases List.prefix_concat_iff.1 hp with rfl | hp
        · by_cases hc : c = b.closing
          · have hopen : inside.count b.closing ≠ inside.count b.opening := fun h => hends ⟨hc, h⟩
            obtain ⟨hmore, hsame⟩ := b.count_closing inside
            rw [hc]
            omega
          · rw [List.count_append, List.count_append, List.count_singleton,
              if_neg (by simpa using hc)]
            omega
        · exact hordered p hp

end Outlines

/-- Between two signs there is an element, and so there is after the last one. -/
structure Spaced (kinds : List Kind) : Prop where
  between : ∀ before middle after,
    kinds = before ++ .sign :: (middle ++ .sign :: after) → .part ∈ middle
  behind : ∀ before after, kinds = before ++ .sign :: after → .part ∈ after

/-- The chunks of a selector. -/
structure Grammatical (chunks : List Chunk) : Prop where
  comma : .comma ∉ chunks.map Chunk.kind
  element : .part ∈ chunks.map Chunk.kind
  spaced : Spaced (chunks.map Chunk.kind)

namespace Spaced

variable {k : Kind} {kinds : List Kind}

theorem cons_iff (hk : k ≠ .sign) : Spaced (k :: kinds) ↔ Spaced kinds := by
  constructor
  · intro h
    refine ⟨fun before middle after hkinds => ?_, fun before after hkinds => ?_⟩
    · exact h.between (k :: before) middle after (by simp [hkinds])
    · exact h.behind (k :: before) after (by simp [hkinds])
  · intro h
    refine ⟨fun before middle after hkinds => ?_, fun before after hkinds => ?_⟩
    · cases before with
      | nil => exact absurd (List.cons.inj hkinds).1 hk
      | cons _ before => exact h.between before middle after (List.cons.inj hkinds).2
    · cases before with
      | nil => exact absurd (List.cons.inj hkinds).1 hk
      | cons _ before => exact h.behind before after (List.cons.inj hkinds).2

/-- A sign in front asks for an element that no other sign comes before. -/
theorem sign_cons_iff : Spaced (.sign :: kinds) ↔
    .part ∈ kinds ∧ (∀ middle after, kinds = middle ++ .sign :: after → .part ∈ middle) ∧
      Spaced kinds := by
  constructor
  · intro h
    refine ⟨h.behind [] kinds rfl, fun middle after hkinds => ?_, ?_, ?_⟩
    · exact h.between [] middle after (by simp [hkinds])
    · exact fun before middle after hkinds =>
        h.between (.sign :: before) middle after (by simp [hkinds])
    · exact fun before after hkinds => h.behind (.sign :: before) after (by simp [hkinds])
  · rintro ⟨hpart, hfirst, h⟩
    refine ⟨fun before middle after hkinds => ?_, fun before after hkinds => ?_⟩
    · cases before with
      | nil => exact hfirst middle after (List.cons.inj hkinds).2
      | cons _ before => exact h.between before middle after (List.cons.inj hkinds).2
    · cases before with
      | nil => exact (List.cons.inj hkinds).2 ▸ hpart
      | cons _ before => exact h.behind before after (List.cons.inj hkinds).2

theorem not_sign_nil : ¬ Spaced [.sign] := fun h => by simpa using h.behind [] [] rfl

theorem not_sign_sign : ¬ Spaced (.sign :: .sign :: kinds) :=
  fun h => by simpa using h.between [] [] kinds rfl

theorem sign_blank_iff : Spaced (.sign :: .blank :: kinds) ↔ Spaced (.sign :: kinds) := by
  rw [sign_cons_iff, sign_cons_iff, cons_iff (by simp)]
  refine and_congr (by simp) (and_congr_left' ⟨fun h middle after hkinds => ?_, ?_⟩)
  · simpa using h (.blank :: middle) after (by simp [hkinds])
  · intro h middle after hkinds
    cases middle with
    | nil => cases hkinds
    | cons _ middle => exact List.mem_cons_of_mem _ (h middle after (List.cons.inj hkinds).2)

theorem sign_part_iff : Spaced (.sign :: .part :: kinds) ↔ Spaced kinds := by
  rw [sign_cons_iff, cons_iff (by simp)]
  refine ⟨fun h => h.2.2, fun h => ⟨by simp, fun middle after hkinds => ?_, h⟩⟩
  cases middle with
  | nil => cases hkinds
  | cons _ middle =>
    obtain ⟨rfl, -⟩ := List.cons.inj hkinds
    simp

end Spaced

end Stylesheet.Selector
