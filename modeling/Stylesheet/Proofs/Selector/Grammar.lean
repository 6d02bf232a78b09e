import Stylesheet.Proofs.Selector.Outline
import Stylesheet.Proofs.Selector.Readback

/-!
# What the selector reader accepts

A text is read as a selector if and only if it has an outline, and the outline is that
of a selector. What is read is the text again, but for blanks, and each element is one
piece of it: outside brackets it has no blank, and a parent reference stands alone.

The proof reads a text chunk by chunk. A chunk that belongs to an element goes on with
the element being read or starts one, a sign waits for the next element, and a blank
ends an element at most. A bracket that is never closed keeps the reader inside it.
-/

namespace Stylesheet

/-- A text without its blanks. -/
def Text.dense (cs : List Char) : List Char := cs.filter (!isBlank ·)

theorem Text.dense_append (cs ds : List Char) : dense (cs ++ ds) = dense cs ++ dense ds :=
  List.filter_append ..

namespace Selector

/-- The text of an element: outside brackets it has no blank, and a parent reference stands
alone. -/
structure Whole (cs : List Char) : Prop where
  ne_nil : cs ≠ []
  pieces : ∃ chunks, Outline cs chunks ∧ (∀ c, .plain c ∈ chunks → Text.isBlank c = false) ∧
    (.plain '&' ∈ chunks → cs = ['&'])

/-- The start of an element: outside brackets it has no blank and no parent reference. -/
def Begun (cs : List Char) : Prop :=
  ∃ chunks, Outline cs chunks ∧ ∀ c, .plain c ∈ chunks → Text.isBlank c = false ∧ c ≠ '&'

section Pieces

variable {cs : List Char} {k : Chunk}

theorem begun_nil : Begun [] := ⟨[], outline_nil, by simp⟩

theorem Begun.whole (h : Begun cs) (hne : cs ≠ []) : Whole cs := by
  obtain ⟨chunks, houtline, hplain⟩ := h
  exact ⟨hne, chunks, houtline, fun c hc => (hplain c hc).1, fun hc => absurd rfl (hplain _ hc).2⟩

/-- A chunk of an element is not a blank. -/
theorem Chunk.isBlank_of_part {c : Char} (h : (Chunk.plain c).kind = .part) :
    Text.isBlank c = false := by
  unfold Chunk.kind at h
  grind

theorem Begun.append (h : Begun cs) (hvalid : k.Valid) (hkind : k.kind = .part)
    (hk : k ≠ .plain '&') : Begun (cs ++ k.chars) := by
  obtain ⟨chunks, houtline, hplain⟩ := h
  refine ⟨_, houtline.append (outline_singleton hvalid), fun c hc => ?_⟩
  rcases List.mem_append.1 hc with hc | hc
  · exact hplain c hc
  · obtain rfl := List.mem_singleton.1 hc
    exact ⟨Chunk.isBlank_of_part hkind, fun hc => hk (by rw [hc])⟩

theorem whole_of_part (hvalid : k.Valid) (hkind : k.kind = .part) : Whole k.chars := by
  refine ⟨k.chars_ne_nil, [k], outline_singleton hvalid, fun c hc => ?_, fun hc => ?_⟩
  · obtain rfl := List.mem_singleton.1 hc
    exact Chunk.isBlank_of_part hkind
  · rw [← List.mem_singleton.1 hc, Chunk.chars]

end Pieces

namespace Reader

variable {r q : Reader} {k : Chunk} {b : Bracket} {cs inside : List Char} {c : Char}

/-- Add several characters to the element being read. -/
def pushAll (r : Reader) (cs : List Char) : Reader := { r with current := r.current ++ cs }

theorem step_of_region {more : Nat} (hr : r.region = some (b, more)) (c : Char) :
    r.step c = .ok (r.inside b more c) := by
  unfold step
  split
  next b' more' hsome =>
    obtain ⟨rfl, rfl⟩ : b' = b ∧ more' = more := by simpa [hsome] using hr
    rfl
  next hnone =>
    rw [hnone] at hr
    cases hr

/-- As long as a pair of brackets is not closed, everything belongs to the element being read. -/
theorem read_inside (more left : Nat) (hr : r.region = some (b, more))
    (hordered : ∀ p, p <+: cs → p.count b.closing ≤ more + p.count b.opening)
    (hleft : more + cs.count b.opening = left + cs.count b.closing) :
    cs.foldlM Reader.step r = .ok { r.pushAll cs with region := some (b, left) } := by
  have hne := b.opening_ne_closing
  induction cs generalizing r more with
  | nil =>
    obtain rfl : more = left := by simpa using hleft
    obtain ⟨elements, current, combinator, spaced, colon, region⟩ := r
    obtain rfl : region = some (b, more) := hr
    simp [pushAll]
    rfl
  | cons c cs ih =>
    rw [List.foldlM_cons, step_of_region hr]
    change cs.foldlM Reader.step (r.inside b more c) = _
    have hfirst := hordered [c] ⟨cs, rfl⟩
    have hrest : ∀ p, p <+: cs → (c :: p).count b.closing ≤ more + (c :: p).count b.opening :=
      fun p hp => hordered (c :: p) (List.cons_prefix_cons.2 ⟨rfl, hp⟩)
    by_cases hopening : c = b.opening
    · subst hopening
      have hstep : r.inside b more b.opening =
          { r.push b.opening with region := some (b, more + 1) } := by simp [inside]
      simp only [List.count_cons_self, List.count_cons_of_ne hne] at hrest hleft
      rw [hstep, ih _ rfl (fun p hp => by have := hrest p hp; omega) (by omega)]
      simp [pushAll, push]
    · by_cases hclosing : c = b.closing
      · subst hclosing
        simp only [List.count_cons_self, List.count_cons_of_ne hne.symm, List.count_nil]
          at hrest hleft hfirst
        obtain ⟨more, rfl⟩ : ∃ k, more = k + 1 := ⟨more - 1, by omega⟩
        have hstep : r.inside b (more + 1) b.closing =
            { r.push b.closing with region := some (b, more) } := by simp [inside, hne.symm]
        rw [hstep, ih _ rfl (fun p hp => by have := hrest p hp; omega) (by omega)]
        simp [pushAll, push]
      · have hstep : r.inside b more c = r.push c := by simp [inside, hopening, hclosing]
        simp only [List.count_cons_of_ne hopening, List.count_cons_of_ne hclosing] at hrest hleft
        rw [hstep, ih (r := r.push c) more hr hrest hleft]
        simp [pushAll, push]

/-- The reader after a chunk that belongs to an element. -/
inductive Absorbs (k : Chunk) (r : Reader) : Reader → Prop
  /-- It goes on with the element being read, or is the start of one. -/
  | extend (colon : Bool) (hk : k ≠ .plain '&') : Absorbs k r { r.pushAll k.chars with colon }
  /-- It is the start of an element. -/
  | start (colon : Bool) (hk : k ≠ .plain '&') : Absorbs k r { r.flush.pushAll k.chars with colon }
  /-- It is an element. -/
  | single : Absorbs k r { (r.flush.pushAll k.chars).flush with colon := false }

/-- A pair of brackets belongs to one element, and a square one is an element. -/
theorem absorbs_region (hr : r.region = none) (hinside : b.Balanced inside) :
    ∃ q, (Chunk.region b inside).chars.foldlM Reader.step r = .ok q ∧
      Absorbs (.region b inside) r q := by
  obtain ⟨elements, current, combinator, spaced, colon, region⟩ := r
  obtain rfl : region = none := hr
  have hread : ∀ base : Reader, (inside ++ [b.closing]).foldlM Reader.step
        { base.push b.opening with colon := false, region := some (b, 0) } =
      .ok (Reader.inside { base.pushAll (b.opening :: inside) with
        colon := false, region := some (b, 0) } b 0 b.closing) := by
    intro base
    rw [List.foldlM_append, read_inside 0 0 rfl (by simpa using hinside.ordered)
      (by simpa using hinside.closed.symm), ok_bind, List.foldlM_cons, step_of_region rfl]
    simp [pushAll, push]
  cases b with
  | round =>
    refine ⟨_, ?_, .extend false (by simp)⟩
    have hmove : move? none colon '(' = some (.extend false (some (.round, 0))) := by
      cases colon <;> rfl
    rw [Chunk.chars, List.foldlM_cons, step_of_move hmove]
    refine (hread ⟨elements, current, combinator, spaced, colon, none⟩).trans ?_
    simp [Reader.inside, push, pushAll, Bracket.opening, Bracket.closing]
  | square =>
    refine ⟨_, ?_, .single⟩
    have hmove : move? none colon '[' = some (.start false (some (.square, 0))) := by
      cases colon <;> rfl
    rw [Chunk.chars, List.foldlM_cons, step_of_move hmove]
    refine (hread (flush ⟨elements, current, combinator, spaced, colon, none⟩)).trans ?_
    simp [Reader.inside, push, pushAll, Bracket.opening, Bracket.closing, flush_of_ne_nil,
      nextCombinator]

/-- The move of a character outside brackets that belongs to an element. -/
theorem exists_move_of_part (hvalid : (Chunk.plain c).Valid)
    (hkind : (Chunk.plain c).kind = .part) (colon : Bool) :
    ∃ m, move? none colon c = some m ∧
      (m = .single ∨ c ≠ '&' ∧ ∃ colon, m = .extend colon none ∨ m = .start colon none) := by
  have hsquare : c ≠ '[' := hvalid .square
  have hround : c ≠ '(' := hvalid .round
  unfold move?
  dsimp only
  split
  next hcolon =>
    obtain rfl : c = ':' := by simp_all
    exact ⟨_, rfl, .inr ⟨by decide, _, .inl rfl⟩⟩
  next =>
    have hkind' : ¬ Text.isBlank c = true ∧ c ≠ '>' ∧ c ≠ '+' ∧ c ≠ '~' ∧ c ≠ ',' := by
      unfold Chunk.kind at hkind
      grind
    unfold bareMove?
    rw [if_neg hkind'.1]
    split <;> simp_all

/-- A chunk that belongs to an element is read, whatever was read before. -/
theorem absorbs_part (hr : r.region = none) (hvalid : k.Valid) (hkind : k.kind = .part) :
    ∃ q, k.chars.foldlM Reader.step r = .ok q ∧ Absorbs k r q := by
  cases k with
  | region b inside => exact absorbs_region hr hvalid
  | plain c =>
    obtain ⟨m, hmove, hm⟩ := exists_move_of_part hvalid hkind r.colon
    rw [← hr] at hmove
    have hregion : r.flush.region = none := (region_flush r).trans hr
    refine ⟨m.apply c r, by rw [Chunk.chars, List.foldlM_cons, step_of_move hmove]; rfl, ?_⟩
    obtain rfl | ⟨hc, colon, rfl | rfl⟩ := hm
    · exact .single
    · rw [Move.apply, ← hr]
      exact .extend colon (by simpa using hc)
    · rw [Move.apply, ← hregion]
      exact .start colon (by simpa using hc)

theorem Absorbs.region_eq (h : Absorbs k r q) : q.region = r.region := by
  cases h with
  | extend colon hk => rfl
  | start colon hk => exact region_flush r
  | single => exact (region_flush _).trans (region_flush r)

/-- After a chunk of an element no sign is left without an element. -/
theorem Absorbs.flush_eq (h : Absorbs k r q) :
    q.flush.combinator = none ∧ q.flush.elements ≠ [] := by
  have hflush : ∀ (p : Reader) (colon : Bool), p.current ≠ [] →
      ({ p with colon } : Reader).flush.combinator = none ∧
        ({ p with colon } : Reader).flush.elements ≠ [] := by
    intro p colon hp
    rw [flush_with_colon, flush_of_ne_nil hp]
    simp
  have hpush : ∀ p : Reader, (p.pushAll k.chars).current ≠ [] := by
    simp [pushAll, k.chars_ne_nil]
  cases h with
  | extend colon hk => exact hflush _ colon (hpush r)
  | start colon hk => exact hflush _ colon (hpush r.flush)
  | single =>
    rw [flush_with_colon, flush_of_nil (current_flush _), flush_of_ne_nil (hpush r.flush)]
    simp

theorem read_blank (hr : r.region = none) (hkind : k.kind = .blank) :
    k.chars.foldlM Reader.step r = .ok { r.flush with spaced := true, colon := false } := by
  cases k with
  | region b inside => cases hkind
  | plain c =>
    have hblank : Text.isBlank c = true := by
      unfold Chunk.kind at hkind
      grind
    rw [Chunk.chars, List.foldlM_cons, step_of_blank hr hblank]
    rfl

theorem exists_sign_of_kind (hkind : k.kind = .sign) :
    ∃ c x, k = .plain c ∧ IsSign c x := by
  cases k with
  | region b inside => cases hkind
  | plain c =>
    have hc : c = '>' ∨ c = '+' ∨ c = '~' := by
      unfold Chunk.kind at hkind
      grind
    rcases hc with rfl | rfl | rfl
    · exact ⟨_, _, rfl, .child⟩
    · exact ⟨_, _, rfl, .sibling⟩
    · exact ⟨_, _, rfl, .generalSibling⟩

theorem read_comma (hr : r.region = none) (hkind : k.kind = .comma) :
    k.chars.foldlM Reader.step r = .error .comma := by
  cases k with
  | region b inside => cases hkind
  | plain c =>
    obtain rfl : c = ',' := by
      unfold Chunk.kind at hkind
      grind
    have hcolon : ¬ (r.colon && ',' == ':') = true := by simp
    rw [Chunk.chars, List.foldlM_cons, step_of_region_none hr hcolon]
    rfl

theorem read_sign (hr : r.region = none) (hkind : k.kind = .sign) :
    ∃ c x, k = .plain c ∧ IsSign c x ∧ k.chars.foldlM Reader.step r =
      if r.flush.combinator.isSome then .error .consecutiveCombinators
      else .ok { r.flush with combinator := some x, colon := false } := by
  obtain ⟨c, x, rfl, hc⟩ := exists_sign_of_kind hkind
  refine ⟨c, x, rfl, hc, ?_⟩
  rw [Chunk.chars, List.foldlM_cons, step_of_sign hr hc]
  split <;> rfl

/-- The sign that waits for an element, if there is one. -/
def waiting (r : Reader) : List Kind := if r.flush.combinator.isSome then [.sign] else []

theorem waiting_of_none (h : r.flush.combinator = none) : r.waiting = [] := by
  simp [waiting, h]

theorem waiting_of_isSome (h : r.flush.combinator.isSome) : r.waiting = [.sign] := by
  simp [waiting, h]

theorem spaced_waiting_blank_iff {kinds : List Kind} :
    Spaced (r.waiting ++ .blank :: kinds) ↔ Spaced (r.waiting ++ kinds) := by
  unfold waiting
  split
  · exact Spaced.sign_blank_iff
  · exact Spaced.cons_iff (by simp)

theorem spaced_waiting_part_iff {kinds : List Kind} :
    Spaced (r.waiting ++ .part :: kinds) ↔ Spaced kinds := by
  unfold waiting
  split
  · exact Spaced.sign_part_iff
  · exact Spaced.cons_iff (by simp)

/-- The reader goes through the rest of a text if and only if no comma comes, some element was or
will be read, and the sign that waits, with those that come, is followed by an element. -/
theorem exists_finish_iff {chunks : List Chunk} (hr : r.region = none)
    (hvalid : ∀ k ∈ chunks, k.Valid) :
    (∃ es, ((chunks.flatMap Chunk.chars).foldlM Reader.step r >>= finish) = .ok es) ↔
      .comma ∉ chunks.map Chunk.kind ∧
      (r.flush.elements ≠ [] ∨ .part ∈ chunks.map Chunk.kind) ∧
      Spaced (r.waiting ++ chunks.map Chunk.kind) := by
  induction chunks generalizing r with
  | nil =>
    have hfinish : (∃ es, r.finish = .ok es) ↔
        r.flush.combinator = none ∧ r.flush.elements ≠ [] := by
      simp [finish_eq_ok_iff, hr]
    refine hfinish.trans ?_
    cases hx : r.flush.combinator with
    | none => simpa [waiting_of_none hx] using fun _ => ⟨by simp, by simp⟩
    | some x => simp [waiting_of_isSome (r := r) (by rw [hx]; rfl), Spaced.not_sign_nil]
  | cons k chunks ih =>
    have hk : k.Valid := hvalid k List.mem_cons_self
    have hrest : ∀ j ∈ chunks, j.Valid := fun j hj => hvalid j (List.mem_cons_of_mem _ hj)
    rw [List.flatMap_cons, List.foldlM_append, List.map_cons]
    cases hkind : k.kind with
    | blank =>
      rw [read_blank hr hkind, ok_bind, ih (by simpa using hr) hrest]
      have hsame : waiting { r.flush with spaced := true, colon := false } = r.waiting := by
        simp [waiting, flush_of_nil]
      rw [hsame, spaced_waiting_blank_iff]
      simp [flush_of_nil]
    | sign =>
      obtain ⟨c, x, -, -, hread⟩ := read_sign hr hkind
      rw [hread]
      split
      next hsome =>
        rw [waiting_of_isSome hsome]
        exact iff_of_false (fun ⟨_, h⟩ => by cases h) fun h => Spaced.not_sign_sign h.2.2
      next hnone =>
        rw [ok_bind, ih (by simpa using hr) hrest, waiting_of_none (r := r) (by simpa using hnone),
          waiting_of_isSome (by simp [flush_of_nil])]
        simp [flush_of_nil]
    | comma =>
      rw [read_comma hr hkind]
      exact iff_of_false (fun ⟨_, h⟩ => by cases h) fun h => h.1 List.mem_cons_self
    | part =>
      obtain ⟨q, hread, habsorbs⟩ := absorbs_part hr hk hkind
      obtain ⟨hnone, hne⟩ := habsorbs.flush_eq
      rw [hread, ok_bind, ih (habsorbs.region_eq.trans hr) hrest, waiting_of_none hnone,
        spaced_waiting_part_iff]
      simp [hne]

/-- What was read, as it is printed: the elements, the sign that waits and the start of the next
element. -/
def written (r : Reader) : List Char :=
  r.elements.flatMap (fun e => (e.css true).toList) ++
    (r.combinator.elim [] fun x => (x.css true).toList) ++ r.current

/-- What holds of a reader after a text, between two chunks. -/
structure Keeps (text : List Char) (r : Reader) : Prop where
  written : Text.dense r.written = Text.dense text
  elements : ∀ e ∈ r.elements, Whole e.value.toList
  current : Begun r.current

/-- Nothing but a blank is written for the combinator of an element without a sign. -/
theorem dense_nextCombinator (r : Reader) :
    Text.dense (r.nextCombinator.css true).toList =
      Text.dense (r.combinator.elim [] fun x => (x.css true).toList) := by
  unfold nextCombinator
  cases r.combinator with
  | some x => rfl
  | none =>
    rw [Option.getD_none]
    split <;> decide

/-- To end an element that is whole changes nothing of what was read. -/
theorem keeps_flush {text : List Char} (hwritten : Text.dense r.written = Text.dense text)
    (helements : ∀ e ∈ r.elements, Whole e.value.toList)
    (hcurrent : r.current ≠ [] → Whole r.current) : Keeps text r.flush := by
  by_cases hnil : r.current = []
  · rw [flush_of_nil hnil]
    exact ⟨hwritten, helements, hnil ▸ begun_nil⟩
  · rw [flush_of_ne_nil hnil]
    refine ⟨?_, fun e he => ?_, begun_nil⟩
    · rw [← hwritten]
      simp [Reader.written, Element.css, Text.dense_append, dense_nextCombinator]
    · rcases List.mem_append.1 he with he | he
      · exact helements e he
      · obtain rfl := List.mem_singleton.1 he
        simpa using hcurrent hnil

namespace Keeps

variable {text : List Char}

theorem flush (h : Keeps text r) : Keeps text r.flush :=
  keeps_flush h.written h.elements h.current.whole

theorem written_pushAll (h : Keeps text r) (cs : List Char) :
    Text.dense (r.pushAll cs).written = Text.dense (text ++ cs) := by
  rw [Text.dense_append, ← h.written, ← Text.dense_append]
  simp [Reader.written, pushAll]

theorem absorbs (h : Keeps text r) (hvalid : k.Valid) (hkind : k.kind = .part)
    (habsorbs : Absorbs k r q) : Keeps (text ++ k.chars) q := by
  cases habsorbs with
  | extend colon hk =>
    exact ⟨h.written_pushAll k.chars, h.elements, h.current.append hvalid hkind hk⟩
  | start colon hk =>
    exact ⟨h.flush.written_pushAll k.chars, h.flush.elements,
      h.flush.current.append hvalid hkind hk⟩
  | single =>
    have hflush : Keeps (text ++ k.chars) (r.flush.pushAll k.chars).flush :=
      keeps_flush (h.flush.written_pushAll k.chars) h.flush.elements fun _ => by
        simpa [pushAll] using whole_of_part hvalid hkind
    exact ⟨hflush.written, hflush.elements, hflush.current⟩

/-- No chunk loses what was read. -/
theorem chunk (h : Keeps text r) (hr : r.region = none) (hvalid : k.Valid)
    (hread : k.chars.foldlM Reader.step r = .ok q) :
    Keeps (text ++ k.chars) q ∧ q.region = none := by
  have hflush := h.flush
  cases hkind : k.kind with
  | blank =>
    rw [read_blank hr hkind] at hread
    obtain rfl := Except.ok.inj hread
    have hdense : Text.dense k.chars = [] := by
      cases k with
      | region b inside => cases hkind
      | plain c =>
        unfold Chunk.kind at hkind
        simp only [Chunk.chars, Text.dense]
        grind
    refine ⟨⟨?_, hflush.elements, hflush.current⟩, by simpa using hr⟩
    rw [Text.dense_append, hdense, List.append_nil]
    exact hflush.written
  | sign =>
    obtain ⟨c, x, rfl, hc, hsign⟩ := read_sign hr hkind
    rw [hsign] at hread
    split at hread
    · cases hread
    next hnone =>
      obtain rfl := Except.ok.inj hread
      have hchars : (x.css true).toList = [c] := by cases hc <;> rfl
      refine ⟨⟨?_, hflush.elements, hflush.current⟩, by simpa using hr⟩
      rw [Text.dense_append, ← hflush.written, ← Text.dense_append]
      simp_all [Reader.written, Chunk.chars]
  | comma =>
    rw [read_comma hr hkind] at hread
    cases hread
  | part =>
    obtain ⟨q', hread', habsorbs⟩ := absorbs_part hr hvalid hkind
    obtain rfl : q' = q := Except.ok.inj (hread'.symm.trans hread)
    exact ⟨h.absorbs hvalid hkind habsorbs, habsorbs.region_eq.trans hr⟩

theorem read {chunks : List Chunk} (h : Keeps text r) (hr : r.region = none)
    (hvalid : ∀ k ∈ chunks, k.Valid)
    (hread : (chunks.flatMap Chunk.chars).foldlM Reader.step r = .ok q) :
    Keeps (text ++ chunks.flatMap Chunk.chars) q ∧ q.region = none := by
  induction chunks generalizing r text with
  | nil =>
    obtain rfl := Except.ok.inj hread
    simpa using ⟨h, hr⟩
  | cons k chunks ih =>
    rw [List.flatMap_cons, List.foldlM_append] at hread
    obtain ⟨p, hp, hread⟩ := bind_eq_ok_iff.1 hread
    obtain ⟨hkeeps, hregion⟩ := h.chunk hr (hvalid k List.mem_cons_self) hp
    have hrest := ih hkeeps hregion (fun j hj => hvalid j (List.mem_cons_of_mem _ hj)) hread
    rwa [List.append_assoc] at hrest

end Keeps

theorem keeps_init : Keeps [] {} := ⟨rfl, by simp, begun_nil⟩

/-- Outside brackets, one that opens is read, and the reader is inside it. -/
theorem exists_step_opening (hr : r.region = none) (b : Bracket) :
    ∃ q, r.step b.opening = .ok q ∧ q.region = some (b, 0) := by
  have hmove : ∃ m, move? r.region r.colon b.opening = some m ∧
      (m.apply b.opening r).region = some (b, 0) := by
    rw [hr]
    cases b with
    | square =>
      refine ⟨.start false (some (.square, 0)), ?_, rfl⟩
      cases r.colon <;> rfl
    | round =>
      refine ⟨.extend false (some (.round, 0)), ?_, rfl⟩
      cases r.colon <;> rfl
  obtain ⟨m, hmove, hregion⟩ := hmove
  exact ⟨_, step_of_move hmove, hregion⟩

end Reader

section Read

variable {cs : List Char} {chunks : List Chunk} {es : List Element}

/-- A text with a bracket that is never closed is not read. -/
theorem readElements_ne_ok_of_unclosed {before inside : List Char} {b : Bracket}
    (houtline : Outline before chunks)
    (hordered : ∀ p, p <+: inside → p.count b.closing ≤ p.count b.opening) :
    readElements (before ++ b.opening :: inside) ≠ .ok es := by
  intro h
  obtain ⟨r, hread, hfinish⟩ := bind_eq_ok_iff.1 h
  rw [List.foldlM_append] at hread
  obtain ⟨p, hp, hread⟩ := bind_eq_ok_iff.1 hread
  rw [houtline.chars] at hp
  obtain ⟨-, hregion⟩ := Reader.keeps_init.read rfl houtline.valid hp
  obtain ⟨q, hq, hopen⟩ := Reader.exists_step_opening hregion b
  have hcount := hordered inside List.prefix_rfl
  rw [List.foldlM_cons, hq, ok_bind, Reader.read_inside 0
    (inside.count b.opening - inside.count b.closing) hopen (by simpa using hordered)
    (by omega)] at hread
  obtain rfl := Except.ok.inj hread
  cases (Reader.finish_eq_ok_iff.1 hfinish).1

theorem exists_outline_of_readElements (h : readElements cs = .ok es) :
    ∃ chunks, Outline cs chunks := by
  obtain houtline | ⟨before, inside, chunks, b, houtline, rfl, hordered⟩ :=
    exists_outline_or_unclosed cs
  · exact houtline
  · exact absurd h (readElements_ne_ok_of_unclosed houtline hordered)

theorem exists_readElements_iff (h : Outline cs chunks) :
    (∃ es, readElements cs = .ok es) ↔ Grammatical chunks := by
  rw [h.chars]
  refine (Reader.exists_finish_iff (r := {}) rfl h.valid).trans ⟨fun hread => ?_, fun hread => ?_⟩
  · obtain ⟨hcomma, helement, hspaced⟩ := hread
    exact ⟨hcomma, helement.resolve_left (by simp [Reader.flush_of_nil]), hspaced⟩
  · exact ⟨hread.comma, .inr hread.element, hread.spaced⟩

theorem keeps_of_readElements (h : readElements cs = .ok es) :
    Text.dense (es.flatMap fun e => (e.css true).toList) = Text.dense cs ∧
      ∀ e ∈ es, Whole e.value.toList := by
  obtain ⟨chunks, houtline⟩ := exists_outline_of_readElements h
  obtain ⟨r, hread, hfinish⟩ := bind_eq_ok_iff.1 h
  rw [houtline.chars] at hread
  obtain ⟨hkeeps, -⟩ := Reader.keeps_init.read rfl houtline.valid hread
  obtain ⟨-, hnone, rfl, -⟩ := Reader.finish_eq_ok_iff.1 hfinish
  have hwritten := hkeeps.flush.written
  rw [List.nil_append, ← houtline.chars] at hwritten
  exact ⟨by simpa [Reader.written, hnone] using hwritten, hkeeps.flush.elements⟩

theorem toList_css (compact : Bool) (s : Selector) :
    (s.css compact).toList = s.elements.flatMap fun e => (e.css compact).toList := by
  rw [css, String.toList_join, List.flatMap_map]

theorem exists_read_iff (text : String) :
    (∃ s, read text = .ok s) ↔ ∃ es, readElements text.toList = .ok es := by
  refine ⟨fun ⟨s, h⟩ => ⟨_, readElements_of_read h⟩, fun ⟨es, h⟩ => ⟨⟨es, false⟩, ?_⟩⟩
  rw [read, h]

/-- The reader accepts exactly the texts with the outline of a selector, and there is only one
outline. What it reads is the text but for blanks, in whole elements, of which the first does not
descend from anything. -/
theorem read_accepts_exactly (text : String) :
    (∀ chunks chunks', Outline text.toList chunks → Outline text.toList chunks' →
      chunks = chunks') ∧
    ((∃ s, read text = .ok s) ↔ ∃ chunks, Outline text.toList chunks ∧ Grammatical chunks) ∧
    ∀ s, read text = .ok s →
      Text.dense (s.css true).toList = Text.dense text.toList ∧
      (∀ e ∈ s.elements, Whole e.value.toList) ∧
      ∀ e ∈ s.elements.head?, e.combinator ≠ .descendant := by
  refine ⟨fun _ _ h h' => h.unique h', ?_, fun s hs => ?_⟩
  · rw [exists_read_iff]
    constructor
    · rintro ⟨es, h⟩
      obtain ⟨chunks, houtline⟩ := exists_outline_of_readElements h
      exact ⟨chunks, houtline, (exists_readElements_iff houtline).1 ⟨es, h⟩⟩
    · rintro ⟨chunks, houtline, hgrammatical⟩
      exact (exists_readElements_iff houtline).2 hgrammatical
  · have hread := readElements_of_read hs
    obtain ⟨hdense, hwhole⟩ := keeps_of_readElements hread
    refine ⟨by rw [toList_css, hdense], hwhole, fun e he => ?_⟩
    have hleading := leading_of_readElements hread
    obtain ⟨es, hes⟩ : ∃ es, s.elements = e :: es := List.head?_eq_some_iff.1 he
    rw [hes] at hleading
    have hcombinator := congrArg Element.combinator (List.cons.inj hleading).1
    intro hdescendant
    rw [hdescendant] at hcombinator
    cases hcombinator

theorem read_accepts_exactly_brackets :
    ∃ s, read "ul > a[x=(]:not(& .b, c)" = .ok s ∧ s.elements.length = 4 ∧
      Text.dense (s.css true).toList = "ul>a[x=(]:not(&.b,c)".toList ∧
      ∃ chunks, Outline "ul > a[x=(]:not(& .b, c)".toList chunks ∧ Grammatical chunks := by
  obtain ⟨-, haccepts, hkeeps⟩ := read_accepts_exactly "ul > a[x=(]:not(& .b, c)"
  exact ⟨_, rfl, rfl, (hkeeps _ rfl).1, haccepts.1 ⟨_, rfl⟩⟩

end Read

end Selector

end Stylesheet
