import Stylesheet.Proofs.Selector.Moves

/-!
# Reading back what was printed

The text of a selector that was read gives the selector back when it is read
again, and so does the text of what is left of it behind any of its elements. Only
the combinator in front of the first element can be lost: a blank there is not
printed. So the text of such a selector tells everything that a lookup compares.

The proof follows the reader through the original text. All along, reading what
is printed for the elements so far leads to a reader that differs from the
original one only in the elements that are left out in front.
-/

namespace Stylesheet

/-- The combinator in front of a text: there a blank is no combinator. -/
def Combinator.leading : Combinator → Combinator
  | .descendant => .compound
  | c => c

namespace Selector

/-- The elements with the combinator in front that is left of it in the text. -/
def leading : List Element → List Element
  | [] => []
  | e :: es => { e with combinator := e.combinator.leading } :: es

theorem leading_concat (es : List Element) (e : Element) :
    leading (es ++ [e]) =
      leading es ++ [if es = [] then { e with combinator := e.combinator.leading } else e] := by
  cases es with
  | nil => rfl
  | cons first rest => simp [leading]

@[simp] theorem leading_eq_nil_iff {es : List Element} : leading es = [] ↔ es = [] := by
  cases es <;> simp [leading]

/-- What is printed before an element that follows the given ones. -/
def gap (compact : Bool) (before : List Element) (c : Combinator) : List Char :=
  if before = [] then Text.dropBlanks (c.css compact).toList else (c.css compact).toList

/-- The printed form of some elements without blanks in front. -/
def spell (compact : Bool) : List Element → List Char
  | [] => []
  | e :: es =>
    gap compact [] e.combinator ++ e.value.toList ++ es.flatMap fun e => (e.css compact).toList

theorem spell_concat (compact : Bool) (es : List Element) (c : Combinator) (value : String) :
    spell compact (es ++ [⟨c, value⟩]) =
      spell compact es ++ gap compact es c ++ value.toList := by
  cases es with
  | nil => simp [spell]
  | cons first rest => simp [spell, gap, Element.css]

namespace Reader

variable {r q : Reader} {c : Char} {m : Move}

/-- The second reader is like the first without its first `k` elements. -/
structure Shadows (k : Nat) (r q : Reader) : Prop where
  elements : q.elements = leading (r.elements.drop k)
  reached : k ≤ r.elements.length
  current : q.current = r.current
  region : q.region = r.region
  colon : q.colon = r.colon
  next : q.nextCombinator =
    if r.elements.drop k = [] then r.nextCombinator.leading else r.nextCombinator

/-- The second reader has read the elements of the first one from the `k`-th on, where the first
one is between two elements. The last of them may still be the one being read. -/
structure Rests (k : Nat) (r q : Reader) : Prop where
  elements : q.flush.elements = leading (r.elements.drop k)
  reached : k ≤ r.elements.length
  combinator : q.flush.combinator = none
  spaced : q.flush.spaced = false
  region : q.region = none
  colon : q.current = [] → q.colon = false
  ends : r.nextCombinator = .compound → r.elements.drop k ≠ [] → q.current = []

variable {k : Nat}

theorem elements_flush_of_ne_nil (h : r.current ≠ []) :
    r.flush.elements = r.elements ++ [⟨r.nextCombinator, String.ofList r.current⟩] := by
  rw [flush_of_ne_nil h]

theorem nextCombinator_flush_of_ne_nil (h : r.current ≠ []) :
    r.flush.nextCombinator = .compound := by
  rw [flush_of_ne_nil h]
  rfl

namespace Shadows

theorem flush (h : Shadows k r q) : Shadows k r.flush q.flush := by
  by_cases hnil : r.current = []
  · rwa [flush_of_nil hnil, flush_of_nil (h.current.trans hnil)]
  · have hq : q.current ≠ [] := by rwa [h.current]
    have hreached := h.reached
    refine ⟨?_, ?_, by simp, by simp [h.region], by simp [h.colon], ?_⟩
    · rw [elements_flush_of_ne_nil hnil, elements_flush_of_ne_nil hq,
        List.drop_append_of_le_length hreached, leading_concat, h.elements, h.next, h.current]
      split <;> rfl
    · rw [elements_flush_of_ne_nil hnil, List.length_append]
      omega
    · rw [nextCombinator_flush_of_ne_nil hnil, nextCombinator_flush_of_ne_nil hq]
      split <;> rfl

theorem push (h : Shadows k r q) (c : Char) : Shadows k (r.push c) (q.push c) :=
  ⟨h.elements, h.reached, congrArg (· ++ [c]) h.current, h.region, h.colon, h.next⟩

theorem withColon (h : Shadows k r q) (colon : Bool) :
    Shadows k { r with colon } { q with colon } :=
  ⟨h.elements, h.reached, h.current, h.region, rfl, h.next⟩

theorem withRegion (h : Shadows k r q) (region : Option (Bracket × Nat)) :
    Shadows k { r with region } { q with region } :=
  ⟨h.elements, h.reached, h.current, rfl, h.colon, h.next⟩

/-- Readers of which one is like the other are so after each move. -/
theorem apply (h : Shadows k r q) (m : Move) (c : Char) :
    Shadows k (m.apply c r) (m.apply c q) := by
  cases m with
  | extend colon region => exact ((h.push c).withColon colon).withRegion region
  | start colon region => exact ((h.flush.push c).withColon colon).withRegion region
  | single => exact (h.flush.push c).flush.withColon false
  | close => exact (h.push c).flush.withRegion none

theorem step (h : Shadows k r q) (hmove : move? r.region r.colon c = some m) :
    q.step c = .ok (m.apply c q) := by
  rw [← h.region, ← h.colon] at hmove
  exact step_of_move hmove

end Shadows

/-- A reader that has just ended an element waits for nothing. -/
theorem waiting_of_current_nil (hmove : (m.apply c r).current = []) :
    (m.apply c r).combinator = none ∧ (m.apply c r).spaced = false ∧
      (m = .single ∨ m = .close) := by
  cases m with
  | extend colon region => simp [Move.apply, push] at hmove
  | start colon region => simp [Move.apply, push] at hmove
  | single =>
    have hne : (r.flush.push c).current ≠ [] := by simp [push]
    simp [Move.apply, flush_of_ne_nil hne]
  | close =>
    have hne : (r.push c).current ≠ [] := by simp [push]
    simp [Move.apply, flush_of_ne_nil hne]

/-- Blanks end the element being read and change nothing else that is told apart. -/
theorem exists_read_blanks {cs : List Char} (hcs : cs = [] ∨ cs = [' ']) (hr : r.region = none) :
    ∃ q, cs.foldlM Reader.step r = .ok q ∧ q.flush.elements = r.flush.elements ∧
      q.flush.combinator = r.flush.combinator ∧ q.region = none ∧
      (r.current = [] ∧ r.colon = false → q.current = [] ∧ q.colon = false) := by
  rcases hcs with rfl | rfl
  · exact ⟨r, rfl, rfl, rfl, hr, id⟩
  · refine ⟨{ r.flush with spaced := true, colon := false }, ?_, ?_, ?_, by simpa using hr, by simp⟩
    · rw [List.foldlM_cons, step_of_blank hr (by decide)]
      rfl
    · rw [flush_of_nil (by simp)]
    · rw [flush_of_nil (by simp)]

theorem gap_of_sign {x : Combinator} (h : IsSign c x) (compact : Bool) (es : List Element) :
    ∃ before after, gap compact es x = before ++ c :: after ∧
      (before = [] ∨ before = [' ']) ∧ (after = [] ∨ after = [' ']) := by
  have hloose : gap false es x = (if es = [] then [] else [' ']) ++ c :: [' '] := by
    unfold gap
    cases h <;> split <;> rfl
  have hcompact : gap true es x = [] ++ c :: [] := by
    unfold gap
    cases h <;> split <;> rfl
  cases compact with
  | false => exact ⟨_, _, hloose, by split <;> simp, .inr rfl⟩
  | true => exact ⟨_, _, hcompact, .inl rfl, .inl rfl⟩

theorem exists_read_sign {x : Combinator} (h : IsSign c x) (compact : Bool) (es : List Element)
    (hr : r.region = none) (hcombinator : r.flush.combinator = none) :
    ∃ q, (gap compact es x).foldlM Reader.step r = .ok q ∧ q.elements = r.flush.elements ∧
      q.combinator = some x ∧ q.current = [] ∧ q.region = none ∧ q.colon = false := by
  obtain ⟨before, after, hgap, hbefore, hafter⟩ := gap_of_sign h compact es
  obtain ⟨q, hq, helements, hnone, hregion, -⟩ := exists_read_blanks hbefore hr
  have hsign : q.step c = .ok { q.flush with combinator := some x, colon := false } := by
    rw [step_of_sign hregion h, hnone, hcombinator]
    rfl
  obtain ⟨q', hq', helements', hsome, hregion', hcurrent⟩ :=
    exists_read_blanks (r := { q.flush with combinator := some x, colon := false }) hafter
      (by simpa using hregion)
  obtain ⟨hnil, hcolon⟩ := hcurrent (by simp)
  rw [flush_of_nil hnil, flush_of_nil (by simp)] at helements' hsome
  refine ⟨q', ?_, helements'.trans helements, hsome, hnil, hregion', hcolon⟩
  rw [hgap, List.foldlM_append, hq]
  change (c :: after).foldlM Reader.step q = _
  rw [List.foldlM_cons, hsign]
  exact hq'

theorem Proper.region_of_nil (h : r.Proper) (hnil : r.current = []) : r.region = none := by
  by_contra hregion
  exact (h.region hregion).1 hnil

namespace Rests

theorem current_of_drop_nil (h : Rests k r q) (hdrop : r.elements.drop k = []) :
    q.current = [] := by
  by_contra hne
  have helements := h.elements
  rw [elements_flush_of_ne_nil hne, hdrop] at helements
  simp [leading] at helements

/-- Where nothing is printed before the next element, nothing is to be read. -/
theorem shadows (h : Rests k r q) (hp : r.Proper) (hnil : r.current = []) (hq : q.current = [])
    (hnext : (if r.elements.drop k = [] then r.nextCombinator.leading else r.nextCombinator) =
      .compound) : Shadows k r q := by
  have helements := h.elements
  have hcombinator := h.combinator
  have hspaced := h.spaced
  rw [flush_of_nil hq] at helements hcombinator hspaced
  refine ⟨helements, h.reached, hq.trans hnil.symm, h.region.trans (hp.region_of_nil hnil).symm,
    (h.colon hq).trans (hp.colon hnil).symm, ?_⟩
  rw [hnext, nextCombinator, hcombinator, hspaced]
  rfl

/-- What is printed between two elements is read as the combinator between them. -/
theorem separate (h : Rests k r q) (hp : r.Proper) (hnil : r.current = []) (compact : Bool) :
    ∃ q', (gap compact (r.elements.drop k) r.nextCombinator).foldlM Reader.step q = .ok q' ∧
      Shadows k r q' := by
  have hr := hp.region_of_nil hnil
  have hcolon := hp.colon hnil
  have hsign : ∀ c x, IsSign c x → r.nextCombinator = x →
      ∃ q', (gap compact (r.elements.drop k) x).foldlM Reader.step q = .ok q' ∧ Shadows k r q' := by
    intro c x hx hnext
    obtain ⟨q', hq', helements, hcombinator, hcurrent, hregion, hcolon'⟩ :=
      exists_read_sign hx compact (r.elements.drop k) h.region h.combinator
    refine ⟨q', hq', helements.trans h.elements, h.reached, hcurrent.trans hnil.symm,
      hregion.trans hr.symm, hcolon'.trans hcolon.symm, ?_⟩
    rw [hnext, nextCombinator, hcombinator]
    cases hx <;> simp [Combinator.leading]
  cases hnext : r.nextCombinator with
  | compound =>
    have hgap : gap compact (r.elements.drop k) .compound = [] := by simp [gap, Combinator.css]
    have hq : q.current = [] := by
      by_cases hdrop : r.elements.drop k = []
      · exact h.current_of_drop_nil hdrop
      · exact h.ends hnext hdrop
    refine ⟨q, by rw [hgap]; rfl, h.shadows hp hnil hq ?_⟩
    rw [hnext]
    split <;> rfl
  | descendant =>
    by_cases hdrop : r.elements.drop k = []
    · have hgap : gap compact (r.elements.drop k) .descendant = [] := by
        rw [hdrop]
        cases compact <;> rfl
      refine ⟨q, by rw [hgap]; rfl, h.shadows hp hnil (h.current_of_drop_nil hdrop) ?_⟩
      rw [hnext, if_pos hdrop]
      rfl
    · have hgap : gap compact (r.elements.drop k) .descendant = [' '] := by
        rw [gap, if_neg hdrop]
        cases compact <;> rfl
      refine ⟨{ q.flush with spaced := true, colon := false }, ?_, ?_⟩
      · rw [hgap, List.foldlM_cons, step_of_blank h.region (by decide)]
        rfl
      · refine ⟨h.elements, h.reached, by simp [hnil], by simp [h.region, hr], hcolon.symm, ?_⟩
        rw [hnext, if_neg hdrop, nextCombinator]
        simp [h.combinator, h.elements, hdrop]
  | child => exact hsign _ _ .child hnext
  | sibling => exact hsign _ _ .sibling hnext
  | generalSibling => exact hsign _ _ .generalSibling hnext

end Rests

/-- Reading what is printed for the elements so far, from the `k`-th on, leads to a reader that is
like this one. -/
def Tracks (compact : Bool) (k : Nat) (r : Reader) : Prop :=
  ∃ q, (spell compact (r.flush.elements.drop k)).foldlM Reader.step {} = .ok q ∧
    if r.current = [] then Rests k r q else Shadows k r q

theorem rests_init (hk : k = r.elements.length) : Rests k r {} := by
  have hdrop : r.elements.drop k = [] := by simp [hk]
  exact ⟨by rw [hdrop]; rfl, Nat.le_of_eq hk, rfl, rfl, rfl, fun _ => rfl,
    fun _ hne => absurd hdrop hne⟩

theorem tracks_of_length_eq {compact : Bool} (hk : k = r.elements.length) (hnil : r.current = []) :
    Tracks compact k r := by
  refine ⟨{}, ?_, ?_⟩
  · rw [flush_of_nil hnil, hk, List.drop_length]
    rfl
  · rw [if_pos hnil]
    exact rests_init hk

/-- The elements after a move, with the one being read. -/
theorem elements_flush_apply (m : Move) (c : Char) (r : Reader) :
    (m.apply c r).flush.elements =
        r.elements ++ [⟨r.nextCombinator, String.ofList (r.current ++ [c])⟩] ∨
      (m.apply c r).flush.elements =
        r.flush.elements ++ [⟨r.flush.nextCombinator, String.ofList [c]⟩] := by
  have hpush : ∀ q : Reader, (q.push c).flush.elements =
      q.elements ++ [⟨q.nextCombinator, String.ofList (q.current ++ [c])⟩] := by
    intro q
    exact elements_flush_of_ne_nil (r := q.push c) (by simp [push])
  have hfields : ∀ (q : Reader) (colon : Bool) (region : Option (Bracket × Nat)),
      { q with colon, region }.flush.elements = q.flush.elements := by
    intro q colon region
    unfold flush
    split <;> rfl
  have hflushed : ∀ q : Reader, q.flush.flush.elements = q.flush.elements := by
    intro q
    rw [flush_of_nil (current_flush q)]
  have hstart := hpush r.flush
  rw [current_flush, List.nil_append] at hstart
  cases m with
  | extend colon region => exact .inl ((hfields (r.push c) colon region).trans (hpush r))
  | start colon region => exact .inr ((hfields (r.flush.push c) colon region).trans hstart)
  | single =>
    exact .inr (((hfields (r.flush.push c).flush false _).trans (hflushed _)).trans hstart)
  | close => exact .inl (((hfields (r.push c).flush _ none).trans (hflushed _)).trans (hpush r))

/-- What is printed after a move. -/
theorem spell_apply (compact : Bool) (m : Move) (c : Char) (hk : k ≤ r.elements.length) :
    spell compact ((m.apply c r).flush.elements.drop k) =
      spell compact (r.flush.elements.drop k) ++
        (if r.current = [] then gap compact (r.elements.drop k) r.nextCombinator else []) ++
          [c] := by
  by_cases hnil : r.current = []
  · rw [if_pos hnil, flush_of_nil hnil]
    have helements := elements_flush_apply m c r
    rw [flush_of_nil hnil, hnil, List.nil_append, or_self] at helements
    rw [helements, List.drop_append_of_le_length hk, spell_concat, String.toList_ofList]
  · rw [if_neg hnil, List.append_nil, elements_flush_of_ne_nil hnil]
    rcases elements_flush_apply m c r with helements | helements
    · rw [helements, List.drop_append_of_le_length hk, List.drop_append_of_le_length hk,
        spell_concat, spell_concat]
      simp
    · have hgap : ∀ es, gap compact es .compound = [] := by simp [gap, Combinator.css]
      rw [helements, elements_flush_of_ne_nil hnil, nextCombinator_flush_of_ne_nil hnil,
        List.drop_append_of_le_length (by simp; omega), spell_concat, hgap]
      simp

theorem Shadows.tracks {compact : Bool} (h : Shadows k (m.apply c r) (m.apply c q))
    (hp : (m.apply c r).Proper)
    (hq : (spell compact ((m.apply c r).flush.elements.drop k)).foldlM Reader.step {} =
      .ok (m.apply c q)) : Tracks compact k (m.apply c r) := by
  refine ⟨_, hq, ?_⟩
  split
  next hnil =>
    have hcurrent := h.current.trans hnil
    obtain ⟨hcombinator, hspaced, -⟩ := waiting_of_current_nil hcurrent
    have hflush := flush_of_nil hcurrent
    exact ⟨by rw [hflush, h.elements], h.reached, by rw [hflush, hcombinator],
      by rw [hflush, hspaced], h.region.trans (hp.region_of_nil hnil),
      fun _ => h.colon.trans (hp.colon hnil), fun _ _ => hcurrent⟩
  next => exact h

/-- A move keeps what is printed in step with what is read. -/
theorem Tracks.apply {compact : Bool} (h : Tracks compact k r) (hk : k ≤ r.elements.length)
    (hp : r.Proper) (hmove : move? r.region r.colon c = some m) :
    Tracks compact k (m.apply c r) := by
  obtain ⟨q, hq, hstate⟩ := h
  have hspell := spell_apply compact m c hk
  obtain ⟨q', hq', hshadows⟩ : ∃ q', (spell compact (r.flush.elements.drop k) ++
      if r.current = [] then gap compact (r.elements.drop k) r.nextCombinator else []).foldlM
        Reader.step {} = .ok q' ∧ Shadows k r q' := by
    split at hstate
    next hnil =>
      obtain ⟨q', hq', hshadows⟩ := hstate.separate hp hnil compact
      refine ⟨q', ?_, hshadows⟩
      rw [if_pos hnil, List.foldlM_append, hq]
      exact hq'
    next hnil =>
      refine ⟨q, ?_, hstate⟩
      rwa [if_neg hnil, List.append_nil]
  apply (hshadows.apply m c).tracks (hp.apply hmove)
  rw [hspell, List.foldlM_append, hq']
  change ([c].foldlM Reader.step q') = _
  rw [List.foldlM_cons, hshadows.step hmove]
  rfl

/-- A blank or a sign is printed later, before the next element. -/
theorem Tracks.wait {compact : Bool} (h : Tracks compact k r) (hk : k ≤ r.elements.length)
    (helements : q.elements = r.flush.elements) (hnil : q.current = []) (hr : r.region = none)
    (hnext : q.nextCombinator = .compound → q.elements ≠ [] →
      r.current = [] ∧ r.nextCombinator = .compound) : Tracks compact k q := by
  obtain ⟨p, hread, hstate⟩ := h
  refine ⟨p, by rwa [flush_of_nil hnil, helements], ?_⟩
  rw [if_pos hnil]
  split at hstate
  next hcurrent =>
    rw [flush_of_nil hcurrent] at helements
    refine ⟨by rw [helements]; exact hstate.elements, by rw [helements]; exact hk,
      hstate.combinator, hstate.spaced, hstate.region, hstate.colon, ?_⟩
    rw [helements]
    intro hcompound hdrop
    refine hstate.ends (hnext hcompound ?_).2 hdrop
    rintro hempty
    simp [← helements, hempty] at hdrop
  next hcurrent =>
    have hp : p.current ≠ [] := by rwa [hstate.current]
    have hflush := hstate.flush
    refine ⟨by rw [helements]; exact hflush.elements, by rw [helements]; exact hflush.reached,
      by rw [flush_of_ne_nil hp], by rw [flush_of_ne_nil hp], hstate.region.trans hr,
      fun hnil' => absurd hnil' hp, ?_⟩
    intro hcompound hdrop
    refine absurd (hnext hcompound ?_).1 hcurrent
    rintro hempty
    simp [hempty] at hdrop

/-- A character that starts an element does so in the same way after the element before it. -/
theorem apply_flush (hm : m = .single ∨ ∃ colon region, m = .start colon region)
    (hmove : move? r.region r.colon c = some m) :
    r.region = none ∧ move? none false c = some m ∧
      m.apply c { r.flush with colon := false } = m.apply c r := by
  have hr : r.region = none := by
    cases hregion : r.region with
    | none => rfl
    | some region =>
      rw [hregion] at hmove
      rcases move?_some_eq_some hmove with rfl | ⟨region, rfl⟩ <;> simp at hm
  refine ⟨hr, ?_, ?_⟩
  · rw [hr, move?] at hmove
    split at hmove
    · cases hmove
      simp at hm
    · exact hmove
  · have hflush :
        ({ r.flush with colon := false } : Reader).flush = { r.flush with colon := false } :=
      flush_of_nil (by simp)
    rcases hm with rfl | ⟨colon, region, rfl⟩
    · simp only [Move.apply, hflush]
      exact congrArg (fun q : Reader => { q with colon := false })
        (flush_with_colon (r.flush.push c) false)
    · simp only [Move.apply, hflush, push]

theorem length_flush (r : Reader) :
    r.flush.elements.length = r.elements.length + if r.current = [] then 0 else 1 := by
  by_cases hnil : r.current = []
  · rw [flush_of_nil hnil, if_pos hnil, Nat.add_zero]
  · rw [elements_flush_of_ne_nil hnil, if_neg hnil, List.length_append, List.length_singleton]

/-- The move that ends the last element to be left out. What it ends is not printed, so what it
starts is all there is to read. -/
theorem tracks_apply_of_lt {compact : Bool} (hp : r.Proper)
    (hmove : move? r.region r.colon c = some m) (hlt : r.elements.length < k)
    (hk : k ≤ (m.apply c r).elements.length) : Tracks compact k (m.apply c r) := by
  have hflush := length_flush r
  have hstart : (m = .single ∨ ∃ colon region, m = .start colon region) →
      k = r.flush.elements.length → Tracks compact k (m.apply c r) := by
    intro hm hlength
    obtain ⟨hr, hmove', happly⟩ := apply_flush hm hmove
    have hproper : Proper { r.flush with colon := false } :=
      ⟨by simp [hr], fun _ => rfl, begins_flush hp.elements hp.current, by simp⟩
    rw [← happly]
    refine Tracks.apply (tracks_of_length_eq hlength (by simp)) (Nat.le_of_eq hlength) hproper ?_
    rw [region_flush, hr]
    exact hmove'
  cases m with
  | extend colon region => exact absurd hk (by simp [Move.apply, push]; omega)
  | start colon region =>
    replace hk : k ≤ r.flush.elements.length := hk
    exact hstart (.inr ⟨_, _, rfl⟩) (by split at hflush <;> omega)
  | single =>
    by_cases hend : k = (Move.single.apply c r).elements.length
    · exact tracks_of_length_eq hend (by simp [Move.apply])
    · have hlength : (Move.single.apply c r).elements.length = r.flush.elements.length + 1 := by
        exact (length_flush (r.flush.push c)).trans (by simp [push])
      exact hstart (.inl rfl) (by split at hflush <;> omega)
  | close =>
    have hlength : (Move.close.apply c r).elements.length = r.elements.length + 1 := by
      exact (length_flush (r.push c)).trans (by simp [push])
    exact tracks_of_length_eq (by omega) (by simp [Move.apply])

/-- The step of the induction over the text. -/
theorem tracks_step {compact : Bool} (h : k ≤ r.elements.length → Tracks compact k r)
    (hp : r.Proper) (hstep : r.step c = .ok q) (hk : k ≤ q.elements.length) :
    Tracks compact k q := by
  cases hmove : move? r.region r.colon c with
  | some m =>
    rw [step_of_move hmove] at hstep
    obtain rfl := Except.ok.inj hstep
    by_cases hk' : k ≤ r.elements.length
    · exact (h hk').apply hk' hp hmove
    · exact tracks_apply_of_lt hp hmove (by omega) hk
  | none =>
    obtain ⟨hr, hq⟩ := eq_of_step_of_not_move hstep hmove
    have helements : q.elements = r.flush.elements := by
      rcases hq with rfl | ⟨x, -, rfl⟩ <;> rfl
    have hnil : q.current = [] := by
      rcases hq with rfl | ⟨x, -, rfl⟩ <;> simp
    have hflush := length_flush r
    by_cases hk' : k ≤ r.elements.length
    · refine (h hk').wait hk' helements hnil hr ?_
      intro hcompound hne
      rcases hq with rfl | ⟨x, hx, rfl⟩
      · have hsome : r.flush.combinator = some .compound := by
          cases hcombinator : r.flush.combinator with
          | none => simp [nextCombinator, hcombinator, hne] at hcompound
          | some x => simpa [nextCombinator, hcombinator] using hcompound
        by_cases hcurrent : r.current = []
        · rw [flush_of_nil hcurrent] at hsome
          exact ⟨hcurrent, by rw [nextCombinator, hsome]; rfl⟩
        · rw [flush_of_ne_nil hcurrent] at hsome
          cases hsome
      · cases hx <;> cases hcompound
    · refine tracks_of_length_eq ?_ hnil
      rw [helements] at hk ⊢
      split at hflush <;> omega

theorem tracks_init {compact : Bool} (hk : k ≤ ({} : Reader).elements.length) :
    Tracks compact k {} :=
  tracks_of_length_eq (Nat.le_zero.1 hk) rfl

/-- At every point of the text, what is printed is in step with what was read. -/
theorem tracks_of_read {cs : List Char} (compact : Bool) (hp : r.Proper)
    (h : k ≤ r.elements.length → Tracks compact k r) (hread : cs.foldlM Reader.step r = .ok q) :
    q.Proper ∧ (k ≤ q.elements.length → Tracks compact k q) := by
  induction cs generalizing r with
  | nil =>
    obtain rfl := Except.ok.inj hread
    exact ⟨hp, h⟩
  | cons c cs ih =>
    rw [List.foldlM_cons] at hread
    obtain ⟨p, hstep, hrest⟩ := bind_eq_ok_iff.1 hread
    exact ih (hp.step hstep) (tracks_step h hp hstep) hrest

theorem finish_eq_ok_iff {es : List Element} :
    r.finish = .ok es ↔
      r.region = none ∧ r.flush.combinator = none ∧ r.flush.elements = es ∧ es ≠ [] := by
  unfold finish
  split
  next hregion => simp [Option.isSome_iff_ne_none.1 hregion]
  next hregion =>
    split
    next hcombinator => simp [Option.isSome_iff_ne_none.1 hcombinator]
    next hcombinator =>
      have hnone : r.region = none ∧ r.flush.combinator = none := by simp_all
      split
      next hempty => grind
      next hempty => grind

/-- A blank is not taken for the combinator in front of the first element. -/
structure Leads (r : Reader) : Prop where
  elements : leading r.elements = r.elements
  combinator : r.combinator ≠ some .descendant

namespace Leads

theorem flush (h : r.Leads) : r.flush.Leads := by
  by_cases hnil : r.current = []
  · rwa [flush_of_nil hnil]
  · rw [flush_of_ne_nil hnil]
    refine ⟨?_, by simp⟩
    dsimp only
    rw [leading_concat, h.elements]
    split
    next hfirst =>
      have hnext : r.nextCombinator.leading = r.nextCombinator := by
        have hcombinator := h.combinator
        rw [nextCombinator, hfirst]
        cases hc : r.combinator with
        | none => simp [Combinator.leading]
        | some x =>
          rw [hc] at hcombinator
          cases x with
          | descendant => exact absurd rfl hcombinator
          | _ => rfl
      rw [hnext]
    next => rfl

theorem apply (h : r.Leads) (m : Move) (c : Char) : (m.apply c r).Leads := by
  have hpush : ∀ {q : Reader}, q.Leads → (q.push c).Leads := fun hq => ⟨hq.elements, hq.combinator⟩
  cases m with
  | extend colon region => exact ⟨h.elements, h.combinator⟩
  | start colon region => exact ⟨h.flush.elements, h.flush.combinator⟩
  | single => exact ⟨(hpush h.flush).flush.elements, (hpush h.flush).flush.combinator⟩
  | close => exact ⟨(hpush h).flush.elements, (hpush h).flush.combinator⟩

theorem step (h : r.Leads) (hstep : r.step c = .ok q) : q.Leads := by
  cases hmove : move? r.region r.colon c with
  | some m =>
    rw [step_of_move hmove] at hstep
    obtain rfl := Except.ok.inj hstep
    exact h.apply m c
  | none =>
    obtain ⟨-, rfl | ⟨x, hx, rfl⟩⟩ := eq_of_step_of_not_move hstep hmove
    · exact ⟨h.flush.elements, h.flush.combinator⟩
    · exact ⟨h.flush.elements, by cases hx <;> simp⟩

theorem read {cs : List Char} (h : r.Leads) (hread : cs.foldlM Reader.step r = .ok q) :
    q.Leads := by
  induction cs generalizing r with
  | nil =>
    obtain rfl := Except.ok.inj hread
    exact h
  | cons c cs ih =>
    obtain ⟨next, hstep, hrest⟩ := bind_eq_ok_iff.1 hread
    exact ih (h.step hstep) hrest

end Leads

end Reader

/-- What is printed for the elements of a text, from any of them on, is read as these elements. -/
theorem readElements_spell {cs : List Char} {es : List Element} (compact : Bool)
    (h : readElements cs = .ok es) {k : Nat} (hk : k < es.length) :
    readElements (spell compact (es.drop k)) = .ok (leading (es.drop k)) := by
  obtain ⟨r, hread, hfinish⟩ := bind_eq_ok_iff.1 h
  obtain ⟨hregion, hcombinator, rfl, -⟩ := Reader.finish_eq_ok_iff.1 hfinish
  obtain ⟨hp, htracks⟩ :=
    Reader.tracks_of_read (k := k) compact Reader.proper_init Reader.tracks_init hread
  have hlength := Reader.length_flush r
  obtain ⟨q, hq, hstate⟩ := htracks (by split at hlength <;> omega)
  refine bind_eq_ok_iff.2 ⟨q, hq, Reader.finish_eq_ok_iff.2 ?_⟩
  have hne : leading (r.flush.elements.drop k) ≠ [] := by simpa using hk
  split at hstate
  next hnil =>
    rw [Reader.flush_of_nil hnil] at hne ⊢
    exact ⟨hstate.region, hstate.combinator, hstate.elements, hne⟩
  next hnil =>
    have hcurrent : q.current ≠ [] := by rwa [hstate.current]
    exact ⟨hstate.region.trans hregion, by rw [Reader.flush_of_ne_nil hcurrent],
      hstate.flush.elements, hne⟩

/-- The elements of a text begin with characters that are not blank. -/
theorem begins_of_readElements {cs : List Char} {es : List Element} (h : readElements cs = .ok es) :
    ∀ e ∈ es, Begins e.value.toList := by
  obtain ⟨r, hread, hfinish⟩ := bind_eq_ok_iff.1 h
  obtain ⟨-, -, rfl, -⟩ := Reader.finish_eq_ok_iff.1 hfinish
  obtain ⟨hp, -⟩ := Reader.tracks_of_read false Reader.proper_init
    (fun hk => Reader.tracks_init (k := 0) hk) hread
  exact Reader.begins_flush hp.elements hp.current

theorem dropBlanks_of_begins {cs : List Char} (h : Begins cs) (rest : List Char) :
    Text.dropBlanks (cs ++ rest) = cs ++ rest := by
  obtain ⟨c, cs, rfl, hc⟩ := h
  exact List.dropWhile_cons_of_neg (by simpa using hc)

/-- What is spelled is the printed form without blanks in front. -/
theorem dropBlanks_css {s : Selector} (h : ∀ e ∈ s.elements, Begins e.value.toList)
    (compact : Bool) :
    Text.dropBlanks (s.css compact).toList = spell compact s.elements := by
  obtain ⟨elements, evaluated⟩ := s
  rw [css, String.toList_join, List.flatMap_map]
  cases elements with
  | nil => rfl
  | cons e es =>
    have hdrop := dropBlanks_of_begins (h e (by simp))
    obtain ⟨combinator, value⟩ := e
    simp only [List.flatMap_cons, Element.css, String.toList_append, List.append_assoc, spell, gap,
      if_true]
    cases combinator with
    | compound => exact hdrop _
    | descendant => cases compact <;> exact hdrop _
    | child => cases compact <;> rfl
    | sibling => cases compact <;> rfl
    | generalSibling => cases compact <;> rfl

/-- The text of a selector is its printed form without blanks in front. -/
theorem toList_text {s : Selector} (h : ∀ e ∈ s.elements, Begins e.value.toList) :
    s.text.toList = spell false s.elements := by
  rw [text, String.toList_ofList, dropBlanks_css h]

/-- The elements of a text are not changed by leaving out a blank in front of them. -/
theorem leading_of_readElements {cs : List Char} {es : List Element}
    (h : readElements cs = .ok es) : leading es = es := by
  obtain ⟨r, hread, hfinish⟩ := bind_eq_ok_iff.1 h
  obtain ⟨-, -, rfl, -⟩ := Reader.finish_eq_ok_iff.1 hfinish
  have hinit : Reader.Leads {} := ⟨rfl, by simp⟩
  exact (hinit.read hread).flush.elements

/-- A selector that was read, or what is left of one behind some of its elements. -/
def IsQuery (s : Selector) : Prop :=
  ∃ text parsed k, read text = .ok parsed ∧ s = parsed.derive (parsed.elements.drop k)

theorem readElements_of_read {text : String} {s : Selector} (h : read text = .ok s) :
    readElements text.toList = .ok s.elements := by
  unfold read at h
  split at h
  next elements helements =>
    obtain rfl := Except.ok.inj h
    exact helements
  next => cases h

namespace IsQuery

variable {p q s : Selector}

theorem of_read {text : String} (h : read text = .ok s) : s.IsQuery := ⟨text, s, 0, h, rfl⟩

theorem drop (h : s.IsQuery) (count : Nat) : (s.derive (s.elements.drop count)).IsQuery := by
  obtain ⟨text, parsed, k, hread, rfl⟩ := h
  exact ⟨text, parsed, k + count, hread, by simp [derive, List.drop_drop]⟩

theorem toList_text (h : s.IsQuery) : s.text.toList = spell false s.elements := by
  obtain ⟨text, parsed, k, hread, rfl⟩ := h
  apply Selector.toList_text
  intro e he
  exact begins_of_readElements (readElements_of_read hread) e (List.mem_of_mem_drop he)

theorem readElements_text (h : s.IsQuery) (hne : s.elements ≠ []) :
    readElements s.text.toList = .ok (leading s.elements) := by
  rw [h.toList_text]
  obtain ⟨text, parsed, k, hread, rfl⟩ := h
  refine readElements_spell false (readElements_of_read hread) ?_
  simpa using hne

theorem elements_ne_nil_of_text_eq (hp : p.IsQuery) (hq : q.IsQuery) (h : p.text = q.text)
    (hne : p.elements ≠ []) : q.elements ≠ [] := by
  intro hempty
  have hread := hp.readElements_text hne
  rw [h, hq.toList_text, hempty] at hread
  cases hread

/-- The text of a query tells everything about it, except a blank in front. -/
theorem leading_eq_of_text_eq (hp : p.IsQuery) (hq : q.IsQuery) (h : p.text = q.text) :
    leading p.elements = leading q.elements := by
  by_cases hne : p.elements = []
  · have hempty : q.elements = [] := by
      by_contra hq'
      exact hq.elements_ne_nil_of_text_eq hp h.symm hq' hne
    rw [hne, hempty]
  · have hread := hp.readElements_text hne
    rw [h, hq.readElements_text (hp.elements_ne_nil_of_text_eq hq h hne)] at hread
    exact (Except.ok.inj hread).symm

end IsQuery

/-- The text of a selector that was read gives it back. -/
theorem read_text {text : String} {s : Selector} (h : read text = .ok s) :
    read s.text = .ok s := by
  have helements := readElements_of_read h
  have hne : s.elements ≠ [] := by
    obtain ⟨r, -, hfinish⟩ := bind_eq_ok_iff.1 helements
    exact (Reader.finish_eq_ok_iff.1 hfinish).2.2.2
  have hback := (IsQuery.of_read h).readElements_text hne
  rw [leading_of_readElements helements] at hback
  obtain ⟨elements, evaluated⟩ := s
  have hevaluated : evaluated = false := by
    rw [read, helements] at h
    cases h
    rfl
  rw [read, hback, hevaluated]

end Selector

end Stylesheet
