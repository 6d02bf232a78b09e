import Stylesheet.Proofs.Except
import Stylesheet.Selector.Reader

/-!
# The moves of the selector reader

A character of a selector either belongs to an element, or is a blank or a sign
between two elements. What a character does that belongs to an element is a move. It
depends only on the open brackets and on a colon that was just read, so that two
readers that agree on these make the same moves.

Between two characters some facts always hold: every element begins with a character
that is not blank, and inside brackets an element is being read.
-/

namespace Stylesheet.Selector

/-- The text begins with a character that is not blank. -/
def Begins (cs : List Char) : Prop := ∃ c rest, cs = c :: rest ∧ Text.isBlank c = false

namespace Reader

/-- What a character does that belongs to an element. -/
inductive Move where
  /-- It goes on with the element being read, or is the first of one. -/
  | extend (colon : Bool) (region : Option (Bracket × Nat))
  /-- It is the first of an element, and ends the one being read. -/
  | start (colon : Bool) (region : Option (Bracket × Nat))
  /-- It is an element. -/
  | single
  /-- It is the last of an element. -/
  | close

/-- The move that a character makes outside brackets. Blanks and signs make none. -/
def bareMove? (c : Char) : Option Move :=
  if Text.isBlank c then none
  else
    match c with
    | '>' | '+' | '~' | ',' => none
    | '&' => some .single
    | '.' | '#' => some (.start false none)
    | ':' => some (.start true none)
    | '[' => some (.start false (some (.square, 0)))
    | '(' => some (.extend false (some (.round, 0)))
    | _ => some (.extend false none)

/-- The move that a character makes after the given open brackets, and after the first colon of an
element or not. -/
def move? : Option (Bracket × Nat) → Bool → Char → Option Move
  | some (b, more), colon, c =>
    if c = b.opening then some (.extend colon (some (b, more + 1)))
    else if c = b.closing then
      match more, b with
      | more + 1, _ => some (.extend colon (some (b, more)))
      | 0, .square => some .close
      | 0, .round => some (.extend colon none)
    else some (.extend colon (some (b, more)))
  | none, colon, c =>
    if colon && c == ':' then some (.extend false none) else bareMove? c

/-- The reader after a move. -/
def Move.apply (c : Char) (r : Reader) : Move → Reader
  | .extend colon region => { r.push c with colon, region }
  | .start colon region => { r.flush.push c with colon, region }
  | .single => { (r.flush.push c).flush with colon := false }
  | .close => { (r.push c).flush with region := none }

variable {r q : Reader} {c : Char} {m : Move}

theorem flush_of_nil (h : r.current = []) : r.flush = r := by
  simp [flush, h]

theorem flush_of_ne_nil (h : r.current ≠ []) :
    r.flush =
      { r with
        elements := r.elements ++ [⟨r.nextCombinator, String.ofList r.current⟩]
        current := []
        combinator := none
        spaced := false } := by
  simp [flush, h]

@[simp] theorem current_flush (r : Reader) : r.flush.current = [] := by
  unfold flush
  split <;> simp_all

@[simp] theorem region_flush (r : Reader) : r.flush.region = r.region := by
  unfold flush
  split <;> rfl

@[simp] theorem colon_flush (r : Reader) : r.flush.colon = r.colon := by
  unfold flush
  split <;> rfl

theorem flush_with_colon (r : Reader) (colon : Bool) :
    { r with colon }.flush = { r.flush with colon } := by
  unfold flush
  split <;> rfl

theorem flush_with_region (r : Reader) (region : Option (Bracket × Nat)) :
    { r with region }.flush = { r.flush with region } := by
  unfold flush
  split <;> rfl

/-- A character inside brackets always makes a move. -/
theorem inside_of_move {b : Bracket} {more : Nat} (h : move? (some (b, more)) r.colon c = some m)
    (hr : r.region = some (b, more)) : r.inside b more c = m.apply c r := by
  obtain ⟨elements, current, combinator, spaced, colon, region⟩ := r
  obtain rfl : region = some (b, more) := hr
  simp only [move?] at h
  unfold inside
  split at h
  next hopening =>
    obtain rfl := Option.some.inj h
    simp only [hopening, if_true]
    rfl
  next hopening =>
    split at h
    next hclosing =>
      simp only [hclosing, if_true]
      cases more with
      | succ more =>
        obtain rfl := Option.some.inj h
        simp only [hclosing ▸ hopening, if_false]
        rfl
      | zero =>
        cases b with
        | square =>
          obtain rfl := Option.some.inj h
          exact flush_with_region _ none
        | round =>
          obtain rfl := Option.some.inj h
          rfl
    next hclosing =>
      obtain rfl := Option.some.inj h
      simp only [hopening, hclosing, if_false]
      rfl

theorem outside_of_move (h : bareMove? c = some m) (hr : r.region = none) :
    { r with colon := false }.outside c = .ok (m.apply c r) := by
  obtain ⟨elements, current, combinator, spaced, colon, region⟩ := r
  obtain rfl : region = none := hr
  have hflush := flush_with_colon ⟨elements, current, combinator, spaced, colon, none⟩ false
  unfold bareMove? at h
  unfold outside
  split at h
  next hblank => cases h
  next hblank =>
    rw [if_neg hblank]
    split at h
    all_goals cases h
    case h_5 =>
      simp only [hflush]
      exact congrArg Except.ok (flush_with_colon (push _ '&') false)
    all_goals simp [Move.apply, push, hflush]

/-- A character that makes a move makes it in every reader with the same brackets and colon. -/
theorem step_of_move (h : move? r.region r.colon c = some m) : r.step c = .ok (m.apply c r) := by
  unfold step
  split
  next b more hr =>
    rw [hr] at h
    exact congrArg Except.ok (inside_of_move h hr)
  next hr =>
    rw [hr] at h
    split
    next hcolon =>
      obtain rfl : Move.extend false none = m := by
        rwa [move?, if_pos hcolon, Option.some.injEq] at h
      obtain rfl : c = ':' := by simp_all
      simp [Move.apply, push, hr]
    next hcolon =>
      rw [move?, if_neg hcolon] at h
      exact outside_of_move h hr

/-- The signs of the combinators that have one. -/
inductive IsSign : Char → Combinator → Prop
  | child : IsSign '>' .child
  | sibling : IsSign '+' .sibling
  | generalSibling : IsSign '~' .generalSibling

theorem step_of_region_none (hr : r.region = none) (hcolon : ¬ (r.colon && c == ':') = true) :
    r.step c = { r with colon := false }.outside c := by
  unfold step
  split
  next b more hsome => simp [hr] at hsome
  next => rw [if_neg hcolon]

theorem step_of_blank (hr : r.region = none) (hc : Text.isBlank c = true) :
    r.step c = .ok { r.flush with spaced := true, colon := false } := by
  have hcolon : ¬ (r.colon && c == ':') = true := by
    intro h
    obtain rfl : c = ':' := by simp_all
    exact absurd hc (by decide)
  rw [step_of_region_none hr hcolon]
  unfold outside
  rw [if_pos hc, flush_with_colon]

theorem step_of_sign {x : Combinator} (hr : r.region = none) (hc : IsSign c x) :
    r.step c =
      if r.flush.combinator.isSome then .error .consecutiveCombinators
      else .ok { r.flush with combinator := some x, colon := false } := by
  have hcolon : ¬ (r.colon && c == ':') = true := by cases hc <;> simp
  have houtside : { r with colon := false }.outside c = { r with colon := false }.sign x := by
    cases hc <;> rfl
  rw [step_of_region_none hr hcolon, houtside, sign, flush_with_colon]
  cases hx : r.flush.combinator with
  | none => rfl
  | some y => rfl

theorem region_of_not_move {region : Option (Bracket × Nat)} {colon : Bool}
    (h : move? region colon c = none) : region = none := by
  cases region with
  | none => rfl
  | some region =>
    obtain ⟨b, more⟩ := region
    unfold move? at h
    dsimp only at h
    split at h
    · cases h
    · split at h
      · cases more <;> cases b <;> cases h
      · cases h

/-- What a blank or a sign does. -/
theorem eq_of_step_of_not_move (h : r.step c = .ok q) (hmove : move? r.region r.colon c = none) :
    r.region = none ∧
      (q = { r.flush with spaced := true, colon := false } ∨
        ∃ x, IsSign c x ∧ q = { r.flush with combinator := some x, colon := false }) := by
  have hr := region_of_not_move hmove
  refine ⟨hr, ?_⟩
  have hsign : ∀ x, IsSign c x → q = { r.flush with combinator := some x, colon := false } := by
    intro x hx
    rw [step_of_sign hr hx] at h
    split at h
    · cases h
    · exact (Except.ok.inj h).symm
  rw [hr] at hmove
  unfold move? at hmove
  dsimp only at hmove
  split at hmove
  · cases hmove
  next hcolon =>
    unfold bareMove? at hmove
    split at hmove
    next hblank =>
      rw [step_of_blank hr hblank] at h
      exact .inl (Except.ok.inj h).symm
    next hblank =>
      right
      split at hmove
      case h_1 => exact ⟨.child, .child, hsign _ .child⟩
      case h_2 => exact ⟨.sibling, .sibling, hsign _ .sibling⟩
      case h_3 => exact ⟨.generalSibling, .generalSibling, hsign _ .generalSibling⟩
      case h_4 =>
        rw [step_of_region_none hr hcolon] at h
        cases h
      all_goals cases hmove

/-- What holds between two characters. -/
structure Proper (r : Reader) : Prop where
  region : r.region ≠ none → r.current ≠ [] ∧ r.colon = false
  colon : r.current = [] → r.colon = false
  elements : ∀ e ∈ r.elements, Begins e.value.toList
  current : r.current ≠ [] → Begins r.current

/-- No colon is waited for once brackets are open. -/
def Move.Quiet : Move → Prop
  | .extend colon region | .start colon region => region ≠ none → colon = false
  | .single => True
  | .close => False

theorem move?_none_eq_some {colon : Bool} (h : move? none colon c = some m) :
    Text.isBlank c = false ∧ m.Quiet := by
  unfold move? at h
  dsimp only at h
  split at h
  next hcolon =>
    obtain rfl : c = ':' := by simp_all
    cases h
    exact ⟨by decide, fun _ => rfl⟩
  next =>
    unfold bareMove? at h
    split at h
    · cases h
    next hblank =>
      refine ⟨by simpa using hblank, ?_⟩
      split at h
      all_goals cases h
      all_goals simp [Move.Quiet]

theorem move?_some_eq_some {region : Bracket × Nat} {colon : Bool}
    (h : move? (some region) colon c = some m) :
    m = .close ∨ ∃ region', m = .extend colon region' := by
  obtain ⟨b, more⟩ := region
  unfold move? at h
  dsimp only at h
  split at h
  · cases h
    exact .inr ⟨_, rfl⟩
  · split at h
    · cases more with
      | succ more =>
        cases h
        exact .inr ⟨_, rfl⟩
      | zero =>
        cases b with
        | square =>
          cases h
          exact .inl rfl
        | round =>
          cases h
          exact .inr ⟨_, rfl⟩
    · cases h
      exact .inr ⟨_, rfl⟩

theorem begins_flush (h : ∀ e ∈ r.elements, Begins e.value.toList)
    (hcurrent : r.current ≠ [] → Begins r.current) :
    ∀ e ∈ r.flush.elements, Begins e.value.toList := by
  by_cases hnil : r.current = []
  · rwa [flush_of_nil hnil]
  · rw [flush_of_ne_nil hnil]
    intro e he
    rcases List.mem_append.1 he with he | he
    · exact h e he
    · obtain rfl := List.mem_singleton.1 he
      simpa using hcurrent hnil

theorem begins_concat {cs : List Char} (h : cs ≠ [] → Begins cs)
    (hc : cs = [] → Text.isBlank c = false) : Begins (cs ++ [c]) := by
  cases cs with
  | nil => exact ⟨c, [], rfl, hc rfl⟩
  | cons d ds =>
    obtain ⟨first, rest, hcs, hfirst⟩ := h (by simp)
    exact ⟨first, rest ++ [c], by rw [hcs]; rfl, hfirst⟩

theorem proper_init : Proper {} := by
  constructor <;> simp

/-- A move keeps what holds between two characters. -/
theorem Proper.apply (h : r.Proper) (hmove : move? r.region r.colon c = some m) :
    (m.apply c r).Proper := by
  have helements := begins_flush h.elements h.current
  cases hr : r.region with
  | none =>
    rw [hr] at hmove
    obtain ⟨hblank, hquiet⟩ := move?_none_eq_some hmove
    cases m with
    | extend colon region =>
      exact ⟨fun hregion => ⟨by simp [Move.apply, push], hquiet hregion⟩,
        by simp [Move.apply, push], h.elements, fun _ => begins_concat h.current fun _ => hblank⟩
    | start colon region =>
      exact ⟨fun hregion => ⟨by simp [Move.apply, push], hquiet hregion⟩,
        by simp [Move.apply, push], helements, fun _ => begins_concat (by simp) fun _ => hblank⟩
    | single =>
      refine ⟨fun hregion => ?_, fun _ => rfl, ?_, fun hcurrent => ?_⟩
      · simp [Move.apply, push, hr] at hregion
      · exact begins_flush (r := r.flush.push c) helements fun _ =>
          begins_concat (by simp) fun _ => hblank
      · simp [Move.apply] at hcurrent
    | close => exact hquiet.elim
  | some region =>
    obtain ⟨hcurrent, hcolon⟩ := h.region (by simp [hr])
    have hbegins : Begins (r.current ++ [c]) :=
      begins_concat h.current fun hnil => absurd hnil hcurrent
    rw [hr] at hmove
    obtain rfl | ⟨region', rfl⟩ := move?_some_eq_some hmove
    · refine ⟨fun hregion => absurd rfl hregion, fun _ => ?_, ?_, fun hcurrent => ?_⟩
      · simpa [Move.apply, push] using hcolon
      · exact begins_flush (r := r.push c) h.elements fun _ => hbegins
      · simp [Move.apply] at hcurrent
    · exact ⟨fun _ => ⟨by simp [Move.apply, push], hcolon⟩, fun _ => hcolon, h.elements,
        fun _ => hbegins⟩

theorem Proper.step (h : r.Proper) (hstep : r.step c = .ok q) : q.Proper := by
  cases hmove : move? r.region r.colon c with
  | some m =>
    rw [step_of_move hmove] at hstep
    obtain rfl := Except.ok.inj hstep
    exact h.apply hmove
  | none =>
    have helements := begins_flush h.elements h.current
    obtain ⟨hr, rfl | ⟨x, -, rfl⟩⟩ := eq_of_step_of_not_move hstep hmove
    · exact ⟨by simp [hr], fun _ => rfl, helements, by simp⟩
    · exact ⟨by simp [hr], fun _ => rfl, helements, by simp⟩

end Reader

end Stylesheet.Selector
