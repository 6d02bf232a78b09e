/-!
# Ascending ranges of code points

A character class that needs a table is given by a list of closed ranges in ascending order.
Membership walks the list and stops at the first range that lies above the code point, so the
common low code points are decided in a step or two. Since the ranges ascend, nothing is missed.
-/

namespace Stylesheet.Text

/-- Whether no range is empty, the first one does not start below `least`, and each of the others
starts above the end of the one before it. -/
def ascendsFrom : Nat → List (Nat × Nat) → Bool
  | _, [] => true
  | least, (low, high) :: rest => least ≤ low && low ≤ high && ascendsFrom (high + 1) rest

/-- Whether a code point lies in one of the ranges. Ranges after the first one that starts above
the code point are not looked at. -/
def foundIn (n : Nat) : List (Nat × Nat) → Bool
  | [] => false
  | (low, high) :: rest => if n < low then false else n ≤ high || foundIn n rest

/-- Closed ranges of code points, lowest first and apart from each other. -/
structure Ranges where
  list : List (Nat × Nat)
  ascends : ascendsFrom 0 list = true

/-- Whether a code point lies in one of the ranges. -/
def Ranges.contains (r : Ranges) (n : Nat) : Bool := foundIn n r.list

theorem le_of_ascendsFrom {least : Nat} {list : List (Nat × Nat)}
    (h : ascendsFrom least list = true) {range : Nat × Nat} (hrange : range ∈ list) :
    least ≤ range.1 := by
  induction list generalizing least with
  | nil => cases hrange
  | cons first rest ih =>
    obtain ⟨low, high⟩ := first
    simp only [ascendsFrom, Bool.and_eq_true, decide_eq_true_eq] at h
    obtain ⟨⟨hlow, hhigh⟩, hrest⟩ := h
    rcases List.mem_cons.1 hrange with rfl | hrange
    · exact hlow
    · have hle := ih hrest hrange
      omega

theorem foundIn_iff {least n : Nat} {list : List (Nat × Nat)} (h : ascendsFrom least list = true) :
    foundIn n list = true ↔ ∃ range ∈ list, range.1 ≤ n ∧ n ≤ range.2 := by
  induction list generalizing least with
  | nil => simp [foundIn]
  | cons first rest ih =>
    obtain ⟨low, high⟩ := first
    have hbelow : ∀ range ∈ (low, high) :: rest, low ≤ range.1 := by
      refine fun range => le_of_ascendsFrom ?_
      simp only [ascendsFrom, Bool.and_eq_true, decide_eq_true_eq] at h ⊢
      exact ⟨⟨Nat.le_refl low, h.1.2⟩, h.2⟩
    simp only [ascendsFrom, Bool.and_eq_true] at h
    rw [foundIn]
    split
    · -- All ranges start above the code point.
      rename_i hn
      refine ⟨(fun hfalse => by cases hfalse), ?_⟩
      rintro ⟨range, hrange, hle, -⟩
      have := hbelow range hrange
      omega
    · rename_i hn
      rw [Bool.or_eq_true, decide_eq_true_eq, ih h.2]
      simp only [List.mem_cons, exists_eq_or_imp, Nat.not_lt.1 hn, true_and]

/-- Stopping early misses no range. -/
theorem Ranges.contains_iff (r : Ranges) (n : Nat) :
    r.contains n = true ↔ ∃ range ∈ r.list, range.1 ≤ n ∧ n ≤ range.2 :=
  foundIn_iff r.ascends

end Stylesheet.Text
