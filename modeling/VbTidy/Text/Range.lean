import VbTidy.Text.Basic

/-
Classes of characters given by ascending ranges of code points.
-/
namespace VbTidy

/-- The first range that holds a code point; the ranges are ascending. -/
def rangeOf? : List (Nat × Nat) → Nat → Option (Nat × Nat)
  | [], _ => none
  | r :: rs, n =>
    if n < r.1 then none else if n ≤ r.2 then some r else rangeOf? rs n

/-- Whether one of the ranges holds a code point. -/
def inRanges (rs : List (Nat × Nat)) (n : Nat) : Bool :=
  (rangeOf? rs n).isSome

/-- A range found for a code point holds it. -/
theorem rangeOf?_bounds {rs : List (Nat × Nat)} {n : Nat} {r : Nat × Nat}
    (h : rangeOf? rs n = some r) : r.1 ≤ n ∧ n ≤ r.2 := by
  induction rs with
  | nil => simp [rangeOf?] at h
  | cons a rs ih =>
    rw [rangeOf?] at h
    split at h
    · cases h
    · split at h
      · obtain rfl := Option.some.inj h
        omega
      · exact ih h

end VbTidy
