import Switching.Cube

/-! # Prime patterns

A pattern is an implicant of a set of terms if it covers no other index, and it is prime if it
cannot cover more without ceasing to be one.
-/

namespace Switching.Pattern

/-- All covered indices are terms. -/
def Within (p : Pattern) (terms : IndexSet) : Prop :=
  ∀ index, p.covers index = true → index ∈ terms

/-- The pattern lies within the terms, and so does no pattern of its width that covers more. -/
def IsPrime (p : Pattern) (terms : IndexSet) : Prop :=
  p.Within terms ∧ ∀ q : Pattern, q.length = p.length → q.Within terms →
    (∀ index, p.covers index = true → q.covers index = true) →
    ∀ index, q.covers index = true → p.covers index = true

end Switching.Pattern
