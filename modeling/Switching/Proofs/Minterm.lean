import Mathlib
import Switching.Minterm

/-! # The range of a width -/

namespace Switching.Minterm

variable {index width : Nat}

theorem count_eq (width : Nat) : count width = 2 ^ width := Nat.one_shiftLeft width

/-- Below the machine word, the range of a width is what its number of minterms says. -/
theorem inRange_iff (narrow : width < wordSize) : inRange index width = true ↔ index < 2 ^ width := by
  rw [inRange, Bool.or_eq_true, decide_eq_true_iff, decide_eq_true_iff, count_eq]
  exact or_iff_right (Nat.not_le.mpr narrow)

/-- What is below the number of minterms is in the range of every width. -/
theorem inRange_of_lt (inside : index < 2 ^ width) : inRange index width = true := by
  rw [inRange, Bool.or_eq_true, decide_eq_true_iff, decide_eq_true_iff, count_eq]
  exact .inr inside

/-- For a machine word the width does not matter. -/
theorem inRange_iff_of_word (word : index < 2 ^ wordSize) :
    inRange index width = true ↔ index < 2 ^ width := by
  by_cases narrow : width < wordSize
  · exact inRange_iff narrow
  · have wide : wordSize ≤ width := Nat.not_lt.mp narrow
    rw [inRange, decide_eq_true wide, Bool.true_or]
    exact iff_of_true rfl (word.trans_le (Nat.pow_le_pow_right Nat.two_pos wide))

end Switching.Minterm
