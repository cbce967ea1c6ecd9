import Mathlib
import Switching.Letter

/-! # The codes of letters and their places -/

namespace Switching

variable {c : Char}

theorem isUpper_iff : c.isUpper = true ↔ 65 ≤ c.toNat ∧ c.toNat ≤ 90 := by
  simp [Char.isUpper, UInt32.le_iff_toNat_le, ← Char.toNat_val]

theorem isAlpha_iff :
    c.isAlpha = true ↔ (65 ≤ c.toNat ∧ c.toNat ≤ 90) ∨ (97 ≤ c.toNat ∧ c.toNat ≤ 122) := by
  simp [Char.isAlpha, Char.isUpper, Char.isLower, UInt32.le_iff_toNat_le, ← Char.toNat_val]

theorem isAlpha_of_isUpper (upper : c.isUpper = true) : c.isAlpha = true :=
  isAlpha_iff.mpr (.inl (isUpper_iff.mp upper))

theorem toUpper_of_isUpper (upper : c.isUpper = true) : c.toUpper = c :=
  Char.toUpper_eq_of_not_isLower (Char.not_isLower_of_isUpper upper)

theorem isUpper_toUpper (isLetter : c.isAlpha = true) : c.toUpper.isUpper = true := by
  have code := isAlpha_iff.mp isLetter
  rw [isUpper_iff, Letter.toNat_toUpper]
  split <;> omega

/-- Case does not matter for the place of a letter. -/
theorem slot?_toUpper (c : Char) : Letter.slot? c.toUpper = Letter.slot? c := by
  simp only [Letter.slot?, Char.toUpper_toUpper_eq_toUpper]

/-- A letter in upper case is told by its place in the alphabet. -/
theorem slot?_of_isUpper (upper : c.isUpper = true) :
    ∃ slot, Letter.slot? c = some slot ∧ Letter.ofSlot slot = c := by
  have code := isUpper_iff.mp upper
  have first : 'A'.toNat = 65 := rfl
  have inside : 'A'.toNat ≤ c.toUpper.toNat ∧ c.toUpper.toNat - 'A'.toNat < Letter.alphabetSize := by
    rw [toUpper_of_isUpper upper, Letter.alphabetSize]
    omega
  refine ⟨_, dif_pos inside, ?_⟩
  have shifted : 'A'.toNat + (c.toUpper.toNat - 'A'.toNat) = c.toNat := by
    rw [toUpper_of_isUpper upper]
    omega
  rw [Letter.ofSlot, shifted, Char.ofNat_toNat]

/-- The characters that have a place in the alphabet are the letters in either case. -/
theorem isSome_slot?_iff : (Letter.slot? c).isSome = true ↔ c.isAlpha = true := by
  have first : 'A'.toNat = 65 := rfl
  have code := Letter.toNat_toUpper c
  rw [isAlpha_iff, Letter.slot?, Option.isSome_dite, first, Letter.alphabetSize]
  split at code <;> omega

theorem slot?_inj {a b : Char} (left : a.isUpper = true) (right : b.isUpper = true)
    (same : Letter.slot? a = Letter.slot? b) : a = b := by
  obtain ⟨slot, place, rfl⟩ := slot?_of_isUpper left
  obtain ⟨other, placeOther, rfl⟩ := slot?_of_isUpper right
  rw [place, placeOther] at same
  exact congrArg Letter.ofSlot (Option.some.inj same)

/-- Letters with one place are the same letter, in whatever case. -/
theorem slot?_eq_iff {a b : Char} (left : a.isAlpha = true) (right : b.isAlpha = true) :
    Letter.slot? a = Letter.slot? b ↔ a.toUpper = b.toUpper := by
  rw [← slot?_toUpper a, ← slot?_toUpper b]
  exact ⟨slot?_inj (isUpper_toUpper left) (isUpper_toUpper right), congrArg Letter.slot?⟩

/-- A character has the place of a letter in upper case if this is its own upper case. -/
theorem slot?_eq_iff_of_isUpper {a b : Char} (upper : b.isUpper = true) :
    Letter.slot? a = Letter.slot? b ↔ a.toUpper = b := by
  constructor
  · intro same
    obtain ⟨slot, place, _⟩ := slot?_of_isUpper upper
    have letter := isSome_slot?_iff.mp (Option.isSome_of_eq_some (same.trans place))
    rw [(slot?_eq_iff letter (isAlpha_of_isUpper upper)).mp same, toUpper_of_isUpper upper]
  · rintro rfl
    exact (slot?_toUpper a).symm

end Switching
