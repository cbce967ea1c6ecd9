/-! # Letters

Variables are named by the 26 letters of the English alphabet, and a letter names the same variable
in either case. `slot?` numbers the letters from 0 and `ofSlot` gives them back in upper case.
-/

namespace Switching.Letter

/-- The number of letters. -/
abbrev alphabetSize : Nat := 26

/-- The place of a letter in the alphabet; none for any other character. -/
def slot? (c : Char) : Option (Fin alphabetSize) :=
  let upper := c.toUpper.toNat
  if inside : 'A'.toNat ≤ upper ∧ upper - 'A'.toNat < alphabetSize then
    some ⟨upper - 'A'.toNat, inside.2⟩
  else none

/-- The letter at a place, in upper case. -/
def ofSlot (slot : Fin alphabetSize) : Char :=
  Char.ofNat ('A'.toNat + slot)

/-- All letters in upper case, in alphabetical order. -/
def alphabet : List Char :=
  (List.finRange alphabetSize).map ofSlot

@[simp] theorem slot?_ofSlot (slot : Fin alphabetSize) : slot? (ofSlot slot) = some slot := by
  revert slot
  decide

/-- Only the small letters of ASCII have a different upper case. -/
theorem toNat_toUpper (c : Char) :
    c.toUpper.toNat = if 97 ≤ c.toNat ∧ c.toNat ≤ 122 then c.toNat - 32 else c.toNat := by
  have range : ('a'.val ≤ c.val ∧ c.val ≤ 'z'.val) ↔ 97 ≤ c.toNat ∧ c.toNat ≤ 122 := Iff.rfl
  unfold Char.toUpper
  by_cases lower : 97 ≤ c.toNat ∧ c.toNat ≤ 122
  · rw [dif_pos (range.mpr lower), if_pos lower]
    have shifted := UInt32.toNat_add c.val ('A'.val - 'a'.val)
    have gap : ('A'.val - 'a'.val).toNat = 4294967264 := by decide
    have code : c.val.toNat = c.toNat := rfl
    rw [gap, code] at shifted
    exact shifted.trans (by omega)
  · rw [dif_neg (mt range.mp lower), if_neg lower]

end Switching.Letter
