import Switching.Proofs.Minterm

/-! # Indices as lists of bits

Over a fixed number of variables, indices and lists of bits are the same: `bits` lists the bits of an
index and `value` puts them together again (`value_bits`, `bits_value`). Within a machine word,
`ofBits` computes this value (`ofBits_eq`).
-/

namespace Switching.Minterm

/-- The number that bits spell, most significant first. -/
def value : List Bool → Nat
  | [] => 0
  | bit :: rest => 2 ^ rest.length * bit.toNat + value rest

variable {list : List Bool} {width rest : Nat}

theorem value_lt (list : List Bool) : value list < 2 ^ list.length := by
  induction list with
  | nil => simp [value]
  | cons bit list ih =>
    rw [value, List.length_cons, Nat.pow_succ]
    cases bit <;> simp only [Bool.toNat_true, Bool.toNat_false] <;> omega

theorem value_bits (width index : Nat) : value (bits width index) = index % 2 ^ width := by
  induction width with
  | zero => simp [bits, value, Nat.mod_one]
  | succ width ih =>
    rw [bits, value, ih, length_bits, Nat.mod_pow_succ, Nat.toNat_testBit, Nat.add_comm]

/-- Bits further up do not matter. -/
theorem bits_add {low bit : Nat} (fewer : low ≤ width) (small : rest < 2 ^ width) :
    bits low (2 ^ width * bit + rest) = bits low rest := by
  induction low with
  | zero => rfl
  | succ low ih =>
    have below : low < width := fewer
    simp only [bits, ih (Nat.le_of_lt below), Nat.testBit_two_pow_mul_add _ small, below, ↓reduceIte]

theorem bits_cons (bit : Bool) (small : rest < 2 ^ width) :
    bits (width + 1) (2 ^ width * bit.toNat + rest) = bit :: bits width rest := by
  have top : (2 ^ width * bit.toNat + rest).testBit width = bit := by
    rw [Nat.testBit_two_pow_mul_add _ small]
    cases bit <;> simp
  rw [bits, top, bits_add (Nat.le_refl _) small]

theorem bits_value (list : List Bool) : bits list.length (value list) = list := by
  induction list with
  | nil => rfl
  | cons bit list ih => rw [List.length_cons, value, bits_cons bit (value_lt list), ih]

/-- The bit at a position is the one that stands there. -/
theorem bitAt_value {position : Nat} {bit : Bool} (listed : list[position]? = some bit) :
    bitAt (value list) list.length position = bit := by
  obtain ⟨inside, rfl⟩ := List.getElem?_eq_some_iff.mp listed
  have within : position < (bits list.length (value list)).length := by rwa [length_bits]
  rw [← getElem_bits within]
  simp only [bits_value]

theorem foldl_ofBits (list : List Bool) {start : Nat} (small : start < 2 ^ wordSize) :
    list.foldl (fun index bit => (2 * index + bit.toNat) % 1 <<< wordSize) start =
      (2 ^ list.length * start + value list) % 2 ^ wordSize := by
  induction list generalizing start with
  | nil => simp [value, Nat.mod_eq_of_lt small]
  | cons bit list ih =>
    have word : 1 <<< wordSize = 2 ^ wordSize := Nat.one_shiftLeft wordSize
    have step : (2 * start + bit.toNat) % 1 <<< wordSize ≡ 2 * start + bit.toNat [MOD 2 ^ wordSize] :=
      word ▸ Nat.mod_modEq _ _
    have sum : 2 ^ list.length * (2 * start + bit.toNat) + value list =
        2 ^ (list.length + 1) * start + (2 ^ list.length * bit.toNat + value list) := by
      rw [Nat.pow_succ]
      ring
    rw [List.foldl_cons, ih (word ▸ Nat.mod_lt _ (Nat.two_pow_pos wordSize)), List.length_cons, value,
      ← sum]
    exact (step.mul_left _).add_right _

/-- Within a machine word nothing is lost. -/
theorem ofBits_eq (short : list.length ≤ wordSize) : ofBits list = value list := by
  have whole := foldl_ofBits list (Nat.two_pow_pos wordSize)
  have small := (value_lt list).trans_le (Nat.pow_le_pow_right Nat.two_pos short)
  rw [ofBits, whole, Nat.mul_zero, Nat.zero_add, Nat.mod_eq_of_lt small]

/-- However many bits there are, they spell an index over as many variables. -/
theorem ofBits_lt (list : List Bool) : ofBits list < 2 ^ list.length := by
  have whole := foldl_ofBits list (Nat.two_pow_pos wordSize)
  rw [Nat.mul_zero, Nat.zero_add] at whole
  calc ofBits list = value list % 2 ^ wordSize := whole
    _ ≤ value list := Nat.mod_le ..
    _ < 2 ^ list.length := value_lt list

end Switching.Minterm
