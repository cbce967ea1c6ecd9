import Switching.Proofs.Minterm.Bits

/-! # Neighbouring indices

Two indices over the same variables are neighbours at a position when they have different bits there
and the same ones elsewhere. Each index has one neighbour at each position, which is reached by flipping
the bit (`differAt_iff`), and two indices are adjacent when they are neighbours at some position
(`adjacent_iff_exists_differAt`).
-/

namespace Switching.Minterm

variable {width position place index other : Nat}

theorem lt_count_iff : index < count width ↔ index < 2 ^ width := by
  rw [count, Nat.one_shiftLeft]

namespace DifferAt

theorem symm (differ : DifferAt width position index other) : DifferAt width position other index :=
  ⟨differ.inside, differ.other_lt_count, differ.lt_count, fun place within =>
    ne_comm.trans (differ.bitAt_ne_iff place within)⟩

theorem index_lt (differ : DifferAt width position index other) : index < 2 ^ width :=
  lt_count_iff.mp differ.lt_count

theorem other_lt (differ : DifferAt width position index other) : other < 2 ^ width :=
  lt_count_iff.mp differ.other_lt_count

end DifferAt

/-- The index with the other bit at a position. -/
def flip (width position index : Nat) : Nat :=
  index ^^^ 2 ^ (width - 1 - position)

theorem flip_lt (inside : position < width) (small : index < 2 ^ width) :
    flip width position index < 2 ^ width := by
  refine Nat.xor_lt_two_pow small (Nat.pow_lt_pow_right (Nat.lt_succ_self 1) ?_)
  omega

theorem xor_flip (width position index : Nat) :
    index ^^^ flip width position index = 2 ^ (width - 1 - position) := by
  rw [flip, ← Nat.xor_assoc, Nat.xor_self, Nat.zero_xor]

theorem bitAt_flip (inside : position < width) (within : place < width) (index : Nat) :
    bitAt (flip width position index) width place =
      (bitAt index width place ^^ decide (place = position)) := by
  have same : width - 1 - position = width - 1 - place ↔ place = position := by omega
  simp only [bitAt, flip, Nat.testBit_xor, Nat.testBit_two_pow, same]

/-- Indices over some variables are told by their bits. -/
theorem eq_of_bitAt (left : index < 2 ^ width) (right : other < 2 ^ width)
    (same : ∀ place < width, bitAt index width place = bitAt other width place) : index = other := by
  have listed : bits width index = bits width other := by
    refine List.ext_getElem (by simp) fun place first second => ?_
    rw [getElem_bits, getElem_bits]
    exact same place (by simpa using first)
  have spelled := congrArg value listed
  rwa [value_bits, value_bits, Nat.mod_eq_of_lt left, Nat.mod_eq_of_lt right] at spelled

theorem differAt_iff : DifferAt width position index other ↔
    position < width ∧ index < 2 ^ width ∧ other = flip width position index := by
  constructor
  · rintro ⟨inside, left, right, differ⟩
    rw [lt_count_iff] at left right
    refine ⟨inside, left, eq_of_bitAt right (flip_lt inside left) fun place within => ?_⟩
    rw [bitAt_flip inside within]
    by_cases here : place = position
    · have different := (differ place within).mpr here
      rw [decide_eq_true here, Bool.xor_true]
      exact Bool.eq_not.mpr different.symm
    · have equal := not_not.mp (mt (differ place within).mp here)
      simp [here, equal]
  · rintro ⟨inside, small, rfl⟩
    refine ⟨inside, lt_count_iff.mpr small, lt_count_iff.mpr (flip_lt inside small),
      fun place within => ?_⟩
    rw [bitAt_flip inside within]
    by_cases here : place = position <;> simp [here]

/-- Flipping the bit at a position replaces one entry of the list of bits. -/
theorem bits_flip (inside : position < width) (index : Nat) :
    bits width (flip width position index) =
      (bits width index).set position (!bitAt index width position) := by
  refine List.ext_getElem (by simp) fun place first second => ?_
  have within : place < width := by simpa using first
  rw [getElem_bits, bitAt_flip inside within, List.getElem_set]
  by_cases here : position = place
  · simp [here]
  · simp [here, Ne.symm here, getElem_bits]

/-- Adjacent indices over some variables differ at one of their positions. -/
theorem adjacent_iff_exists_differAt (left : index < 2 ^ width) (right : other < 2 ^ width) :
    adjacent index other = true ↔ ∃ position, DifferAt width position index other := by
  rw [adjacent_iff]
  constructor
  · rintro ⟨bit, single⟩
    rw [Nat.one_shiftLeft] at single
    have small : bit < width := by
      have bound := Nat.xor_lt_two_pow left right
      rw [single] at bound
      exact (Nat.pow_lt_pow_iff_right (Nat.lt_succ_self 1)).mp bound
    refine ⟨width - 1 - bit, differAt_iff.mpr ⟨by omega, left, ?_⟩⟩
    have place : width - 1 - (width - 1 - bit) = bit := by omega
    rw [flip, place, ← single, ← Nat.xor_assoc, Nat.xor_self, Nat.zero_xor]
  · rintro ⟨position, differ⟩
    obtain ⟨_, _, rfl⟩ := differAt_iff.mp differ
    exact ⟨width - 1 - position, by rw [xor_flip, Nat.one_shiftLeft]⟩

end Switching.Minterm
