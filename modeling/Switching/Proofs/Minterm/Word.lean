import Switching.Minterm.Word
import Switching.Proofs.Minterm.Bits

/-! # Indices and bits in a machine word

On words, shifting and masking read and write the same bits as the operations on numbers do
(`bitAt?_eq`, `toNat_ofBits`, `inRange?_eq`), and a shift by too much, where it is not refused, reads an
earlier bit again (`bitBy?_wrapping`). So nothing is lost between an index and its bits as long as
the bits fit into a word, and of a longer list the last 64 bits are kept (`Word.lossless`).
-/

namespace Switching.Minterm

/-- The number that bits spell has them as its digits. -/
theorem value_eq_ofDigits (list : List Bool) :
    value list = Nat.ofDigits 2 (list.reverse.map Bool.toNat) := by
  induction list with
  | nil => rfl
  | cons bit list ih =>
    rw [value, ih, List.reverse_cons, List.map_append, Nat.ofDigits_append, List.length_map,
      List.length_reverse, List.map_singleton, Nat.ofDigits_singleton, Nat.add_comm]

/-- Of more bits than a word has, the last ones are kept. -/
theorem ofBits_eq_mod (list : List Bool) : ofBits list = value list % 2 ^ wordSize := by
  have whole := foldl_ofBits list (Nat.two_pow_pos wordSize)
  rwa [Nat.mul_zero, Nat.zero_add] at whole

namespace Word

variable {index : UInt64} {width position amount : Nat} {bits : List Bool}

/-- A shift by less than a word drops the last bits of the number. -/
theorem shiftRight?_of_lt (index : UInt64) (small : amount < wordSize) :
    ∃ rest, shiftRight? index amount = some rest ∧ rest.toNat = index.toNat >>> amount := by
  refine ⟨_, if_pos small, ?_⟩
  have word : amount < 64 := small
  have exact : (UInt64.ofNat amount).toNat % 64 = amount := by
    rw [UInt64.toNat_ofNat']
    omega
  rw [UInt64.toNat_shiftRight, exact]

theorem last_bit (word : UInt64) : (word &&& 1 == 1) = word.toNat.testBit 0 := by
  rw [Bool.eq_iff_iff, beq_iff_eq, ← UInt64.toNat_inj, UInt64.toNat_and, Nat.testBit_zero,
    decide_eq_true_iff]
  change word.toNat &&& 1 = 1 ↔ word.toNat % 2 = 1
  rw [Nat.and_one_is_mod]

theorem bitAt?_eq (inside : position < width) (narrow : width ≤ wordSize) :
    bitAt? index width position = some (Minterm.bitAt index.toNat width position) := by
  have small : width - 1 - position < wordSize := by omega
  obtain ⟨rest, shifted, number⟩ := shiftRight?_of_lt index small
  rw [bitAt?, if_pos inside, shifted, Option.map_some, last_bit, number, Nat.testBit_shiftRight,
    Nat.add_zero, Minterm.bitAt]

theorem inRange?_eq (index : UInt64) (width : Nat) :
    inRange? index width = some (Minterm.inRange index.toNat width) := by
  by_cases wide : wordSize ≤ width
  · rw [inRange?, if_pos wide, Minterm.inRange, decide_eq_true wide, Bool.true_or]
  · obtain ⟨rest, shifted, number⟩ := shiftRight?_of_lt index (Nat.not_le.mp wide)
    rw [inRange?, if_neg wide, shifted, Option.map_some, Option.some.injEq, Bool.eq_iff_iff,
      beq_iff_eq, inRange_iff (Nat.not_le.mp wide), ← UInt64.toNat_inj, number,
      Nat.shiftRight_eq_div_pow]
    exact Nat.div_eq_zero_iff_lt (Nat.two_pow_pos width)

/-- One more bit doubles the index and is added to it. -/
theorem toNat_push (index : UInt64) (bit : Bool) :
    (index <<< 1 ||| bit.toUInt64).toNat = (2 * index.toNat + bit.toNat) % 1 <<< wordSize := by
  have digit : bit.toUInt64.toNat = bit.toNat := by cases bit <;> rfl
  have small : bit.toNat < 2 ^ 1 := bit.toNat_lt
  have word : bit.toNat % 2 ^ 64 = bit.toNat := Nat.mod_eq_of_lt (small.trans (by decide))
  have double : index.toNat <<< 1 = 2 * index.toNat := by
    rw [Nat.shiftLeft_eq, Nat.pow_one, Nat.mul_comm]
  calc (index <<< 1 ||| bit.toUInt64).toNat
      = index.toNat <<< 1 % 2 ^ 64 ||| bit.toNat := by
        rw [UInt64.toNat_or, UInt64.toNat_shiftLeft, digit]
        rfl
    _ = (index.toNat <<< 1 ||| bit.toNat) % 2 ^ 64 := by rw [Nat.or_mod_two_pow, word]
    _ = (index.toNat <<< 1 + bit.toNat) % 2 ^ 64 := by rw [Nat.shiftLeft_add_eq_or_of_lt small]
    _ = (2 * index.toNat + bit.toNat) % 1 <<< wordSize := by rw [double, Nat.one_shiftLeft, wordSize]

theorem foldl_push (bits : List Bool) (start : UInt64) :
    (bits.foldl (fun (index : UInt64) bit => index <<< 1 ||| bit.toUInt64) start).toNat =
      bits.foldl (fun index bit => (2 * index + bit.toNat) % 1 <<< wordSize) start.toNat := by
  induction bits generalizing start with
  | nil => rfl
  | cons bit bits ih => rw [List.foldl_cons, List.foldl_cons, ih, toNat_push]

theorem toNat_ofBits (bits : List Bool) : (ofBits bits).toNat = Minterm.ofBits bits :=
  foldl_push bits 0

/-- Of a shift by too much, the amount counts modulo the number of bits. -/
theorem bitBy?_wrapping (inside : position < width) : bitBy? .wrapping index width position =
    some (index.toNat.testBit ((width - 1 - position) % wordSize)) := by
  have amount : (UInt64.ofNat (width - 1 - position)).toNat % 64 = (width - 1 - position) % wordSize := by
    rw [UInt64.toNat_ofNat', Nat.mod_mod_of_dvd _ (by decide), wordSize]
  rw [bitBy?, if_pos inside, last_bit, UInt64.toNat_shiftRight, amount, Nat.testBit_shiftRight,
    Nat.add_zero]

/-- Up to as many variables as a word has bits, no shift is by too much. -/
theorem bitBy?_of_narrow (shift : Shift) (inside : position < width) (narrow : width ≤ wordSize) :
    bitBy? shift index width position = some (Minterm.bitAt index.toNat width position) := by
  cases shift with
  | checked => exact bitAt?_eq inside narrow
  | wrapping =>
    have small : width - 1 - position < wordSize := by omega
    rw [bitBy?_wrapping inside, Nat.mod_eq_of_lt small, Minterm.bitAt]

/-- Over more variables, the bit of the first one is refused. -/
theorem bitBy?_checked_zero (wide : wordSize < width) : bitBy? .checked index width 0 = none := by
  have beyond : ¬ width - 1 - 0 < wordSize := by omega
  rw [bitBy?, bitAt?, if_pos (Nat.zero_lt_of_lt wide), shiftRight?, if_neg beyond, Option.map_none]

/-- The bits of an index are read from the first position to the last. -/
theorem map_bitAt? (index : UInt64) (narrow : width ≤ wordSize) :
    (List.range width).map (bitAt? index width) =
      (Minterm.bits width index.toNat).map some := by
  refine List.ext_getElem (by simp) fun position left right => ?_
  have inside : position < width := by simpa using left
  rw [List.getElem_map, List.getElem_range, bitAt?_eq inside narrow, List.getElem_map, getElem_bits]

/-- Over at most as many variables as a word has bits, the bits that are read off an index spell the
index again, without what is beyond its variables. Each bit of a list that fits into a word is read off
the index that the list spells, which is in the range of as many variables; a longer list spells its
number without what is beyond the word. The range of a number of variables is what its size says and
leaves no index out from 64 variables on. The operations on numbers have the same results. -/
theorem lossless (index : UInt64) (width : Nat) (bits : List Bool) :
    (width ≤ wordSize → ∃ read,
      (List.range width).map (bitAt? index width) = read.map some ∧
        (ofBits read).toNat = index.toNat % 2 ^ width) ∧
    (bits.length ≤ wordSize →
      (∀ position bit, bits[position]? = some bit →
        bitAt? (ofBits bits) bits.length position = some bit) ∧
      inRange? (ofBits bits) bits.length = some true) ∧
    (ofBits bits).toNat = Nat.ofDigits 2 (bits.reverse.map Bool.toNat) % 2 ^ wordSize ∧
    inRange? index width = some (decide (index.toNat < 2 ^ width)) ∧
    (wordSize ≤ width → inRange? index width = some true) ∧
    (∀ position < width, width ≤ wordSize →
      bitAt? index width position = some (Minterm.bitAt index.toNat width position)) ∧
    (ofBits bits).toNat = Minterm.ofBits bits ∧
    inRange? index width = some (Minterm.inRange index.toNat width) := by
  refine ⟨fun narrow => ⟨_, map_bitAt? index narrow, ?_⟩, fun short => ⟨?_, ?_⟩, ?_, ?_, fun wide => ?_,
    fun position inside narrow => bitAt?_eq inside narrow, toNat_ofBits bits, inRange?_eq index width⟩
  · rw [toNat_ofBits, ofBits_eq ((length_bits width index.toNat).trans_le narrow), value_bits]
  · intro position bit listed
    have inside : position < bits.length := (List.getElem?_eq_some_iff.mp listed).1
    rw [bitAt?_eq inside short, toNat_ofBits, ofBits_eq short, bitAt_value listed]
  · rw [inRange?_eq, Option.some.injEq, inRange_iff_of_word (ofBits bits).toNat_lt, toNat_ofBits]
    exact ofBits_lt bits
  · rw [toNat_ofBits, ofBits_eq_mod, value_eq_ofDigits]
  · rw [inRange?_eq, Option.some.injEq, Bool.eq_iff_iff, inRange_iff_of_word index.toNat_lt,
      decide_eq_true_iff]
  · exact if_pos wide

end Word

end Switching.Minterm
