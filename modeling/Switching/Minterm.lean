/-! # Minterm indices

A minterm of a function of `width` variables is the row of its truth table in which the variables
spell a binary number, the first variable being the most significant bit. This module relates the
index of a minterm to its bits. Indices are natural numbers; the machine word bounds them in two
places only, `ofBits`, which keeps the last 64 bits of a longer list, and `inRange`, where a width
of 64 or more no longer excludes any index. Over more than 64 variables, a number has more bits than a
word: what is read off a word there is told by `Word.bitBy?`.
-/

namespace Switching.Minterm

/-- The number of bits in a machine word. -/
def wordSize : Nat := 64

/-- The bits of an index, most significant first. -/
def bits : Nat → Nat → List Bool
  | 0, _ => []
  | width + 1, index => index.testBit width :: bits width index

/-- The value of the variable at a position, counted from the most significant bit. -/
def bitAt (index width position : Nat) : Bool :=
  index.testBit (width - 1 - position)

/-- The index that a list of bits spells, most significant first, within a machine word. -/
def ofBits (bits : List Bool) : Nat :=
  bits.foldl (fun index bit => (2 * index + bit.toNat) % 1 <<< wordSize) 0

/-- The number of minterms over a number of variables. -/
def count (width : Nat) : Nat :=
  1 <<< width

/-- Whether an index is a minterm over a number of variables. -/
def inRange (index width : Nat) : Bool :=
  decide (wordSize ≤ width) || decide (index < count width)

/-- Whether two indices differ in exactly one bit. -/
def adjacent (a b : Nat) : Bool :=
  1 <<< (a ^^^ b).log2 == a ^^^ b

/-- Two indices over some variables have different bits at one position and the same bits at all
others. -/
structure DifferAt (width position index other : Nat) : Prop where
  inside : position < width
  lt_count : index < count width
  other_lt_count : other < count width
  bitAt_ne_iff : ∀ place < width,
    bitAt index width place ≠ bitAt other width place ↔ place = position

@[simp] theorem length_bits (width index : Nat) : (bits width index).length = width := by
  induction width with
  | zero => rfl
  | succ width ih => simp [bits, ih]

/-- The bit at a position is the value of the variable there. -/
theorem getElem_bits {width index position : Nat} (inside : position < (bits width index).length) :
    (bits width index)[position] = bitAt index width position := by
  induction width generalizing position with
  | zero => simp at inside
  | succ width ih =>
    cases position with
    | zero => simp [bits, bitAt]
    | succ position =>
      have inside : position < (bits width index).length := by simpa [bits] using inside
      have lower : width - (position + 1) = width - 1 - position := by omega
      simpa [bits, bitAt, lower] using ih inside

/-- Two indices are adjacent when their difference is a single bit. -/
theorem adjacent_iff {a b : Nat} : adjacent a b = true ↔ ∃ bit, a ^^^ b = 1 <<< bit := by
  constructor
  · intro same
    exact ⟨_, (beq_iff_eq.mp same).symm⟩
  · rintro ⟨bit, single⟩
    simp [adjacent, single, Nat.one_shiftLeft, Nat.log2_two_pow]

end Switching.Minterm
