import Switching.IndexSet
import Switching.Proofs.Minterm.Word

/-! # Words over more variables than bits

Where a shift by too much is not refused, a word has a bit for each of any number of variables: those before
the last 64 read some bits of the word again (`reread`). Put behind the word, these bits make it a number
with as many bits as there are variables (`lengthen`). Up to 64 variables this is the word itself. A smaller
word gives a smaller number, since what is added has the same length for all words.
-/

namespace Switching

namespace Minterm

variable {width index other : Nat}

/-- The bits of a word by position, where a shift by too much counts modulo the number of bits. -/
def wordBits (width index : Nat) : List Bool :=
  (List.range width).map fun position => index.testBit ((width - 1 - position) % wordSize)

/-- The bits that the variables before the last 64 read. -/
def reread (width index : Nat) : List Bool :=
  (wordBits width index).take (width - wordSize)

/-- The number that a word spells together with the bits that are read again. -/
def lengthen (width index : Nat) : Nat :=
  2 ^ (width - wordSize) * index + value (reread width index)

@[simp] theorem length_wordBits (width index : Nat) : (wordBits width index).length = width := by
  simp [wordBits]

@[simp] theorem length_reread (width index : Nat) :
    (reread width index).length = width - wordSize := by
  simp [reread]

/-- The bits that a word adds are fewer than those that the step to the next word counts for. -/
theorem value_reread_lt (width index : Nat) : value (reread width index) < 2 ^ (width - wordSize) := by
  have bounded := value_lt (reread width index)
  rwa [length_reread] at bounded

theorem lengthen_of_narrow (narrow : width ≤ wordSize) : lengthen width index = index := by
  have none : width - wordSize = 0 := Nat.sub_eq_zero_of_le narrow
  have empty : reread width index = [] := by rw [reread, none, List.take_zero]
  rw [lengthen, none, empty, Nat.pow_zero, Nat.one_mul, value, Nat.add_zero]

theorem lengthen_lt_mul (width index : Nat) :
    lengthen width index < 2 ^ (width - wordSize) * (index + 1) := by
  rw [Nat.mul_succ]
  exact Nat.add_lt_add_left (value_reread_lt width index) _

theorem lengthen_strictMono (width : Nat) : StrictMono (lengthen width) := by
  intro index other less
  calc lengthen width index
      < 2 ^ (width - wordSize) * (index + 1) := lengthen_lt_mul width index
    _ ≤ 2 ^ (width - wordSize) * other := Nat.mul_le_mul_left _ less
    _ ≤ lengthen width other := Nat.le_add_right _ _

/-- A word is told by the bits of its longer number that are not read again. -/
theorem lengthen_div (width index : Nat) : lengthen width index / 2 ^ (width - wordSize) = index := by
  rw [lengthen, Nat.mul_add_div (Nat.two_pow_pos _), Nat.div_eq_of_lt (value_reread_lt width index),
    Nat.add_zero]

/-- The longer numbers of the words over some variables are minterms over them. -/
theorem lengthen_lt (word : index < 2 ^ wordSize) (inside : index < 2 ^ width) :
    lengthen width index < 2 ^ width := by
  rcases Nat.le_total width wordSize with narrow | wide
  · rwa [lengthen_of_narrow narrow]
  · calc lengthen width index
        < 2 ^ (width - wordSize) * (index + 1) := lengthen_lt_mul width index
      _ ≤ 2 ^ (width - wordSize) * 2 ^ wordSize := Nat.mul_le_mul_left _ word
      _ = 2 ^ width := by rw [← Nat.pow_add, Nat.sub_add_cancel wide]

theorem inRange_lengthen_iff (word : index < 2 ^ wordSize) :
    inRange (lengthen width index) width = true ↔ lengthen width index < 2 ^ width := by
  rcases Nat.lt_or_ge width wordSize with narrow | wide
  · exact inRange_iff narrow
  · have small := lengthen_lt word (word.trans_le (Nat.pow_le_pow_right Nat.two_pos wide))
    exact iff_of_true (inRange_of_lt small) small

/-- The bits of a number are those of its upper part, followed by those of its lower part. -/
theorem bits_append (high low : Nat) {rest : Nat} (small : rest < 2 ^ low) :
    bits (high + low) (2 ^ low * index + rest) = bits high index ++ bits low rest := by
  induction high with
  | zero => rw [Nat.zero_add, bits_add (Nat.le_refl low) small, bits, List.nil_append]
  | succ high ih =>
    have above : ¬ high + low < low := by omega
    have bit : (2 ^ low * index + rest).testBit (high + low) = index.testBit high := by
      rw [Nat.testBit_two_pow_mul_add _ small, if_neg above, Nat.add_sub_cancel]
    rw [Nat.add_right_comm, bits, bit, ih, bits, List.cons_append]

/-- The last positions, at most 64, read each bit once. -/
theorem drop_wordBits (width index : Nat) :
    (wordBits width index).drop (width - wordSize) = bits (width - (width - wordSize)) index := by
  refine List.ext_getElem (by simp) fun position left right => ?_
  have inside : position < width - (width - wordSize) := by simpa using left
  have amount : width - 1 - (width - wordSize + position) =
      width - (width - wordSize) - 1 - position := by omega
  have small : width - (width - wordSize) - 1 - position < wordSize := by omega
  rw [getElem_bits, List.getElem_drop, bitAt]
  simp only [wordBits, List.getElem_map, List.getElem_range, amount, Nat.mod_eq_of_lt small]

/-- With the bits that are read again put behind the others, the bits of a word are those of its longer
number. -/
theorem rotate_wordBits (width index : Nat) :
    (wordBits width index).rotate (width - wordSize) = bits width (lengthen width index) := by
  have enough : width - wordSize ≤ (wordBits width index).length := by simp
  have parts : width - (width - wordSize) + (width - wordSize) = width :=
    Nat.sub_add_cancel (Nat.sub_le _ _)
  have lower : bits (width - wordSize) (value (reread width index)) = reread width index := by
    have own := bits_value (reread width index)
    rwa [length_reread] at own
  calc (wordBits width index).rotate (width - wordSize)
      = (wordBits width index).drop (width - wordSize) ++ reread width index :=
        List.rotate_eq_drop_append_take enough
    _ = bits (width - (width - wordSize)) index ++
          bits (width - wordSize) (value (reread width index)) := by rw [drop_wordBits, lower]
    _ = bits width (lengthen width index) := by
        rw [← bits_append _ _ (value_reread_lt width index), parts, lengthen]

end Minterm

/-- The longer numbers of some words. -/
def IndexSet.lengthen (width : Nat) (words : IndexSet) : IndexSet :=
  ⟨words.toList.map (Minterm.lengthen width),
    List.pairwise_map.mpr (words.sorted.imp fun less => Minterm.lengthen_strictMono width less)⟩

namespace IndexSet

variable {width index : Nat} {words others : IndexSet}

theorem mem_lengthen : index ∈ words.lengthen width ↔
    ∃ word ∈ words, Minterm.lengthen width word = index :=
  List.mem_map

theorem lengthen_mem_lengthen : Minterm.lengthen width index ∈ words.lengthen width ↔ index ∈ words :=
  List.mem_map_of_injective (Minterm.lengthen_strictMono width).injective

theorem lengthen_union (width : Nat) (words others : IndexSet) :
    (words ∪ others).lengthen width = words.lengthen width ∪ others.lengthen width := by
  ext index
  simp only [mem_union, mem_lengthen, or_and_right, exists_or]

theorem lengthen_singleton (width index : Nat) :
    (singleton index).lengthen width = singleton (Minterm.lengthen width index) :=
  rfl

theorem lengthen_injective (width : Nat) : Function.Injective (lengthen width) := by
  intro words others same
  ext index
  calc index ∈ words
    _ ↔ Minterm.lengthen width index ∈ words.lengthen width := lengthen_mem_lengthen.symm
    _ ↔ Minterm.lengthen width index ∈ others.lengthen width := by rw [same]
    _ ↔ index ∈ others := lengthen_mem_lengthen

theorem lengthen_of_narrow (narrow : width ≤ Minterm.wordSize) : words.lengthen width = words := by
  ext index
  simp only [mem_lengthen, Minterm.lengthen_of_narrow narrow, exists_eq_right]

end IndexSet

end Switching
