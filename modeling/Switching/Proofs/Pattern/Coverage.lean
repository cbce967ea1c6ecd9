import Switching.Cube.Prime
import Switching.Proofs.Minterm

/-! # The indices that a pattern covers

`mem_covered_cons` reads the covered indices off a pattern, one position at a time: an index is a
highest bit that the first position allows and a rest that the others cover. From it follow the test
by fixed positions (`mem_covered`, `agrees_iff_fixed`), and what it means for one pattern to cover
no more than another (`covered_cons_subset`).
-/

namespace Switching.Pattern

/-- An index is its highest bit and the rest. -/
theorem exists_highest_bit {index width : Nat} (inside : index < 2 ^ (width + 1)) :
    ∃ bit : Bool, ∃ rest < 2 ^ width, index = 2 ^ width * bit.toNat + rest := by
  rw [Nat.pow_succ] at inside
  by_cases low : index < 2 ^ width
  · exact ⟨false, index, low, by simp⟩
  · exact ⟨true, index - 2 ^ width, by omega, by simp only [Bool.toNat_true]; omega⟩

theorem lt_of_mem_covered {p : Pattern} {index : Nat} (member : index ∈ p.covered) :
    index < 2 ^ p.length := by
  rw [← Nat.one_shiftLeft]
  exact coveredList_lt member

theorem mem_covered_cons {x : Option Bool} {p : Pattern} {bit : Bool} {rest : Nat}
    (small : rest < 2 ^ p.length) :
    2 ^ p.length * bit.toNat + rest ∈ covered (x :: p) ↔
      (x = none ∨ x = some bit) ∧ rest ∈ p.covered := by
  have low : ∀ a ∈ coveredList p, a < 2 ^ p.length := fun _ member => lt_of_mem_covered member
  have high (a : Nat) : a ∈ (coveredList p).map (2 ^ p.length + ·) ↔
      ∃ b ∈ coveredList p, 2 ^ p.length + b = a := List.mem_map
  change _ ∈ coveredList (x :: p) ↔ _ ∧ rest ∈ coveredList p
  cases bit with
  | false =>
    simp only [Bool.toNat_false, Nat.mul_zero, Nat.zero_add]
    match x with
    | some false => simp [coveredList]
    | some true =>
      simp only [coveredList, Nat.one_shiftLeft, high, reduceCtorEq, Option.some.injEq,
        Bool.true_eq_false, or_self, false_and, iff_false]
      rintro ⟨b, _, same⟩
      omega
    | none =>
      simp only [coveredList, Nat.one_shiftLeft, doubled, List.mem_append, high, true_or, true_and,
        or_iff_left_iff_imp]
      rintro ⟨b, _, same⟩
      omega
  | true =>
    simp only [Bool.toNat_true, Nat.mul_one]
    have shifted : 2 ^ p.length + rest ∈ (coveredList p).map (2 ^ p.length + ·) ↔
        rest ∈ coveredList p := by
      rw [high]
      constructor
      · rintro ⟨b, member, same⟩
        obtain rfl : b = rest := by omega
        exact member
      · exact fun member => ⟨rest, member, rfl⟩
    have above : 2 ^ p.length + rest ∉ coveredList p := fun member => by
      have := low _ member
      omega
    match x with
    | some false => simp [coveredList, above]
    | some true => simp [coveredList, Nat.one_shiftLeft, shifted]
    | none => simp [coveredList, Nat.one_shiftLeft, doubled, shifted, above]

/-- Every pattern covers some index. -/
theorem exists_mem_covered (p : Pattern) : ∃ index, index ∈ p.covered := by
  induction p with
  | nil => exact ⟨0, List.mem_singleton_self 0⟩
  | cons x p ih =>
    obtain ⟨rest, member⟩ := ih
    have allowed : x = none ∨ x = some (x.getD false) := by cases x <;> simp
    exact ⟨_, (mem_covered_cons (lt_of_mem_covered member)).mpr ⟨allowed, member⟩⟩

/-- Only the bits at the positions of a pattern matter to it. -/
theorem agrees_add {p : Pattern} {width bit rest : Nat} (wide : p.length ≤ width)
    (small : rest < 2 ^ width) : p.agrees (2 ^ width * bit + rest) = p.agrees rest := by
  induction p with
  | nil => rfl
  | cons x p ih =>
    rw [List.length_cons] at wide
    have tail := ih (by omega)
    match x with
    | none => exact tail
    | some value =>
      have within : p.length < width := by omega
      simp only [agrees, tail, Nat.testBit_two_pow_mul_add _ small, within, ↓reduceIte]

/-- The covered indices are those of the right size that have all fixed values. -/
theorem mem_covered {p : Pattern} {index : Nat} :
    index ∈ p.covered ↔ index < 2 ^ p.length ∧ p.agrees index = true := by
  induction p generalizing index with
  | nil =>
    change index ∈ [0] ↔ _
    simp [agrees]
  | cons x p ih =>
    by_cases inside : index < 2 ^ (x :: p).length
    · obtain ⟨bit, rest, small, rfl⟩ := exists_highest_bit inside
      have top : (2 ^ p.length * bit.toNat + rest).testBit p.length = bit := by
        rw [Nat.testBit_two_pow_mul_add _ small]
        cases bit <;> simp
      rw [mem_covered_cons small, ih]
      simp only [inside, small, true_and]
      match x with
      | none => simp [agrees, agrees_add (Nat.le_refl _) small]
      | some value =>
        simp only [agrees, agrees_add (Nat.le_refl _) small, top, reduceCtorEq, false_or,
          Option.some.injEq, Bool.and_eq_true, beq_iff_eq, @eq_comm _ value]
    · exact ⟨fun member => absurd (lt_of_mem_covered member) inside, fun both => absurd both.1 inside⟩

theorem covers_iff {p : Pattern} {index : Nat} (narrow : p.length < Minterm.wordSize) :
    p.covers index = true ↔ index ∈ p.covered := by
  rw [covers, Bool.and_eq_true, Minterm.inRange_iff narrow, mem_covered]

/-- An index over the variables is covered if it has all fixed values. -/
theorem covers_eq_agrees {p : Pattern} {index : Nat} (narrow : p.length < Minterm.wordSize)
    (inside : index < 2 ^ p.length) : p.covers index = p.agrees index := by
  rw [covers, (Minterm.inRange_iff narrow).mpr inside, Bool.true_and]

theorem within_iff {p : Pattern} {terms : IndexSet} (narrow : p.length < Minterm.wordSize) :
    p.Within terms ↔ p.covered ⊆ terms :=
  forall_congr' fun _ => imp_congr_left (covers_iff narrow)

/-- One pattern covers no more than another when its first position allows no more bits and neither
do the others. -/
theorem covered_cons_subset {x y : Option Bool} {p q : Pattern} (same : p.length = q.length) :
    covered (x :: p) ⊆ covered (y :: q) ↔ (y = none ∨ y = x) ∧ p.covered ⊆ q.covered := by
  constructor
  · intro inclusion
    have step (bit : Bool) (allowed : x = none ∨ x = some bit) (rest : Nat)
        (member : rest ∈ p.covered) : (y = none ∨ y = some bit) ∧ rest ∈ q.covered := by
      have small := lt_of_mem_covered member
      have image := inclusion _ ((mem_covered_cons small).mpr ⟨allowed, member⟩)
      rw [same] at image small
      exact (mem_covered_cons small).mp image
    obtain ⟨index, member⟩ := exists_mem_covered p
    match x with
    | some bit => exact ⟨(step bit (.inr rfl) index member).1,
        fun rest member => (step bit (.inr rfl) rest member).2⟩
    | none =>
      refine ⟨.inl ?_, fun rest member => (step true (.inl rfl) rest member).2⟩
      have low := (step false (.inl rfl) index member).1
      have high := (step true (.inl rfl) index member).1
      grind
  · rintro ⟨first, inclusion⟩ index member
    obtain ⟨bit, rest, small, rfl⟩ := exists_highest_bit (lt_of_mem_covered member)
    obtain ⟨allowed, member⟩ := (mem_covered_cons small).mp member
    rw [same] at small ⊢
    refine (mem_covered_cons small).mpr ⟨?_, inclusion _ member⟩
    rcases first with rfl | rfl
    · exact .inl rfl
    · exact allowed

/-- Patterns are told apart by the indices that they cover. -/
theorem eq_of_covered {p q : Pattern} (same : p.length = q.length) (below : p.covered ⊆ q.covered)
    (above : q.covered ⊆ p.covered) : p = q := by
  induction p generalizing q with
  | nil => exact (List.eq_nil_of_length_eq_zero same.symm).symm
  | cons x p ih =>
    obtain ⟨y, q, rfl⟩ := List.exists_cons_of_length_eq_add_one same.symm
    have tail : p.length = q.length := Nat.succ.inj same
    obtain ⟨first, below⟩ := (covered_cons_subset tail).mp below
    obtain ⟨second, above⟩ := (covered_cons_subset tail.symm).mp above
    rw [ih tail below above]
    grind

/-! ## The fixed positions -/

theorem mem_fixed {p : Pattern} {position : Nat} {value : Bool} :
    (position, value) ∈ p.fixed ↔ p[position]? = some (some value) := by
  rw [fixed, List.mem_filterMap]
  constructor
  · rintro ⟨⟨x, _⟩, member, found⟩
    obtain ⟨v, rfl, same⟩ := Option.map_eq_some_iff.mp found
    obtain ⟨rfl, rfl⟩ := Prod.mk.inj same
    exact List.mem_zipIdx_iff_getElem?.mp member
  · intro found
    exact ⟨(some value, position), List.mem_zipIdx_iff_getElem?.mpr found, rfl⟩

theorem lt_of_mem_fixed {p : Pattern} {entry : Nat × Bool} (member : entry ∈ p.fixed) :
    entry.1 < p.length :=
  (List.getElem?_eq_some_iff.mp (mem_fixed.mp member)).1

theorem agrees_iff_getElem? {p : Pattern} {index : Nat} : p.agrees index = true ↔
    ∀ position value, p[position]? = some (some value) →
      Minterm.bitAt index p.length position = value := by
  induction p with
  | nil => simp [agrees]
  | cons x p ih =>
    have top : Minterm.bitAt index (x :: p).length 0 = index.testBit p.length := rfl
    have lower (position : Nat) : Minterm.bitAt index (x :: p).length (position + 1) =
        Minterm.bitAt index p.length position := by
      rw [Minterm.bitAt, Minterm.bitAt, List.length_cons, Nat.add_sub_cancel, Nat.sub_add_eq,
        Nat.sub_right_comm]
    rw [← Nat.and_forall_add_one]
    simp only [List.getElem?_cons_zero, List.getElem?_cons_succ, top, lower, ← ih,
      Option.some.injEq]
    cases x with
    | none => simp [agrees]
    | some bit => simp [agrees]

/-- An index agrees with a pattern when each fixed position has its bit. -/
theorem agrees_iff_fixed {p : Pattern} {index : Nat} : p.agrees index = true ↔
    ∀ entry ∈ p.fixed, Minterm.bitAt index p.length entry.1 = entry.2 := by
  rw [agrees_iff_getElem?]
  simp only [Prod.forall, mem_fixed]

theorem dashes_eq_length_iff {p : Pattern} : p.dashes = p.length ↔ p.fixed = [] := by
  rw [dashes, List.count_eq_length, List.eq_nil_iff_forall_not_mem]
  constructor
  · rintro free ⟨position, value⟩ member
    have := free _ (List.mem_of_getElem? (mem_fixed.mp member))
    cases this
  · intro none x member
    obtain ⟨position, found⟩ := List.mem_iff_getElem?.mp member
    cases x with
    | none => rfl
    | some value => exact absurd (mem_fixed.mpr found) (none _)

theorem fixed_ne_nil_iff {p : Pattern} : p.fixed ≠ [] ↔ ∃ value, some value ∈ p := by
  constructor
  · intro fixed
    obtain ⟨⟨position, value⟩, member⟩ := List.exists_mem_of_ne_nil _ fixed
    exact ⟨value, List.mem_of_getElem? (mem_fixed.mp member)⟩
  · rintro ⟨value, member⟩
    obtain ⟨position, found⟩ := List.mem_iff_getElem?.mp member
    exact List.ne_nil_of_mem (mem_fixed.mpr found)

end Switching.Pattern
