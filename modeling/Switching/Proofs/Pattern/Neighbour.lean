import Switching.Proofs.Minterm.Neighbour
import Switching.Proofs.Pattern.Merging

/-! # Patterns that can be merged

Patterns that can be merged are told in two ways. By their positions, one is the other with the opposite
value at a fixed position (`merged_iff_set`). By the indices that they cover, they share none and cover
together those of a third pattern (`merged_iff_parts`), which is then what they are merged to.
-/

namespace Switching.Pattern

open Minterm

variable {p q m : Pattern} {x y z : Option Bool} {terms : IndexSet} {position index other : Nat}

/-! ## Positions -/

/-- Entries are equal if both are free or none is, and both are fixed to true or none is. -/
theorem entry_eq {first second : Option (Option Bool)} (same : first.isSome = second.isSome)
    (free : first = some none ↔ second = some none)
    (one : first = some (some true) ↔ second = some (some true)) : first = second := by
  revert first second
  decide

/-- Entries are opposite if both are free or none is, and just one is fixed to true. -/
theorem exists_entry_opposite {first second : Option (Option Bool)}
    (same : first.isSome = second.isSome) (free : first = some none ↔ second = some none)
    (differs : ¬ (first = some (some true) ↔ second = some (some true))) :
    ∃ value, first = some (some value) ∧ second = some (some (!value)) := by
  rcases first with _ | _ | (_ | _) <;> rcases second with _ | _ | (_ | _) <;> simp_all

/-- The neighbours of a pattern have the opposite value at one of its fixed positions. -/
theorem merged_iff_set : Merged p q m ↔ ∃ position value, p[position]? = some (some value) ∧
    q = p.set position (some (!value)) ∧ m = p.set position none := by
  constructor
  · intro merged
    induction merged with
    | here value p => exact ⟨0, value, rfl, rfl, rfl⟩
    | there x _ ih =>
      obtain ⟨position, value, fixed, rfl, rfl⟩ := ih
      exact ⟨position + 1, value, fixed, rfl, rfl⟩
  · rintro ⟨position, value, fixed, rfl, rfl⟩
    induction p generalizing position with
    | nil => simp at fixed
    | cons x p ih =>
      cases position with
      | zero =>
        obtain rfl : x = some value := by simpa using fixed
        exact .here value p
      | succ position => exact .there x (ih position (by simpa using fixed))

/-- What is fixed in a merged pattern is fixed in both parts. -/
theorem Merged.getElem?_eq_fixed_iff (merged : Merged p q m) {position : Nat} {value : Bool} :
    m[position]? = some (some value) ↔
      p[position]? = some (some value) ∧ q[position]? = some (some value) := by
  obtain ⟨place, bit, fixed, rfl, rfl⟩ := merged_iff_set.mp merged
  by_cases here : place = position
  · subst here
    have inside : place < p.length := (List.getElem?_eq_some_iff.mp fixed).1
    rw [List.getElem?_set_self inside, List.getElem?_set_self inside, fixed]
    cases value <;> cases bit <;> decide
  · rw [List.getElem?_set_ne here, List.getElem?_set_ne here, and_self]

/-- Patterns of one width can be merged if they have the same free positions and exactly one position is
fixed to true in one of them only. The positions that are fixed to false need not be compared. -/
theorem exists_merged_iff_positions (same : p.length = q.length) : (∃ m, Merged p q m) ↔
    (∀ position : Nat, p[position]? = some none ↔ q[position]? = some none) ∧
    ∃! position : Nat, ¬ (p[position]? = some (some true) ↔ q[position]? = some (some true)) := by
  constructor
  · rintro ⟨m, merged⟩
    obtain ⟨position, value, fixed, rfl, _⟩ := merged_iff_set.mp merged
    have inside : position < p.length := (List.getElem?_eq_some_iff.mp fixed).1
    have here : (p.set position (some (!value)))[position]? = some (some (!value)) :=
      List.getElem?_set_self inside
    have elsewhere (other : Nat) (different : other ≠ position) :
        (p.set position (some (!value)))[other]? = p[other]? :=
      List.getElem?_set_ne (Ne.symm different)
    refine ⟨fun other => ?_, position, ?_, fun other differs => ?_⟩
    · by_cases at_position : other = position
      · rw [at_position, fixed, here]
        simp
      · rw [elsewhere other at_position]
    · dsimp only
      rw [fixed, here]
      cases value <;> decide
    · by_contra different
      exact differs (by rw [elsewhere other different])
  · rintro ⟨free, position, differs, only⟩
    have present (other : Nat) : p[other]?.isSome = q[other]?.isSome := by
      rw [Bool.eq_iff_iff, isSome_getElem?, isSome_getElem?, same]
    obtain ⟨value, fixed, opposite⟩ :=
      exists_entry_opposite (present position) (free position) differs
    refine ⟨_, merged_iff_set.mpr ⟨position, value, fixed, ?_, rfl⟩⟩
    refine List.ext_getElem? fun other => ?_
    by_cases here : position = other
    · subst here
      rw [List.getElem?_set_self (List.getElem?_eq_some_iff.mp fixed).1, opposite]
    · rw [List.getElem?_set_ne here]
      have alike := not_not.mp (mt (only other) (Ne.symm here))
      exact (entry_eq (present other) (free other) alike).symm

/-- Flipping the bit of a position leads from the indices of a neighbour back to the pattern. -/
theorem flip_mem_covered {position : Nat} {value : Bool}
    (fixed : p[position]? = some (some value))
    (member : index ∈ covered (p.set position (some (!value)))) :
    flip p.length position index ∈ p.covered := by
  have inside : position < p.length := (List.getElem?_eq_some_iff.mp fixed).1
  obtain ⟨small, agrees⟩ := mem_covered.mp member
  rw [List.length_set] at small
  rw [agrees_iff_getElem?, List.length_set] at agrees
  refine mem_covered.mpr ⟨flip_lt inside small, agrees_iff_getElem?.mpr fun place other found => ?_⟩
  have within : place < p.length := (List.getElem?_eq_some_iff.mp found).1
  rw [bitAt_flip inside within]
  by_cases here : place = position
  · subst here
    obtain rfl : other = value := by simpa using found.symm.trans fixed
    have bit := agrees place (!other) (by rw [List.getElem?_set_self inside])
    simp [bit]
  · have bit := agrees place other (by rwa [List.getElem?_set_ne (Ne.symm here)])
    simp [bit, here]

/-- A position that is fixed to some value. -/
def Fixes (p : Pattern) (position : Nat) : Prop :=
  ∃ value, p[position]? = some (some value)

/-- The bit at a free position does not matter. -/
theorem agrees_of_differAt (differ : DifferAt p.length position index other)
    (free : ¬ p.Fixes position) (agrees : p.agrees index = true) : p.agrees other = true := by
  rw [agrees_iff_getElem?] at agrees ⊢
  intro place value found
  have within : place < p.length := (List.getElem?_eq_some_iff.mp found).1
  have elsewhere : place ≠ position := by
    rintro rfl
    exact free ⟨value, found⟩
  rw [← not_not.mp (mt (differ.bitAt_ne_iff place within).mp elsewhere)]
  exact agrees place value found

/-- A pattern that cannot be enlarged within the terms needs each position that it fixes: with the other
bit there, some covered index is no longer a term. -/
theorem Isolated.exists_differAt (isolated : p.Isolated terms) (fixes : p.Fixes position) :
    ∃ index other, DifferAt p.length position index other ∧ index ∈ terms ∧ other ∉ terms := by
  obtain ⟨value, fixed⟩ := fixes
  have inside : position < p.length := (List.getElem?_eq_some_iff.mp fixed).1
  have outside := isolated.2 _ _ (merged_iff_set.mpr ⟨position, value, fixed, rfl, rfl⟩)
  obtain ⟨other, member, absent⟩ : ∃ other ∈ covered (p.set position (some (!value))), other ∉ terms := by
    by_contra none
    push Not at none
    exact outside none
  have small : other < 2 ^ p.length := by simpa using lt_of_mem_covered member
  have differ : DifferAt p.length position other (Minterm.flip p.length position other) :=
    differAt_iff.mpr ⟨inside, small, rfl⟩
  exact ⟨_, other, differ.symm, isolated.1 _ (flip_mem_covered fixed member), absent⟩

/-- Two minterms can be merged when they are adjacent. -/
theorem exists_merged_bits_iff {width first second : Nat} (left : first < 2 ^ width)
    (right : second < 2 ^ width) :
    (∃ m, Merged ((bits width first).map some) ((bits width second).map some) m) ↔
      adjacent first second = true := by
  have entry (position : Nat) (inside : position < width) :
      ((bits width first).map some)[position]? = some (some (bitAt first width position)) := by
    rw [List.getElem?_map, List.getElem?_eq_getElem (by simpa using inside), getElem_bits]
    rfl
  rw [adjacent_iff_exists_differAt left right]
  constructor
  · rintro ⟨m, merged⟩
    obtain ⟨position, value, fixed, same, _⟩ := merged_iff_set.mp merged
    have inside : position < width := by simpa using (List.getElem?_eq_some_iff.mp fixed).1
    obtain rfl : bitAt first width position = value := by
      simpa using (entry position inside).symm.trans fixed
    refine ⟨position, differAt_iff.mpr ⟨inside, left, ?_⟩⟩
    rw [← List.map_set, ← bits_flip inside] at same
    have listed := List.map_injective_iff.mpr (Option.some_injective Bool) same
    have spelled := congrArg Minterm.value listed
    rwa [value_bits, value_bits, Nat.mod_eq_of_lt right, Nat.mod_eq_of_lt (flip_lt inside left)]
      at spelled
  · rintro ⟨position, differ⟩
    obtain ⟨inside, _, rfl⟩ := differAt_iff.mp differ
    refine ⟨_, merged_iff_set.mpr ⟨position, _, entry position inside, ?_, rfl⟩⟩
    rw [bits_flip inside, List.map_set]

/-! ## Covered indices -/

/-- A position is told by the bits that it allows. -/
theorem eq_of_allowed
    (same : ∀ bit : Bool, (z = none ∨ z = some bit) ↔ (x = none ∨ x = some bit)) : z = x := by
  revert x z
  decide

/-- A pattern covers the indices of two others, which share none. -/
structure Parts (p q m : Pattern) : Prop where
  left_length : p.length = m.length
  right_length : q.length = m.length
  apart : ∀ index ∈ p.covered, index ∉ q.covered
  mem_iff : ∀ index, index ∈ m.covered ↔ index ∈ p.covered ∨ index ∈ q.covered

theorem Merged.parts (merged : Merged p q m) : Parts p q m where
  left_length := merged.length_eq
  right_length := merged.symm.length_eq
  apart index left right := by
    have misses := merged.not_agrees (mem_covered.mp left).2
    rw [(mem_covered.mp right).2] at misses
    cases misses
  mem_iff _ := merged.mem_covered_iff

namespace Parts

theorem symm (parts : Parts p q m) : Parts q p m where
  left_length := parts.right_length
  right_length := parts.left_length
  apart index right left := parts.apart index left right
  mem_iff index := (parts.mem_iff index).trans or_comm

/-- Among the indices with a highest bit, one pattern covers again those of the two others, as far as
their first positions allow the bit. -/
theorem of_highest_bit (parts : Parts (x :: p) (y :: q) (z :: m)) (bit : Bool) (rest : Nat) :
    ((z = none ∨ z = some bit) ∧ rest ∈ m.covered ↔
      (x = none ∨ x = some bit) ∧ rest ∈ p.covered ∨ (y = none ∨ y = some bit) ∧ rest ∈ q.covered) ∧
    ((x = none ∨ x = some bit) ∧ rest ∈ p.covered →
      ¬ ((y = none ∨ y = some bit) ∧ rest ∈ q.covered)) := by
  have left : p.length = m.length := Nat.succ.inj parts.left_length
  have right : q.length = m.length := Nat.succ.inj parts.right_length
  by_cases small : rest < 2 ^ m.length
  · have allowed {r : Pattern} (w : Option Bool) (length : r.length = m.length) :
        (w = none ∨ w = some bit) ∧ rest ∈ r.covered ↔
          2 ^ m.length * bit.toNat + rest ∈ covered (w :: r) := by
      rw [← length] at small ⊢
      exact (mem_covered_cons small).symm
    rw [allowed z rfl, allowed x left, allowed y right]
    exact ⟨parts.mem_iff _, parts.apart _⟩
  · have outside {r : Pattern} (length : r.length = m.length) : rest ∉ r.covered := fun member =>
      small (length ▸ lt_of_mem_covered member)
    simp [outside left, outside right, outside rfl]

theorem not_free_fixed {value : Bool} (parts : Parts (none :: p) (some value :: q) (z :: m)) :
    False := by
  obtain ⟨first, start⟩ := exists_mem_covered p
  obtain ⟨index, member⟩ := exists_mem_covered q
  have same := parts.of_highest_bit value index
  have other := parts.of_highest_bit (!value)
  -- With the other bit, the third pattern covers what the first one does, and so it does with this bit.
  have allowed := ((other first).1.mpr (.inl ⟨.inl rfl, start⟩)).1
  have covered := (same.1.mpr (.inr ⟨.inr rfl, member⟩)).2
  have left : index ∈ p.covered := by
    rcases (other index).1.mp ⟨allowed, covered⟩ with left | right
    · exact left.2
    · exact absurd right.1 (by simp)
  exact same.2 ⟨.inl rfl, left⟩ ⟨.inr rfl, member⟩

theorem of_opposite {value : Bool} (parts : Parts (some value :: p) (some (!value) :: q) (z :: m)) :
    z = none ∧ p = m ∧ q = m := by
  have first (rest : Nat) := (parts.of_highest_bit value rest).1
  have second (rest : Nat) := (parts.of_highest_bit (!value) rest).1
  simp only [reduceCtorEq, Option.some.injEq, Bool.eq_not_self, Bool.not_eq_self, false_or, or_false,
    true_and, false_and] at first second
  obtain ⟨low, start⟩ := exists_mem_covered p
  obtain ⟨high, member⟩ := exists_mem_covered q
  have here := ((first low).mpr start).1
  have there := ((second high).mpr member).1
  have free : z = none := by grind
  refine ⟨free, ?_, ?_⟩
  · apply eq_of_covered (Nat.succ.inj parts.left_length)
    · exact fun rest left => ((first rest).mpr left).2
    · exact fun rest covered => (first rest).mp ⟨here, covered⟩
  · apply eq_of_covered (Nat.succ.inj parts.right_length)
    · exact fun rest right => ((second rest).mpr right).2
    · exact fun rest covered => (second rest).mp ⟨there, covered⟩

theorem of_same (parts : Parts (x :: p) (x :: q) (z :: m)) : z = x ∧ Parts p q m := by
  have allowed (bit : Bool) : (z = none ∨ z = some bit) ↔ (x = none ∨ x = some bit) := by
    constructor
    · intro third
      obtain ⟨rest, member⟩ := exists_mem_covered m
      rcases (parts.of_highest_bit bit rest).1.mp ⟨third, member⟩ with left | right
      · exact left.1
      · exact right.1
    · intro first
      obtain ⟨rest, member⟩ := exists_mem_covered p
      exact ((parts.of_highest_bit bit rest).1.mpr (.inl ⟨first, member⟩)).1
  have same := eq_of_allowed allowed
  obtain ⟨bit, here⟩ : ∃ bit, x = none ∨ x = some bit := by cases x <;> simp
  refine ⟨same, Nat.succ.inj parts.left_length, Nat.succ.inj parts.right_length,
    fun rest left right => ?_, fun rest => ?_⟩
  · exact (parts.of_highest_bit bit rest).2 ⟨here, left⟩ ⟨here, right⟩
  · have union := (parts.of_highest_bit bit rest).1
    simpa only [same, here, true_and] using union

theorem merged (parts : Parts p q m) : Merged p q m := by
  induction p generalizing q m with
  | nil =>
    obtain rfl := List.eq_nil_of_length_eq_zero parts.left_length.symm
    obtain rfl := List.eq_nil_of_length_eq_zero parts.right_length
    obtain ⟨index, member⟩ := exists_mem_covered []
    exact absurd member (parts.apart index member)
  | cons x p ih =>
    obtain ⟨z, m, rfl⟩ := List.exists_cons_of_length_eq_add_one parts.left_length.symm
    obtain ⟨y, q, rfl⟩ := List.exists_cons_of_length_eq_add_one parts.right_length
    match x, y with
    | none, none =>
      obtain ⟨rfl, rest⟩ := parts.of_same
      exact .there none (ih rest)
    | none, some value => exact parts.not_free_fixed.elim
    | some value, none => exact parts.symm.not_free_fixed.elim
    | some value, some other =>
      by_cases same : value = other
      · subst same
        obtain ⟨rfl, rest⟩ := parts.of_same
        exact .there _ (ih rest)
      · obtain rfl : other = !value := Bool.eq_not.mpr (Ne.symm same)
        obtain ⟨rfl, rfl, rfl⟩ := parts.of_opposite
        exact .here value _

end Parts

/-- Two patterns are merged to the third that covers their indices, provided that they share none. -/
theorem merged_iff_parts : Merged p q m ↔ Parts p q m :=
  ⟨Merged.parts, Parts.merged⟩

end Switching.Pattern
